import Mathlib.Data.Fintype.BigOperators

/-!
# Runs of a machine whose threads interleave

A machine is a start state and a partial step function: `step a s` is `none`
where action `a` is not enabled in `s`. An action names the thread that moves
and whatever the environment chooses for it, so a list of actions is one
interleaving.

* `Reach ok`: the states of the runs whose every step satisfies `ok`;
* `Reach.invariant`: what the start has and every such step keeps holds there;
* `after`: the same machine, entered at a later state;
* `exists_reach`: a goal that can always come nearer can be reached;
* `exec`: an executable run, which `exec_reach` shows is one of those runs;
* `tally`: what the steps of a run add up to, bounded by a potential (`tally_le`,
  `tally_le_add`);
* `length_le`: a potential that every step lowers bounds the runs;
* `Simulation.reach`: a machine whose steps are runs of another only visits
  states related to the other's.
-/

namespace Interleaving

structure Machine (State Action : Type) where
  start : State
  step : Action → State → Option State

namespace Machine
variable {State Action : Type} (M : Machine State Action)

/-- Reached by a run in which every step meets `ok`, a condition on the state
before the step and on the action taken there. -/
inductive Reach (ok : State → Action → Prop) : State → Prop
  | start : Reach ok M.start
  | next {s t : State} {a : Action} :
      Reach ok s → ok s a → M.step a s = some t → Reach ok t

/-- Reached by any run at all. -/
abbrev Reachable : State → Prop := M.Reach fun _ _ => True

variable {M}

/-- A run under one condition is a run under a weaker one. -/
theorem Reach.mono {ok weaker : State → Action → Prop} (h : ∀ s a, ok s a → weaker s a)
    {s : State} (run : M.Reach ok s) : M.Reach weaker s := by
  induction run with
  | start => exact .start
  | next _ allowed move ih => exact .next ih (h _ _ allowed) move

theorem Reach.reachable {ok : State → Action → Prop} {s : State} (h : M.Reach ok s) :
    M.Reachable s := h.mono fun _ _ _ => trivial

/-- What the states of a run guarantee of its steps is no restriction on the run. -/
theorem Reach.strengthen {ok more : State → Action → Prop}
    (h : ∀ s a, M.Reach ok s → ok s a → more s a) {s : State} (run : M.Reach ok s) :
    M.Reach (fun s a => ok s a ∧ more s a) s := by
  induction run with
  | start => exact .start
  | next run allowed move ih => exact .next ih ⟨allowed, h _ _ run allowed⟩ move

/-- The induction rule for a property that may use what is already known of
the runs. -/
theorem Reach.invariant {ok : State → Action → Prop} {I : State → Prop} (start : I M.start)
    (step : ∀ s t a, M.Reach ok s → I s → ok s a → M.step a s = some t → I t)
    {s : State} (h : M.Reach ok s) : I s := by
  induction h with
  | start => exact start
  | next run allowed move ih => exact step _ _ _ run ih allowed move

variable (M) in
/-- The rest of a run that has come to `s`. -/
def after (s : State) : Machine State Action := { M with start := s }

theorem Reach.trans {ok : State → Action → Prop} {s t : State} (h : M.Reach ok s)
    (rest : (M.after s).Reach ok t) : M.Reach ok t := by
  induction rest with
  | start => exact h
  | next _ allowed move ih => exact .next ih allowed move

/-- A goal is reached by runs each of which comes nearer to it. -/
theorem exists_reach {ok : State → Action → Prop} {I Goal : State → Prop}
    (distance : State → Nat) (nearer : ∀ s, I s → ¬ Goal s →
      ∃ t, (M.after s).Reach ok t ∧ I t ∧ distance t < distance s)
    {s : State} (hs : I s) : ∃ t, (M.after s).Reach ok t ∧ I t ∧ Goal t := by
  generalize far : distance s = d
  induction d using Nat.strongRecOn generalizing s with
  | ind d ih =>
    by_cases there : Goal s
    · exact ⟨s, .start, hs, there⟩
    · obtain ⟨u, first, hu, less⟩ := nearer s hs there
      obtain ⟨t, rest, ht, there⟩ := ih _ (far ▸ less) hu rfl
      exact ⟨t, Reach.trans (M := M.after s) first rest, ht, there⟩

variable (M) in
/-- Take the actions in turn, stopping where one is not enabled or not `ok`. -/
def exec (ok : State → Action → Prop) [∀ s a, Decidable (ok s a)] :
    List Action → State → Option State
  | [], s => some s
  | a :: rest, s => if ok s a then (M.step a s).bind (exec ok rest) else none

theorem exec_reach {ok : State → Action → Prop} [∀ s a, Decidable (ok s a)]
    {actions : List Action} {s t : State} (hs : M.Reach ok s)
    (h : M.exec ok actions s = some t) : M.Reach ok t := by
  induction actions generalizing s with
  | nil =>
    cases h
    exact hs
  | cons a rest ih =>
    simp only [exec] at h
    split at h
    · rename_i allowed
      obtain ⟨u, move, tail⟩ := Option.bind_eq_some_iff.mp h
      exact ih (.next hs allowed move) tail
    · cases h

theorem exec_append {ok : State → Action → Prop} [∀ s a, Decidable (ok s a)]
    {before rest : List Action} {s t u : State} (h : M.exec ok before s = some t)
    (tail : M.exec ok rest t = some u) : M.exec ok (before ++ rest) s = some u := by
  induction before generalizing s with
  | nil =>
    cases h
    exact tail
  | cons a before ih =>
    simp only [List.cons_append, exec] at h ⊢
    split at h
    · rename_i allowed
      obtain ⟨v, move, more⟩ := Option.bind_eq_some_iff.mp h
      rw [if_pos allowed, move]
      exact ih more
    · cases h

theorem exec_after {ok : State → Action → Prop} [∀ s a, Decidable (ok s a)] (r : State)
    (actions : List Action) (s : State) : (M.after r).exec ok actions s = M.exec ok actions s := by
  induction actions generalizing s with
  | nil => rfl
  | cons a rest ih =>
    have same : (M.after r).exec ok rest = M.exec ok rest := funext ih
    simp only [exec, same]
    rfl

/-- A run evaluated from the start ends in a reachable state. -/
theorem exec_start {ok : State → Action → Prop} [∀ s a, Decidable (ok s a)]
    (actions : List Action) {t : State} (h : M.exec ok actions M.start = some t) :
    M.Reach ok t := exec_reach .start h

variable (M) in
/-- Take the actions in turn, whatever they are. -/
abbrev run : List Action → State → Option State := M.exec fun _ _ => True

variable (M) in
/-- The sum of `f` over the steps of a run. -/
def tally (f : State → Action → Nat) : List Action → State → Nat
  | [], _ => 0
  | a :: rest, s => f s a + ((M.step a s).map (tally f rest)).getD 0

theorem tally_zero (actions : List Action) (s : State) :
    M.tally (fun _ _ => 0) actions s = 0 := by
  induction actions generalizing s with
  | nil => rfl
  | cons a rest ih => cases move : M.step a s <;> simp [tally, move, ih]

theorem tally_mul (k : Nat) (f : State → Action → Nat) (actions : List Action) (s : State) :
    M.tally (fun s a => k * f s a) actions s = k * M.tally f actions s := by
  induction actions generalizing s with
  | nil => rfl
  | cons a rest ih => cases move : M.step a s <;> simp [tally, move, ih, Nat.mul_add]

/-- What every step takes off `potential` bounds what a run takes off it. -/
theorem tally_le {f : State → Action → Nat} {potential : State → Nat} {I : State → Prop}
    (step : ∀ s t a, I s → M.step a s = some t → I t ∧ f s a + potential t ≤ potential s)
    {actions : List Action} {s t : State} (hs : I s) (h : M.run actions s = some t) :
    M.tally f actions s + potential t ≤ potential s := by
  induction actions generalizing s with
  | nil =>
    cases h
    exact Nat.le_of_eq (Nat.zero_add _)
  | cons a rest ih =>
    simp only [exec, if_true] at h
    obtain ⟨u, move, tail⟩ := Option.bind_eq_some_iff.mp h
    obtain ⟨hu, less⟩ := step s u a hs move
    have later := ih hu tail
    simp only [tally, move, Option.map_some, Option.getD_some]
    omega

/-- What the steps of a run cost is bounded by a potential, and by what some of them
bring. -/
theorem tally_le_add {ok : State → Action → Prop} [∀ s a, Decidable (ok s a)]
    {cost gain : State → Action → Nat} {potential : State → Nat} {I : State → Prop}
    (step : ∀ s t a, I s → ok s a → M.step a s = some t →
      I t ∧ cost s a + potential t ≤ potential s + gain s a)
    {actions : List Action} {s t : State} (hs : I s) (h : M.exec ok actions s = some t) :
    M.tally cost actions s + potential t ≤ potential s + M.tally gain actions s := by
  induction actions generalizing s with
  | nil =>
    cases h
    exact Nat.le_of_eq (Nat.zero_add _)
  | cons a rest ih =>
    simp only [exec] at h
    split at h
    · rename_i allowed
      obtain ⟨u, move, tail⟩ := Option.bind_eq_some_iff.mp h
      obtain ⟨hu, less⟩ := step s u a hs allowed move
      have later := ih hu tail
      simp only [tally, move, Option.map_some, Option.getD_some]
      omega
    · cases h

/-- A run is no longer than a potential that every step lowers. -/
theorem length_le {potential : State → Nat} {I : State → Prop}
    (step : ∀ s t a, I s → M.step a s = some t → I t ∧ potential t < potential s)
    {actions : List Action} {s t : State} (hs : I s) (h : M.run actions s = some t) :
    I t ∧ actions.length + potential t ≤ potential s := by
  induction actions generalizing s with
  | nil =>
    cases h
    exact ⟨hs, Nat.le_of_eq (Nat.zero_add _)⟩
  | cons a rest ih =>
    simp only [exec, if_true] at h
    obtain ⟨u, move, tail⟩ := Option.bind_eq_some_iff.mp h
    obtain ⟨hu, less⟩ := step s u a hs move
    obtain ⟨ht, later⟩ := ih hu tail
    refine ⟨ht, ?_⟩
    rw [List.length_cons]
    omega

/-- `R` relates the starts, and a step of `M` is matched by a run of `N`. -/
structure Simulation {Abstract Label : Type} (M : Machine State Action)
    (N : Machine Abstract Label) (R : State → Abstract → Prop) : Prop where
  start : R M.start N.start
  step : ∀ s t a x, R s x → N.Reachable x → M.step a s = some t → ∃ y, N.Reachable y ∧ R t y

/-- Every state of `M` stands for a state that `N` reaches. -/
theorem Simulation.reach {Abstract Label : Type} {N : Machine Abstract Label}
    {R : State → Abstract → Prop} (sim : Simulation M N R) {ok : State → Action → Prop} {s : State}
    (h : M.Reach ok s) : ∃ x, N.Reachable x ∧ R s x := by
  apply h.invariant (I := fun s => ∃ x, N.Reachable x ∧ R s x) ⟨_, .start, sim.start⟩
  rintro s t a _ ⟨x, reached, related⟩ _ move
  exact sim.step s t a x related reached move

end Machine
end Interleaving
