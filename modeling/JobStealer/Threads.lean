import JobStealer.Interleaving
import Mathlib.Data.Fintype.Sum

/-!
# Threads beside a shared state

Every thread has a local state of its own type; a step moves one thread, which
sees and changes the shared state and its own local state only. `Choice` is what
the environment decides for that step.

* `step_cases`: what a step does to the whole state;
* `local_invariant`: what the steps of one thread keep of its own local state;
* `sum_step`: what a step moves between the shared state and its own local state
  stays in the total over all threads;
* `Alone`: the runs of one thread, and that they are runs of the machine.
-/

namespace Interleaving

/-- One summand of a total changes. -/
theorem sum_update {ι : Type} [Fintype ι] [DecidableEq ι] {β : ι → Type} (p : ∀ i, β i) (i : ι)
    (b : β i) (f : ∀ i, β i → Nat) :
    ∑ k, f k (Function.update p i b k) + f i (p i) = ∑ k, f k (p k) + f i b := by
  have eq (k : ι) : f k (Function.update p i b k) =
      Function.update (fun k => f k (p k)) i (f i b) k := Function.apply_update f p i b k
  simp only [eq]
  rw [Finset.sum_update_of_mem (Finset.mem_univ i),
    ← Finset.sum_sdiff (Finset.subset_univ {i}) (f := fun k => f k (p k)), Finset.sum_singleton]
  omega

structure Threads (T : Type) (Local : T → Type) (Shared Choice : Type) where
  shared : Shared
  start : ∀ t, Local t
  step : ∀ t, Choice → Local t → Shared → Option (Local t × Shared)

namespace Threads

structure State {T : Type} (Local : T → Type) (Shared : Type) where
  shared : Shared
  pc : ∀ t, Local t

variable {T : Type} {Local : T → Type} {Shared Choice : Type} [DecidableEq T]
  (P : Threads T Local Shared Choice)

def State.move (s : State Local Shared) (t : T) (pc : Local t) (shared : Shared) :
    State Local Shared := ⟨shared, Function.update s.pc t pc⟩

def machine : Machine (State Local Shared) (T × Choice) where
  start := ⟨P.shared, P.start⟩
  step a s := (P.step a.1 a.2 (s.pc a.1) s.shared).map fun r => s.move a.1 r.1 r.2

variable {P}

theorem step_cases {s s' : State Local Shared} {a : T × Choice}
    (h : P.machine.step a s = some s') : ∃ pc shared,
      P.step a.1 a.2 (s.pc a.1) s.shared = some (pc, shared) ∧ s' = s.move a.1 pc shared := by
  obtain ⟨⟨pc, shared⟩, move, rfl⟩ := Option.map_eq_some_iff.mp h
  exact ⟨pc, shared, move, rfl⟩

namespace State
variable (s : State Local Shared) {t u : T} (pc : Local t) (shared : Shared)

@[simp] theorem move_shared : (s.move t pc shared).shared = shared := rfl

@[simp] theorem move_self : (s.move t pc shared).pc t = pc := Function.update_self ..

theorem move_other (h : u ≠ t) : (s.move t pc shared).pc u = s.pc u := Function.update_of_ne h ..

theorem move_eq_self : s.move t (s.pc t) s.shared = s := by
  rw [move, Function.update_eq_self]

theorem move_move (pc' : Local t) (shared' : Shared) :
    (s.move t pc shared).move t pc' shared' = s.move t pc' shared' := by
  rw [move, move, move, Function.update_idem]

/-- A property of each thread's local state, after a step of one of them. -/
theorem move_forall {Q : ∀ t, Local t → Prop} (others : ∀ u, u ≠ t → Q u (s.pc u))
    (moved : Q t pc) (u : T) : Q u ((s.move t pc shared).pc u) := by
  by_cases h : u = t
  · subst h
    rwa [move_self]
  · rw [s.move_other pc shared h]
    exact others u h

/-- The local states as another system sees them. -/
theorem move_map {β : Type} (f : ∀ t, Local t → β) :
    (fun u => f u ((s.move t pc shared).pc u)) =
      Function.update (fun u => f u (s.pc u)) t (f t pc) := by
  funext u
  exact Function.apply_update f s.pc t pc u

/-- `m` is a number read off the shared state before the step, `m'` after it. -/
theorem sum_step [Fintype T] (f : ∀ t, Local t → Nat) {m m' : Nat}
    (balanced : m' + f t pc = m + f t (s.pc t)) :
    m' + ∑ u, f u ((s.move t pc shared).pc u) = m + ∑ u, f u (s.pc u) := by
  have := sum_update s.pc t pc f
  have same : (s.move t pc shared).pc = Function.update s.pc t pc := rfl
  rw [same]
  omega

end State

/-- The induction rule for a property of one thread's local state: only its own
steps matter. -/
theorem local_invariant {ok : State Local Shared → T × Choice → Prop} {t : T}
    {Q : Local t → Prop} (start : Q (P.start t))
    (own : ∀ s choice pc shared, ok s (t, choice) → Q (s.pc t) →
      P.step t choice (s.pc t) s.shared = some (pc, shared) → Q pc)
    {s : State Local Shared} (h : P.machine.Reach ok s) : Q (s.pc t) := by
  induction h with
  | start => exact start
  | @next s s' a _ allowed move ih =>
    obtain ⟨pc, shared, took, rfl⟩ := step_cases move
    obtain ⟨u, choice⟩ := a
    by_cases here : u = t
    · subst here
      rw [s.move_self]
      exact own s choice pc shared allowed ih took
    · rw [s.move_other pc shared (Ne.symm here)]
      exact ih

variable (P) in
/-- A run in which only thread `t` moves. -/
def Alone (t : T) : Local t × Shared → Local t × Shared → Prop :=
  Relation.ReflTransGen fun p q => ∃ choice, P.step t choice p.1 p.2 = some q

theorem Alone.reach {ok : State Local Shared → T × Choice → Prop} {t : T}
    (allowed : ∀ s choice, ok s (t, choice)) {s : State Local Shared} {q : Local t × Shared}
    (run : P.Alone t (s.pc t, s.shared) q) (reached : P.machine.Reach ok s) :
    P.machine.Reach ok (s.move t q.1 q.2) := by
  induction run with
  | refl => rwa [s.move_eq_self]
  | @tail p q _ move ih =>
    obtain ⟨choice, took⟩ := move
    apply ih.next (allowed _ choice)
    simp [machine, took, State.move_move]

end Threads
end Interleaving
