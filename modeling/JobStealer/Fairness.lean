import JobStealer.Interleaving
import Mathlib.Order.Filter.AtTopBot.Basic
import Mathlib.Order.Filter.Finite

/-!
# Infinite runs

A `Course` is a run that may last for ever; where it takes no action, nothing happens.
It is `Fair` to a class of actions if it does not pass them over for ever: from any time
on, one is taken, or is not possible at some time.

`constant` is how a potential is used on it: what does not rise from some time on does
not change from some time on, and the actions that lower it come to an end (`ends`).
`Fair.moves` is how fairness is used.
-/

namespace Interleaving.Machine
variable {State Action T : Type} (M : Machine State Action)

/-- An infinite run in which every step meets `ok`. -/
structure Course (ok : State → Action → Prop) where
  state : Nat → State
  action : Nat → Option Action
  start : state 0 = M.start
  moves : ∀ {k a}, action k = some a → ok (state k) a ∧ M.step a (state k) = some (state (k + 1))
  rests : ∀ {k}, action k = none → state (k + 1) = state k

/-- One of the actions that `who` is can be taken, and is `good`. -/
def Able (good : State → Action → Prop) (who : Action → Prop) (s : State) : Prop :=
  ∃ a t, who a ∧ good s a ∧ M.step a s = some t

variable {M} {ok : State → Action → Prop} (x : M.Course ok)

namespace Course

/-- None of the classes is able for ever without being taken. -/
def Fair (good : State → Action → Prop) (who : T → Action → Prop) : Prop :=
  ∀ t k, (∀ u, k ≤ u → M.Able good (who t) (x.state u)) →
    ∃ u a, k ≤ u ∧ x.action u = some a ∧ who t a

variable {x}

/-- A step of the course, whether or not it takes an action. -/
theorem next {R : State → State → Prop} (k : Nat) (refl : R (x.state k) (x.state k))
    (step : ∀ a t, x.action k = some a → ok (x.state k) a → M.step a (x.state k) = some t →
      R (x.state k) t) : R (x.state k) (x.state (k + 1)) := by
  cases taken : x.action k with
  | none =>
    rw [x.rests taken]
    exact refl
  | some a =>
    obtain ⟨allowed, move⟩ := x.moves taken
    exact step a _ taken allowed move

theorem reach (k : Nat) : M.Reach ok (x.state k) := by
  induction k with
  | zero =>
    rw [x.start]
    exact .start
  | succ k ih =>
    exact next (R := fun _ t => M.Reach ok t) k ih fun _ _ _ allowed move => ih.next allowed move

/-- What holds at some time and is kept from then on holds from then on. -/
theorem always {P : State → Prop} {k : Nat} (start : P (x.state k))
    (step : ∀ u, k ≤ u → P (x.state u) → P (x.state (u + 1))) :
    ∀ u, k ≤ u → P (x.state u) := by
  intro u later
  induction u, later using Nat.le_induction with
  | base => exact start
  | succ u later ih => exact step u later ih

/-- A potential that does not rise from some time on does not change from some time on. -/
theorem constant (potential : State → Nat) {k : Nat}
    (falls : ∀ u, k ≤ u → potential (x.state (u + 1)) ≤ potential (x.state u)) :
    ∃ m, k ≤ m ∧ ∀ u, m ≤ u → potential (x.state u) = potential (x.state m) := by
  generalize size : potential (x.state k) = p
  induction p using Nat.strongRecOn generalizing k with
  | ind p ih =>
    have below : ∀ u, k ≤ u → potential (x.state u) ≤ p :=
      always (P := fun s => potential s ≤ p) size.le fun u later le => (falls u later).trans le
    by_cases same : ∀ u, k ≤ u → potential (x.state u) = p
    · exact ⟨k, Nat.le_refl k, fun u later => (same u later).trans size.symm⟩
    · push Not at same
      obtain ⟨u, later, other⟩ := same
      have less : potential (x.state u) < p := lt_of_le_of_ne (below u later) other
      obtain ⟨m, after, rest⟩ := ih _ less (fun v hv => falls v (later.trans hv)) rfl
      exact ⟨m, later.trans after, rest⟩

/-- Actions that take from a potential nothing adds to come to an end. -/
theorem ends (potential : State → Nat) (who : State → Action → Prop) {k : Nat}
    (falls : ∀ u a, k ≤ u → x.action u = some a →
      potential (x.state (u + 1)) ≤ potential (x.state u))
    (takes : ∀ u a, k ≤ u → x.action u = some a → who (x.state u) a →
      potential (x.state (u + 1)) < potential (x.state u)) :
    ∃ m, k ≤ m ∧ ∀ u a, m ≤ u → x.action u = some a → ¬ who (x.state u) a := by
  obtain ⟨m, after, same⟩ := x.constant potential (k := k) fun u later => by
    cases taken : x.action u with
    | none => rw [x.rests taken]
    | some a => exact falls u a later taken
  refine ⟨m, after, fun u a later taken mine => ?_⟩
  have less := takes u a (after.trans later) taken mine
  rw [same u later, same (u + 1) (Nat.le_succ_of_le later)] at less
  exact Nat.lt_irrefl _ less

/-- A class that is able as long as `P` holds, and `P` lasting until then, is taken. -/
theorem Fair.moves {good : State → Action → Prop} {who : T → Action → Prop}
    (fair : x.Fair good who) {P : State → Prop} {v : T} {k : Nat} (start : P (x.state k))
    (kept : ∀ u a, k ≤ u → P (x.state u) → x.action u = some a → ¬ who v a → P (x.state (u + 1)))
    (ready : ∀ u, k ≤ u → P (x.state u) → M.Able good (who v) (x.state u)) :
    ∃ u a, k ≤ u ∧ P (x.state u) ∧ x.action u = some a ∧ who v a := by
  by_contra never
  push Not at never
  have lasts : ∀ u, k ≤ u → P (x.state u) := by
    refine always start fun u later holds => ?_
    cases taken : x.action u with
    | none => rwa [x.rests taken]
    | some a => exact kept u a later holds taken (never u a later holds taken)
  obtain ⟨u, a, later, taken, mine⟩ := fair v k fun u later => ready u later (lasts u later)
  exact never u a later (lasts u later) taken mine

/-- What each of finitely many comes to in the end, they all come to. -/
theorem together {I : Type} [Finite I] {P : I → Nat → Prop}
    (each : ∀ i, ∃ m, ∀ u, m ≤ u → P i u) : ∃ m, ∀ u, m ≤ u → ∀ i, P i u := by
  have all := Filter.eventually_all.mpr fun i => Filter.eventually_atTop.mpr (each i)
  exact Filter.eventually_atTop.mp all

/-! ## Runs that stop -/

variable [∀ s a, Decidable (ok s a)]

/-- The first `k` steps of a run. -/
theorem exec_take {actions : List Action} {s t : State} (h : M.exec ok actions s = some t)
    (k : Nat) :
    ∃ u, M.exec ok (actions.take k) s = some u ∧ M.exec ok (actions.drop k) u = some t := by
  induction actions generalizing s k with
  | nil => exact ⟨s, by simp [exec], by simpa using h⟩
  | cons a rest ih =>
    cases k with
    | zero => exact ⟨s, rfl, h⟩
    | succ k =>
      simp only [exec] at h
      split at h
      · rename_i allowed
        obtain ⟨v, move, tail⟩ := Option.bind_eq_some_iff.mp h
        obtain ⟨u, first, last⟩ := ih tail k
        exact ⟨u, by simp [exec, allowed, move, first], last⟩
      · cases h

/-- A run after which nothing happens any more. -/
def stop {actions : List Action} {t : State} (h : M.exec ok actions M.start = some t) :
    M.Course ok where
  state k := (M.exec ok (actions.take k) M.start).getD t
  action k := actions[k]?
  start := rfl
  moves {k a} taken := by
    obtain ⟨u, first, last⟩ := exec_take h k
    obtain ⟨inside, rfl⟩ := List.getElem?_eq_some_iff.mp taken
    rw [List.drop_eq_getElem_cons inside, exec] at last
    split at last
    · rename_i allowed
      obtain ⟨v, move, tail⟩ := Option.bind_eq_some_iff.mp last
      have next : M.exec ok (actions.take (k + 1)) M.start = some v := by
        rw [List.take_succ_eq_append_getElem inside]
        exact exec_append first (by simp [exec, allowed, move])
      rw [first, next]
      exact ⟨allowed, move⟩
    · cases last
  rests {k} none := by
    have beyond := List.getElem?_eq_none_iff.mp none
    rw [List.take_of_length_le beyond, List.take_of_length_le (Nat.le_succ_of_le beyond)]

/-- It is fair if nobody could go on. -/
theorem stop_fair {good : State → Action → Prop} {who : T → Action → Prop}
    {actions : List Action} {t : State} (h : M.exec ok actions M.start = some t)
    (dead : ∀ v, ¬ M.Able good (who v) t) : (stop h).Fair good who := by
  intro v k ready
  have last := ready (max k actions.length) (Nat.le_max_left ..)
  simp only [stop, List.take_of_length_le (Nat.le_max_right ..), h, Option.getD_some] at last
  exact absurd last (dead v)

end Course
end Interleaving.Machine
