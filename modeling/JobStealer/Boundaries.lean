import JobStealer.Interleaving
import JobStealer.Slots

/-!
# Where the indices of an empty deque stand

The operations of a `LocklessDeque` one at a time, for any number of frames. The
indices go back to 0 only in a `PopFront` that takes the last job from a slot
other than 0. A `PopFront` that takes it from slot 0, and a `PopBack`, leave both
indices where they are: `reset_iff` says when a pop leaves 0 in both, and
`boundaries_reset` that as long as every last pop is of the right kind an empty
deque has its full capacity. `drift` is a frame that loses one slot.
-/

namespace JobStealer
open Interleaving

variable {J : Type}

/-- Operations one at a time, each with the answers `CanExecute` gives during it.
An operation that ends in a `Fault` is not taken. -/
def LocklessDeque.machine (J : Type) : Machine (LocklessDeque J) (DequeOp J × (J → Bool)) where
  start := .empty
  step a d := match d.apply a.2 a.1 with
    | .ok (_, e) => some e
    | .error _ => none

namespace Boundaries
open LocklessDeque
variable {d e : LocklessDeque J} {a : DequeOp J × (J → Bool)}

theorem step_apply (move : (machine J).step a d = some e) :
    ∃ answer, d.apply a.2 a.1 = .ok (answer, e) := by
  simp only [machine] at move
  split at move
  · rename_i answer d' eq
    cases move
    exact ⟨answer, eq⟩
  · cases move

/-- A pop that takes the only job left is a `PopFront` from a slot other than 0,
or a `PopBack` from slot 0. -/
def LastTaken (d : LocklessDeque J) : DequeOp J × (J → Bool) → Prop
  | (.popFront allow, can) =>
    ∀ job, d.content = [some job] → (allow || can job) = true → d.mFront ≠ 0
  | (.popBack, can) => ∀ job, d.content = [some job] → can job = true → d.mFront = 0
  | _ => True

/-- The indices are in order, and both are 0 where nothing is between them. -/
def Reset (d : LocklessDeque J) : Prop := d.mFront ≤ d.mBack ∧ (d.mFront = d.mBack → d.mFront = 0)

theorem content_singleton {job : J} (one : d.mFront + 1 = d.mBack)
    (slot : d.mEntries d.mFront = some job) : d.content = [some job] := by
  rw [content, ← one, Nat.add_sub_cancel_left]
  simp [slot]

theorem step_reset (h : Reset d) (last : LastTaken d a) (move : (machine J).step a d = some e) :
    Reset e := by
  obtain ⟨op, can⟩ := a
  obtain ⟨answer, move⟩ := step_apply move
  obtain ⟨order, zero⟩ := h
  rcases apply_cases move with rfl | ⟨rfl, rfl⟩ | ⟨job, rfl, _, rfl⟩ |
    ⟨allow, job, rfl, inside, slot, take, rfl⟩ | ⟨rfl, job, inside, slot, take, rfl⟩
  · exact ⟨order, zero⟩
  · exact ⟨Nat.le_refl _, fun _ => rfl⟩
  · refine ⟨Nat.le_succ_of_le order, ?_⟩
    intro full
    dsimp only at full
    omega
  · by_cases one : d.mFront + 1 = d.mBack
    · have away := last job (content_singleton one slot) take
      rw [if_pos ⟨one, away⟩]
      exact ⟨Nat.le_refl _, fun _ => rfl⟩
    · rw [if_neg fun both => one both.1]
      refine ⟨inside, ?_⟩
      intro emptied
      exact absurd emptied one
  · refine ⟨Nat.le_pred_of_lt inside, ?_⟩
    intro emptied
    dsimp only at emptied
    have one : d.mFront + 1 = d.mBack := by omega
    rw [← emptied] at slot
    exact last job (content_singleton one slot) take

theorem reach_reset (h : (machine J).Reach LastTaken d) : Reset d := by
  induction h with
  | start => exact ⟨Nat.le_refl _, fun _ => rfl⟩
  | next run last move ih => exact step_reset ih last move

/-- Exactly the pops of that kind leave 0 in both indices. -/
theorem reset_iff {op : DequeOp J} {can : J → Bool} {answer : DequeAnswer J}
    (pop : (∃ allow, op = .popFront allow) ∨ op = .popBack) (jobs : d.content ≠ [])
    (move : d.apply can op = .ok (answer, e)) (emptied : e.content = []) :
    (e.mFront = 0 ∧ e.mBack = 0) ↔ LastTaken d (op, can) := by
  have inside : d.mFront < d.mBack := Nat.lt_of_not_le fun le => jobs (content_eq_nil.mpr le)
  have order := content_eq_nil.mp emptied
  rcases apply_cases move with rfl | ⟨rfl, _⟩ | ⟨job, rfl, _⟩ |
    ⟨allow, job, rfl, _, slot, take, rfl⟩ | ⟨rfl, job, _, slot, take, rfl⟩
  · exact absurd emptied jobs
  · simp at pop
  · simp at pop
  · by_cases one : d.mFront + 1 = d.mBack
    · have single := content_singleton one slot
      by_cases away : d.mFront ≠ 0
      · simp [LastTaken, one, away]
      · rw [if_neg fun both => away both.2]
        constructor
        · rintro ⟨zero, _⟩
          cases zero
        · intro last
          exact absurd (last job single take) away
    · rw [if_neg fun both => one both.1] at order
      dsimp only at order
      omega
  · dsimp only at order
    have front : d.mBack - 1 = d.mFront := by omega
    have one : d.mFront + 1 = d.mBack := by omega
    rw [front] at slot
    have single := content_singleton one slot
    simp [LastTaken, single, take, front]

/-- A frame in which the owner takes one job and a thief the other: two slots are
used, and the next frame starts one slot further up. -/
theorem drift {can : J → Bool} {job other : J} (executable : can other = true)
    (order : d.mFront = d.mBack) (room : d.mBack + 2 ≤ AMOUNT) :
    ∃ e, (machine J).run [(.pushBack job, can), (.pushBack other, can), (.popFront true, can),
      (.popBack, can)] d = some e ∧ e.mFront = d.mFront + 1 ∧ e.mBack = d.mBack + 1 := by
  obtain ⟨entries, front, back⟩ := d
  dsimp only at order room
  subst order
  have first : front < AMOUNT := by omega
  have second : front + 1 < AMOUNT := by omega
  have inside : front < front + 1 + 1 := by omega
  refine ⟨⟨Function.update (Function.update entries front (some job)) (front + 1) (some other),
    front + 1, front + 1⟩, ?_, rfl, rfl⟩
  simp [Machine.exec, machine, apply, pushBack, write, popFront, popBack, LocklessDeque.read,
    first, second, inside, executable, Except.map, bind, Except.bind, pure, Except.pure]

/-- The deque is empty after each of `k` such frames, with `k` slots gone. -/
theorem drifted (job other : J) {k : Nat} (room : k < AMOUNT) :
    ∃ d, (machine J).Reachable d ∧ d.content = [] ∧ d.mFront = k ∧ d.mBack = k := by
  induction k with
  | zero => exact ⟨.empty, .start, rfl, rfl, rfl⟩
  | succ k ih =>
    obtain ⟨d, reached, _, front, back⟩ := ih (Nat.lt_of_succ_lt room)
    obtain ⟨e, run, front', back'⟩ :=
      @drift J d (fun _ => true) job other rfl (front.trans back.symm) (by omega)
    refine ⟨e, Machine.exec_reach reached run, content_eq_nil.mpr ?_, ?_, ?_⟩ <;> omega

/-- As long as the last job of the deque always goes to such a pop, an empty
deque has 0 in both indices and takes `AMOUNT` jobs again. -/
theorem boundaries_reset (h : (machine J).Reach LastTaken d) (emptied : d.content = []) :
    (d.mFront = 0 ∧ d.mBack = 0) ∧ ∀ jobs : List J, jobs.length ≤ AMOUNT →
      ∃ e, jobs.foldlM pushBack d = .ok e ∧ e.Holds jobs ∧ e.mFront = 0 := by
  obtain ⟨order, zero⟩ := reach_reset h
  have same : d.mFront = d.mBack := Nat.le_antisymm order (content_eq_nil.mp emptied)
  have front := zero same
  have back : d.mBack = 0 := same.symm.trans front
  refine ⟨⟨front, back⟩, ?_⟩
  intro jobs fits
  have holds : d.Holds [] :=
    ⟨by simp [same], by omega, fun _ inside => absurd inside (Nat.not_lt_zero _)⟩
  have filled := foldlM_pushBack jobs holds
  rw [if_pos (by omega)] at filled
  obtain ⟨e, eq, holds, back'⟩ := filled
  refine ⟨e, eq, holds, ?_⟩
  have := holds.back
  simp only [List.nil_append] at this
  omega

/-- Two jobs taken from the front, the second from slot 1. -/
theorem boundaries_reset_two : ∃ d : LocklessDeque Nat,
    (machine Nat).Reach LastTaken d ∧ d.mFront = 0 ∧ d.mBack = 0 := by
  have next (a : DequeOp Nat × (Nat → Bool)) {d e : LocklessDeque Nat}
      (h : (machine Nat).Reach LastTaken d) (last : LastTaken d a)
      (move : (machine Nat).step a d = some e) : (machine Nat).Reach LastTaken e :=
    .next h last move
  have pushed := next (.pushBack 1, fun _ => true) .start trivial rfl
  have pushed := next (.pushBack 2, fun _ => true) pushed trivial rfl
  have popped := next (.popFront false, fun _ => true) pushed (by rintro _ ⟨⟩) rfl
  have popped := next (.popFront false, fun _ => true) popped (by rintro _ _ _ ⟨⟩) rfl
  exact ⟨_, popped, (boundaries_reset popped rfl).1⟩

/-- A job pushed to a fresh deque and taken from its front: the deque is empty,
and both indices are 1. -/
theorem boundaries_kept : ∃ d e : LocklessDeque Nat, (machine Nat).Reachable d ∧
    (machine Nat).step (.popFront false, fun _ => true) d = some e ∧
    d.content = [some 7] ∧ e.content = [] ∧ e.mFront = 1 ∧ e.mBack = 1 :=
  ⟨_, _, Machine.exec_start [(.pushBack 7, fun _ => true)] rfl, rfl, rfl, rfl, rfl, rfl⟩

end Boundaries
end JobStealer
