import JobStealer.Boundaries

/-!
# `Size()` beside operations that hold the mutex

With `HTL_EXTRA_LOCKS` the pushes, the pops and `HasExecutableJobs` hold
`mJobDequeMutex` from start to end, so each is one step. `Size` takes no lock:
its loads of `mBack` and of `mFront` are steps of their own, and any number of
operations can lie between them.

The difference of an old `mBack` and a new `mFront` need not be a length the
deque ever had. `size_between` says when it lies between the lengths at the two
loads; as an operation changes the length by one at most, it was the length at
some moment then (`size_snapshot`).
-/

namespace JobStealer
open Interleaving

/-- The operations that take `mJobDequeMutex`. -/
def DequeOp.locked {J : Type} : DequeOp J → Bool
  | .pushBack _ | .popFront _ | .popBack | .hasExecutableJobs => true
  | .size | .clear => false

namespace Snapshot

/-- Where a call of `Size` stands. -/
inductive SizePc
  | idle
  | loadFront (back : Nat)
  | returned (size : Nat)
  deriving DecidableEq

/-- The last two are no part of the program: `mFront` at the load of `mBack`, and
the numbers of jobs in the deque since, the latest first. -/
structure State (J : Type) where
  deque : LocklessDeque J
  size : SizePc
  frontThen : Nat
  lengths : List Nat

inductive Action (J : Type)
  | operation (op : DequeOp J) (can : J → Bool)
  | loadBack
  | loadFront

variable {J : Type}

/-- The deque after an operation of another thread. -/
def State.become (s : State J) (d : LocklessDeque J) : State J :=
  { s with
    deque := d
    lengths := match s.size with
      | .loadFront _ => d.content.length :: s.lengths
      | _ => s.lengths }

def step : Action J → State J → Option (State J)
  | .operation op can, s =>
    if op.locked then ((LocklessDeque.machine J).step (op, can) s.deque).map s.become else none
  | .loadBack, s =>
    match s.size with
    | .loadFront _ => none
    | _ => some ⟨s.deque, .loadFront s.deque.mBack, s.deque.mFront, [s.deque.content.length]⟩
  | .loadFront, s =>
    match s.size with
    | .loadFront back =>
      some { s with size := .returned (if back ≤ s.deque.mFront then 0 else back - s.deque.mFront) }
    | _ => none

variable (J) in
def machine : Machine (State J) (Action J) where
  start := ⟨.empty, .idle, 0, []⟩
  step := step

/-- Nobody in between: the two loads are the function `LocklessDeque.size`. -/
theorem size_alone {s : State J} (idle : ∀ back, s.size ≠ .loadFront back) :
    ∃ t, (machine J).run [.loadBack, .loadFront] s = some t ∧ t.deque = s.deque ∧
      t.size = .returned s.deque.size := by
  obtain ⟨d, size, front, lengths⟩ := s
  cases size with
  | loadFront back => exact absurd rfl (idle back)
  | idle | returned n => exact ⟨_, rfl, rfl, rfl⟩

/-- Since the load of `mBack` the indices have not both risen, except from or to
an empty deque, and have not both fallen. -/
def Steady (s : State J) : Action J → Prop
  | .loadFront => ∀ back, s.size = .loadFront back →
    ¬ (back < s.deque.mBack ∧ s.frontThen < s.deque.mFront ∧
      s.frontThen < back ∧ s.deque.mFront < s.deque.mBack) ∧
    ¬ (s.deque.mBack < back ∧ s.deque.mFront < s.frontThen)
  | _ => True

/-- `v` lies between two lengths. -/
def Between (a b v : Nat) : Prop := (a ≤ v ∧ v ≤ b) ∨ (b ≤ v ∧ v ≤ a)

/-- What `Size` returns lies between the lengths at its two loads exactly when
the indices moved so. -/
theorem size_between {back front mBack mFront : Nat} (before : front ≤ back)
    (now : mFront ≤ mBack) :
    Between (back - front) (mBack - mFront) (if back ≤ mFront then 0 else back - mFront) ↔
      ¬ (back < mBack ∧ front < mFront ∧ front < back ∧ mFront < mBack) ∧
        ¬ (mBack < back ∧ mFront < front) := by
  unfold Between
  split <;> omega

/-- An operation moves the length of the deque by one at most. -/
theorem operation_length {d e : LocklessDeque J} {op : DequeOp J} {can : J → Bool}
    (locked : op.locked = true) (order : d.mFront ≤ d.mBack)
    (move : (LocklessDeque.machine J).step (op, can) d = some e) :
    e.mFront ≤ e.mBack ∧ e.content.length ≤ d.content.length + 1 ∧
      d.content.length ≤ e.content.length + 1 := by
  obtain ⟨answer, move⟩ := Boundaries.step_apply move
  simp only [LocklessDeque.content_length]
  rcases LocklessDeque.apply_cases move with rfl | ⟨rfl, _⟩ | ⟨job, _, _, rfl⟩ |
    ⟨allow, job, _, inside, _, _, rfl⟩ | ⟨_, job, inside, _, _, rfl⟩
  · omega
  · cases locked
  · dsimp only
    omega
  · split <;> dsimp only <;> omega
  · dsimp only
    omega

/-- Whatever lies between the length at the first load and the length now was
the length of the deque in between. -/
def Passed (s : State J) : Prop :=
  match s.size with
  | .idle => True
  | .loadFront back => s.frontThen ≤ back ∧
    ∀ v, Between (back - s.frontThen) s.deque.content.length v → v ∈ s.lengths
  | .returned v => v ∈ s.lengths

theorem step_passed {s t : State J} {a : Action J} (order : s.deque.mFront ≤ s.deque.mBack)
    (h : Passed s) (steady : Steady s a) (move : step a s = some t) :
    t.deque.mFront ≤ t.deque.mBack ∧ Passed t := by
  cases a with
  | operation op can =>
    simp only [step, Option.ite_none_right_eq_some, Option.map_eq_some_iff] at move
    obtain ⟨locked, d, move, rfl⟩ := move
    obtain ⟨order', more, less⟩ := operation_length locked order move
    refine ⟨order', ?_⟩
    unfold Passed State.become at *
    cases hs : s.size with
    | idle => trivial
    | returned v =>
      simp only [hs] at h ⊢
      exact h
    | loadFront back =>
      simp only [hs] at h ⊢
      refine ⟨h.1, ?_⟩
      intro v between
      by_cases now : v = d.content.length
      · exact now ▸ List.mem_cons_self ..
      · apply List.mem_cons_of_mem
        apply h.2
        unfold Between at *
        omega
  | loadBack =>
    simp only [step] at move
    split at move
    · cases move
    · cases move
      refine ⟨order, order, ?_⟩
      intro v between
      have eq := s.deque.content_length
      unfold Between at between
      dsimp only at between
      have : v = s.deque.content.length := by omega
      exact this ▸ List.mem_singleton_self _
  | loadFront =>
    simp only [step] at move
    split at move
    · rename_i back loaded
      cases move
      simp only [Passed, loaded] at h ⊢
      refine ⟨order, h.2 _ ?_⟩
      rw [LocklessDeque.content_length]
      exact (size_between h.1 order).mpr (steady back loaded)
    · cases move

theorem reach_passed {s : State J} (h : (machine J).Reach Steady s) :
    s.deque.mFront ≤ s.deque.mBack ∧ Passed s := by
  induction h with
  | start => exact ⟨Nat.le_refl _, trivial⟩
  | next run steady move ih => exact step_passed ih.1 ih.2 steady move

/-- As long as the indices move so between the two loads of every call, what
`Size` returns is a length the deque had between them. -/
theorem size_snapshot {s : State J} (h : (machine J).Reach Steady s) {v : Nat}
    (returned : s.size = .returned v) : v ∈ s.lengths := by
  have passed := (reach_passed h).2
  rwa [Passed, returned] at passed

/-- Two jobs; one is taken between the loads. -/
theorem size_snapshot_two : ∃ s : State Nat, (machine Nat).Reach Steady s ∧
    s.size = .returned 1 ∧ s.lengths = [1, 2] ∧ 1 ∈ s.lengths := by
  have next (a : Action Nat) {s t : State Nat} (h : (machine Nat).Reach Steady s)
      (steady : Steady s a) (move : (machine Nat).step a s = some t) :
      (machine Nat).Reach Steady t := .next h steady move
  have busy := next (.operation (.pushBack 1) fun _ => true) .start trivial rfl
  have busy := next (.operation (.pushBack 2) fun _ => true) busy trivial rfl
  have busy := next .loadBack busy trivial rfl
  have busy := next (.operation (.popFront false) fun _ => true) busy trivial rfl
  have done := next .loadFront busy (by rintro _ ⟨⟩; decide) rfl
  exact ⟨_, done, rfl, rfl, size_snapshot done rfl⟩

/-- Two jobs, of which the second is executable. Between the loads the owner takes
the first, pushes it back and takes the second. `Size` returns 0, but the deque
was never empty. -/
def reordered : List (Action Nat) :=
  [.operation (.pushBack 1) (· == 2), .operation (.pushBack 2) (· == 2), .loadBack,
    .operation (.popFront true) (· == 2), .operation (.pushBack 1) (· == 2),
    .operation (.popFront false) (· == 2), .loadFront]

theorem size_never : ∃ s, (machine Nat).run reordered (machine Nat).start = some s ∧
    s.size = .returned 0 ∧ s.lengths = [1, 2, 1, 2] ∧ 0 ∉ s.lengths :=
  ⟨_, rfl, rfl, rfl, by decide⟩

end Snapshot
end JobStealer
