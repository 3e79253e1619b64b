import JobStealer.LockingDeque
import Mathlib.Logic.Function.Basic

/-!
# The deque on a fixed array

`LocklessDeque` used one operation at a time: no other thread moves an index
inside an operation, so every `compare_exchange_strong` succeeds. An access to
`mEntries` outside `[0, AMOUNT)`, or to a slot never written, is a `Fault`.

The same contents have many representations: the slots outside `mFront..mBack-1`
are never cleared, and emptying the deque moves the indices back to 0 at one end
only. `Holds` is all that matters of them, and `same_answers` says that the two
deques cannot be told apart while there is room.
-/

namespace JobStealer

def AMOUNT : Nat := 16

inductive Fault
  | outOfBounds (i : Nat)
  | uninitialised (i : Nat)
  deriving DecidableEq

/-- `mEntries i = none` is a slot not written since `malloc`. -/
structure LocklessDeque (J : Type) where
  mEntries : Nat → Option J
  mFront : Nat
  mBack : Nat

namespace LocklessDeque
variable {J : Type}

def empty : LocklessDeque J := ⟨fun _ => none, 0, 0⟩

def read (d : LocklessDeque J) (i : Nat) : Except Fault J :=
  if i < AMOUNT then
    match d.mEntries i with
    | some job => .ok job
    | none => .error (.uninitialised i)
  else .error (.outOfBounds i)

def write (d : LocklessDeque J) (i : Nat) (job : J) : Except Fault (LocklessDeque J) :=
  if i < AMOUNT then .ok { d with mEntries := Function.update d.mEntries i (some job) }
  else .error (.outOfBounds i)

def size (d : LocklessDeque J) : Nat := if d.mBack ≤ d.mFront then 0 else d.mBack - d.mFront

/-- The loop of `HasExecutableJobs`, with `k` slots from `i` on still to look at. -/
def scan (can : J → Bool) (d : LocklessDeque J) : Nat → Nat → Except Fault Bool
  | 0, _ => .ok false
  | k + 1, i => do
    let job ← d.read i
    if can job then return true else scan can d k (i + 1)

def hasExecutableJobs (can : J → Bool) (d : LocklessDeque J) : Except Fault Bool :=
  if d.mFront < d.mBack then scan can d (d.mBack - d.mFront) d.mFront else .ok false

def clear (d : LocklessDeque J) : LocklessDeque J := { d with mBack := 0, mFront := 0 }

def pushBack (d : LocklessDeque J) (job : J) : Except Fault (LocklessDeque J) :=
  { d with mBack := d.mBack + 1 }.write d.mBack job

def popFront (can : J → Bool) (allowOpenDependencies : Bool) (d : LocklessDeque J) :
    Except Fault (Option J × LocklessDeque J) :=
  if d.mFront < d.mBack ∧ d.mBack > 0 then do
    let job ← d.read d.mFront
    if allowOpenDependencies || can job then
      if d.mFront + 1 = d.mBack ∧ d.mFront ≠ 0 then
        return (some job, { d with mBack := 0, mFront := 0 })
      return (some job, { d with mFront := d.mFront + 1 })
    return (none, d)
  else return (none, d)

def popBack (can : J → Bool) (d : LocklessDeque J) : Except Fault (Option J × LocklessDeque J) :=
  if d.mFront < d.mBack ∧ d.mBack > 0 then do
    let job ← d.read (d.mBack - 1)
    if !can job then return (none, d)
    return (some job, { d with mBack := d.mBack - 1 })
  else return (none, d)

/-- The slots `mFront..mBack-1`, in order. -/
def content (d : LocklessDeque J) : List (Option J) :=
  (List.range' d.mFront (d.mBack - d.mFront)).map d.mEntries

theorem read_ok {d : LocklessDeque J} {i : Nat} {job : J} (h : d.read i = .ok job) :
    d.mEntries i = some job := by
  unfold read at h
  split at h
  · split at h
    · rename_i slot
      cases h
      exact slot
    · cases h
  · cases h

/-! What an operation that comes to its end has done. -/

theorem pushBack_eq {d e : LocklessDeque J} {job : J} (h : d.pushBack job = .ok e) :
    d.mBack < AMOUNT ∧
      e = { d with mEntries := Function.update d.mEntries d.mBack (some job)
                   mBack := d.mBack + 1 } := by
  unfold pushBack write at h
  split at h
  · rename_i room
    cases h
    exact ⟨room, rfl⟩
  · cases h

theorem popFront_cases {can : J → Bool} {allow : Bool} {d e : LocklessDeque J} {job : Option J}
    (h : d.popFront can allow = .ok (job, e)) : (job = none ∧ e = d) ∨
      ∃ j, job = some j ∧ d.mFront < d.mBack ∧ d.mEntries d.mFront = some j ∧
        (allow || can j) = true ∧
        e = if d.mFront + 1 = d.mBack ∧ d.mFront ≠ 0 then { d with mBack := 0, mFront := 0 }
          else { d with mFront := d.mFront + 1 } := by
  unfold popFront at h
  split at h
  · rename_i inside
    cases slot : d.read d.mFront with
    | error fault =>
      rw [slot] at h
      cases h
    | ok j =>
      have entry := read_ok slot
      simp only [slot, bind, Except.bind, pure, Except.pure] at h
      split at h
      · rename_i take
        right
        split at h <;> rename_i last <;> cases h
        · exact ⟨j, rfl, inside.1, entry, take, by rw [if_pos last]⟩
        · exact ⟨j, rfl, inside.1, entry, take, by rw [if_neg last]⟩
      · cases h
        exact .inl ⟨rfl, rfl⟩
  · cases h
    exact .inl ⟨rfl, rfl⟩

theorem popBack_cases {can : J → Bool} {d e : LocklessDeque J} {job : Option J}
    (h : d.popBack can = .ok (job, e)) : (job = none ∧ e = d) ∨
      ∃ j, job = some j ∧ d.mFront < d.mBack ∧ d.mEntries (d.mBack - 1) = some j ∧
        can j = true ∧ e = { d with mBack := d.mBack - 1 } := by
  unfold popBack at h
  split at h
  · rename_i inside
    cases slot : d.read (d.mBack - 1) with
    | error fault =>
      rw [slot] at h
      cases h
    | ok j =>
      have entry := read_ok slot
      simp only [slot, bind, Except.bind, pure, Except.pure] at h
      split at h
      · cases h
        exact .inl ⟨rfl, rfl⟩
      · rename_i take
        cases h
        exact .inr ⟨j, rfl, inside.1, entry, by simpa using take, rfl⟩
  · cases h
    exact .inl ⟨rfl, rfl⟩

@[simp] theorem content_length (d : LocklessDeque J) : d.content.length = d.mBack - d.mFront := by
  simp [content]

theorem content_eq_nil {d : LocklessDeque J} : d.content = [] ↔ d.mBack ≤ d.mFront := by
  rw [← List.length_eq_zero_iff, content_length, Nat.sub_eq_zero_iff_le]

/-! ## What the deque holds -/

/-- The indices delimit `jobs` in the array. -/
structure Holds (d : LocklessDeque J) (jobs : List J) : Prop where
  back : d.mBack = d.mFront + jobs.length
  room : d.mBack ≤ AMOUNT
  slot : ∀ i (h : i < jobs.length), d.mEntries (d.mFront + i) = some jobs[i]

theorem empty_holds : (empty : LocklessDeque J).Holds [] :=
  ⟨rfl, Nat.zero_le _, fun _ h => absurd h (Nat.not_lt_zero _)⟩

namespace Holds
variable {d : LocklessDeque J} {jobs : List J}

theorem content (h : d.Holds jobs) : d.content = jobs.map some := by
  apply List.ext_getElem (by simp [LocklessDeque.content, h.back])
  intro i hi _
  have hi : i < jobs.length := by simpa [LocklessDeque.content, h.back] using hi
  simp [LocklessDeque.content, h.slot i hi]

theorem read (h : d.Holds jobs) {i : Nat} (hi : i < jobs.length) :
    d.read (d.mFront + i) = .ok jobs[i] := by
  have := h.back
  have := h.room
  rw [LocklessDeque.read, if_pos (by omega), h.slot i hi]

theorem size (h : d.Holds jobs) : d.size = jobs.length := by
  have := h.back
  unfold LocklessDeque.size
  split <;> omega

theorem clear (d : LocklessDeque J) : d.clear.Holds [] :=
  ⟨rfl, Nat.zero_le _, fun _ h => absurd h (Nat.not_lt_zero _)⟩

theorem scan (h : d.Holds jobs) (can : J → Bool) {k i : Nat} (hk : i + k = jobs.length) :
    LocklessDeque.scan can d k (d.mFront + i) = .ok ((jobs.drop i).any can) := by
  induction k generalizing i with
  | zero =>
    rw [LocklessDeque.scan, List.drop_eq_nil_of_le (by omega), List.any_nil]
  | succ k ih =>
    have hi : i < jobs.length := by omega
    rw [LocklessDeque.scan, h.read hi, List.drop_eq_getElem_cons hi, List.any_cons]
    cases hc : can jobs[i] with
    | true => simp [hc, bind, Except.bind, pure, Except.pure]
    | false =>
      have := ih (i := i + 1) (by omega)
      simpa [hc, bind, Except.bind, Nat.add_assoc] using this

theorem hasExecutableJobs (h : d.Holds jobs) (can : J → Bool) :
    d.hasExecutableJobs can = .ok (jobs.any can) := by
  have := h.back
  unfold LocklessDeque.hasExecutableJobs
  split
  · have := h.scan can (k := d.mBack - d.mFront) (i := 0) (by omega)
    simpa using this
  · have : jobs = [] := List.eq_nil_of_length_eq_zero (by omega)
    simp [this]

theorem pushBack (h : d.Holds jobs) (room : d.mBack < AMOUNT) (job : J) :
    ∃ e, d.pushBack job = .ok e ∧ e.Holds (jobs ++ [job]) ∧ e.mBack = d.mBack + 1 := by
  have back := h.back
  refine ⟨_, by rw [LocklessDeque.pushBack, write, if_pos room],
    ⟨?_, Nat.succ_le_of_lt room, fun i hi => ?_⟩, rfl⟩
  · simp [back, Nat.add_assoc]
  · by_cases old : i < jobs.length
    · have apart : d.mFront + i ≠ d.mBack := by omega
      simp [Function.update_of_ne apart, h.slot i old, List.getElem_append_left old]
    · have eq : i = jobs.length := by simp at hi; omega
      subst eq
      simp [back]

/-- A full array: the write lands behind its end. -/
theorem pushBack_full (d : LocklessDeque J) (full : d.mBack = AMOUNT) (job : J) :
    d.pushBack job = .error (.outOfBounds AMOUNT) := by
  rw [LocklessDeque.pushBack, write, full, if_neg (Nat.lt_irrefl _)]

theorem popFront (h : d.Holds jobs) (can : J → Bool) (allow : Bool) :
    ∃ e, d.popFront can allow =
        .ok ((Deque.takeFront (fun j => allow || can j) jobs).1, e) ∧
      e.Holds (Deque.takeFront (fun j => allow || can j) jobs).2 := by
  have back := h.back
  unfold LocklessDeque.popFront
  cases jobs with
  | nil =>
    have : ¬ (d.mFront < d.mBack ∧ d.mBack > 0) := by simp at back; omega
    exact ⟨d, by rw [if_neg this]; rfl, h⟩
  | cons job rest =>
    have hlt : d.mFront < d.mBack ∧ d.mBack > 0 := by simp at back; omega
    have front : d.read d.mFront = .ok job := h.read (i := 0) (by simp)
    rw [if_pos hlt, front]
    by_cases take : (allow || can job) = true
    · have taken : Deque.takeFront (fun j => allow || can j) (job :: rest) = (some job, rest) :=
        Deque.takeFront_cons_of_pos take
      rw [taken]
      by_cases last : d.mFront + 1 = d.mBack ∧ d.mFront ≠ 0
      · refine ⟨{ d with mBack := 0, mFront := 0 }, ?_, ?_⟩
        · simp [bind, Except.bind, take, last]
          rfl
        · have : rest = [] := List.eq_nil_of_length_eq_zero (by simp at back; omega)
          subst this
          exact ⟨rfl, Nat.zero_le _, fun _ h => absurd h (Nat.not_lt_zero _)⟩
      · refine ⟨{ d with mFront := d.mFront + 1 }, by simp [bind, Except.bind, take, last]; rfl, ?_⟩
        refine ⟨by simp at back ⊢; omega, h.room, fun i hi => ?_⟩
        have := h.slot (i + 1) (by simpa using hi)
        simpa [Nat.add_assoc, Nat.add_comm 1 i] using this
    · have refuse : (allow || can job) = false := by simpa using take
      have kept : Deque.takeFront (fun j => allow || can j) (job :: rest) = (none, job :: rest) :=
        Deque.takeFront_cons_of_neg refuse
      rw [kept]
      exact ⟨d, by simp [bind, Except.bind, refuse]; rfl, h⟩

theorem popBack (h : d.Holds jobs) (can : J → Bool) :
    ∃ e, d.popBack can = .ok ((Deque.takeBack can jobs).1, e) ∧
      e.Holds (Deque.takeBack can jobs).2 := by
  have back := h.back
  unfold LocklessDeque.popBack
  rcases List.eq_nil_or_concat jobs with rfl | ⟨rest, job, rfl⟩
  · have : ¬ (d.mFront < d.mBack ∧ d.mBack > 0) := by simp at back; omega
    exact ⟨d, by rw [if_neg this]; rfl, h⟩
  · rw [List.concat_eq_append] at h back ⊢
    have hlt : d.mFront < d.mBack ∧ d.mBack > 0 := by simp at back; omega
    have last : d.read (d.mBack - 1) = .ok job := by
      have := h.read (i := rest.length) (by simp)
      rw [show d.mBack - 1 = d.mFront + rest.length by simp at back; omega, this]
      simp
    rw [if_pos hlt, last, Deque.takeBack_append_singleton]
    cases hc : can job with
    | true =>
      refine ⟨{ d with mBack := d.mBack - 1 }, by simp [bind, Except.bind, hc]; rfl, ?_⟩
      have room := h.room
      refine ⟨by simp at back ⊢; omega, by simp; omega, fun i hi => ?_⟩
      have hi : i < rest.length := hi
      have := h.slot i (by simp; omega)
      simpa [List.getElem_append_left hi] using this
    | false => exact ⟨d, by simp [bind, Except.bind, hc]; rfl, h⟩

end Holds
end LocklessDeque
/-! ## One operation at a time on both deques -/

section Equivalence
variable {J : Type}

inductive DequeOp (J : Type)
  | pushBack (job : J)
  | popFront (allowOpenDependencies : Bool)
  | popBack
  | hasExecutableJobs
  | size
  | clear

/-- What a call returns; `done` for the ones returning nothing. -/
inductive DequeAnswer (J : Type)
  | done
  | job (job : Option J)
  | yes (answer : Bool)
  | count (size : Nat)
  deriving DecidableEq

def LockingDeque.apply (can : J → Bool) (d : LockingDeque J) :
    DequeOp J → DequeAnswer J × LockingDeque J
  | .pushBack job => (.done, d.pushBack job)
  | .popFront allow => (.job (d.popFront can allow).1, (d.popFront can allow).2)
  | .popBack => (.job (d.popBack can).1, (d.popBack can).2)
  | .hasExecutableJobs => (.yes (d.hasExecutableJobs can), d)
  | .size => (.count d.size, d)
  | .clear => (.done, d.clear)

def LocklessDeque.apply (can : J → Bool) (d : LocklessDeque J) :
    DequeOp J → Except Fault (DequeAnswer J × LocklessDeque J)
  | .pushBack job => (d.pushBack job).map fun e => (.done, e)
  | .popFront allow => (d.popFront can allow).map fun r => (.job r.1, r.2)
  | .popBack => (d.popBack can).map fun r => (.job r.1, r.2)
  | .hasExecutableJobs => (d.hasExecutableJobs can).map fun b => (.yes b, d)
  | .size => .ok (.count d.size, d)
  | .clear => .ok (.done, d.clear)

/-- All an operation that comes to its end can have done. -/
theorem LocklessDeque.apply_cases {can : J → Bool} {op : DequeOp J} {d e : LocklessDeque J}
    {answer : DequeAnswer J} (h : d.apply can op = .ok (answer, e)) :
    e = d ∨ (op = .clear ∧ e = d.clear) ∨
    (∃ job, op = .pushBack job ∧ d.mBack < AMOUNT ∧
      e = { d with mEntries := Function.update d.mEntries d.mBack (some job)
                   mBack := d.mBack + 1 }) ∨
    (∃ allow j, op = .popFront allow ∧ d.mFront < d.mBack ∧ d.mEntries d.mFront = some j ∧
      (allow || can j) = true ∧
      e = if d.mFront + 1 = d.mBack ∧ d.mFront ≠ 0 then { d with mBack := 0, mFront := 0 }
        else { d with mFront := d.mFront + 1 }) ∨
    (op = .popBack ∧ ∃ j, d.mFront < d.mBack ∧ d.mEntries (d.mBack - 1) = some j ∧
      can j = true ∧ e = { d with mBack := d.mBack - 1 }) := by
  cases op with
  | pushBack job =>
    simp only [apply] at h
    cases pushed : d.pushBack job with
    | error fault =>
      rw [pushed] at h
      cases h
    | ok d' =>
      rw [pushed] at h
      cases h
      obtain ⟨room, eq⟩ := pushBack_eq pushed
      exact .inr (.inr (.inl ⟨job, rfl, room, eq⟩))
  | popFront allow =>
    simp only [apply] at h
    cases popped : d.popFront can allow with
    | error fault =>
      rw [popped] at h
      cases h
    | ok r =>
      rw [popped] at h
      cases h
      cases popFront_cases popped with
      | inl kept => exact .inl kept.2
      | inr taken =>
        obtain ⟨j, _, inside, slot, take, eq⟩ := taken
        exact .inr (.inr (.inr (.inl ⟨allow, j, rfl, inside, slot, take, eq⟩)))
  | popBack =>
    simp only [apply] at h
    cases popped : d.popBack can with
    | error fault =>
      rw [popped] at h
      cases h
    | ok r =>
      rw [popped] at h
      cases h
      cases popBack_cases popped with
      | inl kept => exact .inl kept.2
      | inr taken =>
        obtain ⟨j, _, inside, slot, take, eq⟩ := taken
        exact .inr (.inr (.inr (.inr ⟨rfl, j, inside, slot, take, eq⟩)))
  | hasExecutableJobs =>
    simp only [apply] at h
    cases asked : d.hasExecutableJobs can with
    | error fault =>
      rw [asked] at h
      cases h
    | ok b =>
      rw [asked] at h
      cases h
      exact .inl rfl
  | size =>
    cases h
    exact .inl rfl
  | clear =>
    cases h
    exact .inr (.inl ⟨rfl, rfl⟩)

/-- Operations in order, each with the answers `CanExecute` gives during it. -/
abbrev DequeHistory (J : Type) := List (DequeOp J × (J → Bool))

def LockingDeque.run : DequeHistory J → LockingDeque J → List (DequeAnswer J) × LockingDeque J
  | [], d => ([], d)
  | (op, can) :: rest, d =>
    let (answer, e) := d.apply can op
    let (answers, last) := run rest e
    (answer :: answers, last)

def LocklessDeque.run :
    DequeHistory J → LocklessDeque J → Except Fault (List (DequeAnswer J) × LocklessDeque J)
  | [], d => .ok ([], d)
  | (op, can) :: rest, d => do
    let (answer, e) ← d.apply can op
    let (answers, last) ← run rest e
    return (answer :: answers, last)

/-- No `PushBack` is issued while `mBack` equals `AMOUNT`. -/
def LocklessDeque.hasRoom : DequeHistory J → LocklessDeque J → Bool
  | [], _ => true
  | (op, can) :: rest, d =>
    (match op with
      | .pushBack _ => d.mBack != AMOUNT
      | _ => true) &&
    match d.apply can op with
    | .ok (_, e) => hasRoom rest e
    | .error _ => true

/-- One operation answers the same on both and leaves them holding the same. -/
theorem apply_same {d : LocklessDeque J} {e : LockingDeque J} (h : d.Holds e.mJobDeque)
    (can : J → Bool) (op : DequeOp J) (room : ∀ job, op = .pushBack job → d.mBack ≠ AMOUNT) :
    ∃ d', d.apply can op = .ok ((e.apply can op).1, d') ∧
      d'.Holds (e.apply can op).2.mJobDeque := by
  cases op with
  | pushBack job =>
    have := h.room
    have := room job rfl
    obtain ⟨d', eq, holds, _⟩ := h.pushBack (by omega) job
    exact ⟨d', by rw [LocklessDeque.apply, eq]; rfl, holds⟩
  | popFront allow =>
    obtain ⟨d', eq, holds⟩ := h.popFront can allow
    rw [← LockingDeque.popFront_eq] at eq holds
    exact ⟨d', by rw [LocklessDeque.apply, eq]; rfl, holds⟩
  | popBack =>
    obtain ⟨d', eq, holds⟩ := h.popBack can
    rw [← LockingDeque.popBack_eq] at eq holds
    exact ⟨d', by rw [LocklessDeque.apply, eq]; rfl, holds⟩
  | hasExecutableJobs =>
    refine ⟨d, ?_, h⟩
    rw [LocklessDeque.apply, h.hasExecutableJobs, ← LockingDeque.hasExecutableJobs_eq]
    rfl
  | size => exact ⟨d, by rw [LocklessDeque.apply, h.size, ← LockingDeque.size_eq]; rfl, h⟩
  | clear =>
    exact ⟨d.clear, rfl, by simpa [LockingDeque.apply] using LocklessDeque.Holds.clear d⟩

theorem run_same (history : DequeHistory J) {d : LocklessDeque J} {e : LockingDeque J}
    (h : d.Holds e.mJobDeque) (room : d.hasRoom history = true) :
    ∃ d', d.run history = .ok ((e.run history).1, d') ∧ d'.Holds (e.run history).2.mJobDeque := by
  induction history generalizing d e with
  | nil => exact ⟨d, rfl, h⟩
  | cons head rest ih =>
    obtain ⟨op, can⟩ := head
    simp only [LocklessDeque.hasRoom, Bool.and_eq_true] at room
    have here : ∀ job, op = .pushBack job → d.mBack ≠ AMOUNT := by
      rintro job rfl
      simpa using room.1
    obtain ⟨d', eq, holds⟩ := apply_same h can op here
    rw [eq] at room
    obtain ⟨last, eq', holds'⟩ := ih holds room.2
    exact ⟨last, by rw [LocklessDeque.run, eq]; simp [bind, Except.bind, eq']; rfl, holds'⟩

/-- `LocklessDeque` and `LockingDeque` answer every sequence of operations the
same, as long as none of them pushes onto a full array. -/
theorem same_answers (history : DequeHistory J)
    (room : LocklessDeque.empty.hasRoom history = true) :
    ∃ answers d e, LocklessDeque.empty.run history = .ok (answers, d) ∧
      LockingDeque.empty.run history = (answers, e) ∧
      d.mFront ≤ d.mBack ∧ d.mBack ≤ AMOUNT ∧ d.content = e.mJobDeque.map some ∧
      e.mSize = e.mJobDeque.length := by
  have start : (LocklessDeque.empty : LocklessDeque J).Holds
      (LockingDeque.empty : LockingDeque J).mJobDeque := LocklessDeque.empty_holds
  obtain ⟨d, eq, holds⟩ := run_same history start room
  have := holds.back
  exact ⟨_, d, _, eq, rfl, by omega, holds.room, holds.content, LockingDeque.sized _⟩

/-- Two jobs; the second becomes executable only after the first was moved out,
and its pop at index 1 resets the boundaries. -/
def resetHistory : DequeHistory Nat :=
  [(.pushBack 1, fun _ => false), (.pushBack 2, fun _ => false), (.popFront true, fun _ => false),
    (.popBack, fun _ => false), (.hasExecutableJobs, fun j => j == 2),
    (.popFront false, fun j => j == 2), (.pushBack 3, fun _ => true), (.size, fun _ => true),
    (.popBack, fun _ => true), (.clear, fun _ => true)]

theorem same_answers_reset : ∃ answers d e,
    LocklessDeque.empty.run resetHistory = .ok (answers, d) ∧
      LockingDeque.empty.run resetHistory = (answers, e) ∧
      d.mFront ≤ d.mBack ∧ d.mBack ≤ AMOUNT ∧ d.content = e.mJobDeque.map some ∧
      e.mSize = e.mJobDeque.length :=
  same_answers resetHistory (by decide)

end Equivalence

end JobStealer
