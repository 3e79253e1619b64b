import JobStealer.LockedDeques
import JobStealer.Publication
import JobStealer.Snapshot

/-!
# The lockless deque with extra locks

`LocklessDeque` as built with `HTL_EXTRA_LOCKS`: the accesses of `DequeRaces` and
`Publication`, each a step of its own, but every operation takes `mJobDequeMutex`
first. `extra_atomic` says that it then is the deque of `LockingDeque` for any number of
threads, whatever they call, until an index leaves the array; so the double
hand-out, the lost job and the slot read too early of the build without locks
cannot happen (`serial_count`).

`Size` takes no lock and changes nothing, and `Clear` takes none either: it is not
among the operations here.
-/

namespace JobStealer
open Interleaving

variable {J : Type}

/-- The operations that take the mutex. -/
abbrev ExtraOp (J : Type) := {op : DequeOp J // op.locked = true}

inductive ExtraPc (J : Type)
  -- `PushBack`: its `fetch_add`, and the write to the slot
  | reserve (job : J)
  | write (i : Nat) (job : J)
  -- `PopFront`, with its load of `mFront` in front
  | loadFront (allowOpenDependencies : Bool)
  | popFront (pc : PopFrontPc J)
  | popBack (pc : PopBackPc J)
  | scan (pc : ScanPc J)

namespace ExtraPc

/-- The slot the next step reads. -/
def reads : ExtraPc J → Option Nat
  | .popFront pc => pc.reads
  | .popBack pc => pc.reads
  | .scan pc => pc.reads
  | _ => none

/-- Where a step of `PopFront` leads; back at `idle` the call returns. -/
def ofFront (job : Option J) : PopFrontPc J → ExtraPc J ⊕ DequeAnswer J
  | .idle => .inr (.job job)
  | pc => .inl (.popFront pc)

def ofBack (job : Option J) : PopBackPc J → ExtraPc J ⊕ DequeAnswer J
  | .idle => .inr (.job job)
  | pc => .inl (.popBack pc)

def ofScan : ScanPc J → ExtraPc J ⊕ DequeAnswer J
  | .returned b => .inr (.yes b)
  | pc => .inl (.scan pc)

end ExtraPc

namespace LocklessDeque
open ExtraPc

/-- An access outside the array is undefined, and so is the use of a slot never
written. -/
def extraStep (can : J → Bool) :
    ExtraPc J → LocklessDeque J → Option (LocklessDeque J × (ExtraPc J ⊕ DequeAnswer J))
  | .reserve job, d => some ({ d with mBack := d.mBack + 1 }, .inl (.write d.mBack job))
  | .write i job, d =>
    if i < AMOUNT then
      some ({ d with mEntries := Function.update d.mEntries i (some job) }, .inr .done)
    else none
  | .loadFront allow, d => some (d, .inl (.popFront (.loadBack allow d.mFront)))
  | .popFront pc, d => (d.stepFront can pc).map fun r => (r.1, ofFront r.2.2 r.2.1)
  | .popBack pc, d => (d.stepBack can pc).map fun r => (r.1, ofBack r.2.2 r.2.1)
  | .scan pc, d => (d.stepScan can pc).map fun pc => (d, ofScan pc)

def extraCode (J : Type) :
    Monitor.Code (LocklessDeque J) (ExtraOp J) (ExtraPc J) (DequeAnswer J) (J → Bool) where
  enter
    | ⟨.pushBack job, _⟩ => .reserve job
    | ⟨.popFront allow, _⟩ => .loadFront allow
    | ⟨.popBack, _⟩ => .popBack .idle
    | ⟨.hasExecutableJobs, _⟩ => .scan .idle
    | ⟨.size, no⟩ | ⟨.clear, no⟩ => nomatch no
  step can pc d := if ∀ i ∈ pc.reads, i < AMOUNT then extraStep can pc d else none

/-- No `PushBack` reserves a slot while `mBack` equals `AMOUNT`. -/
def Room (_ : J → Bool) : ExtraPc J → LocklessDeque J → Prop
  | .reserve _, d => d.mBack < AMOUNT
  | _, _ => True

instance (can : J → Bool) (pc : ExtraPc J) (d : LocklessDeque J) : Decidable (Room can pc d) :=
  match pc with
  | .reserve _ => inferInstanceAs (Decidable (_ < _))
  | .write _ _ | .loadFront _ | .popFront _ | .popBack _ | .scan _ => .isTrue trivial

namespace Holds
variable {d : LocklessDeque J} {jobs : List J} {job : J}

theorem write (h : d.Holds jobs) (room : d.mBack < AMOUNT) (job : J) :
    Holds { d with mBack := d.mBack + 1, mEntries := Function.update d.mEntries d.mBack (some job) }
      (jobs ++ [job]) := by
  obtain ⟨e, pushed, holds, _⟩ := h.pushBack room job
  exact (pushBack_eq pushed).2 ▸ holds

theorem tail {rest : List J} (h : d.Holds (job :: rest)) :
    Holds { d with mFront := d.mFront + 1 } rest where
  back := by
    have := h.back
    simp only [List.length_cons] at this
    dsimp only
    omega
  room := h.room
  slot i hi := by
    have := h.slot (i + 1) (by simpa using hi)
    simpa [Nat.add_assoc, Nat.add_comm 1 i] using this

theorem dropLast (h : d.Holds jobs) (filled : jobs ≠ []) :
    Holds { d with mBack := d.mBack - 1 } jobs.dropLast where
  back := by
    have := h.back
    have := List.length_pos_iff.mpr filled
    simp only [List.length_dropLast]
    omega
  room := Nat.le_trans (Nat.sub_le ..) h.room
  slot i hi := by
    have hi : i < jobs.length - 1 := by simpa using hi
    have := h.slot i (by omega)
    simpa [List.getElem_dropLast] using this

theorem head (h : d.Holds (job :: jobs)) : d.mEntries d.mFront = some job :=
  h.slot 0 (Nat.succ_pos _)

theorem last (h : d.Holds jobs) (filled : jobs ≠ []) :
    d.mEntries (d.mBack - 1) = some (jobs.getLast filled) := by
  have := h.back
  have pos := List.length_pos_iff.mpr filled
  have at_ := h.slot (jobs.length - 1) (by omega)
  rw [List.getLast_eq_getElem, ← at_]
  congr 1
  omega

end Holds
/-! ## Between two accesses -/

section
variable (op : ExtraOp J) (e : LockingDeque J) (seen : List (J → Bool))

/-- In the middle of a `PopFront` that began when the deque held what `e` holds. -/
def FrontMid : PopFrontPc J → LocklessDeque J → Prop
  | .idle, _ => False
  | .loadBack allow front, d => d.Holds e.mJobDeque ∧ front = d.mFront ∧ op.1 = .popFront allow
  | .readSlot allow front, d =>
    d.Holds e.mJobDeque ∧ front = d.mFront ∧ op.1 = .popFront allow ∧ e.mJobDeque ≠ []
  | .test allow front job, d =>
    d.Holds e.mJobDeque ∧ front = d.mFront ∧ op.1 = .popFront allow ∧
      e.mJobDeque.head? = some job
  | .exchange front job, d =>
    d.Holds e.mJobDeque ∧ front = d.mFront ∧ LockingDeque.Takes (.deque op.1) e seen .front job
  | .reloadFront front job, d =>
    Holds { d with mFront := front } e.mJobDeque ∧ d.mFront = front + 1 ∧
      LockingDeque.Takes (.deque op.1) e seen .front job
  | .reloadBack front now job, d =>
    Holds { d with mFront := front } e.mJobDeque ∧ d.mFront = front + 1 ∧ now = d.mFront ∧
      LockingDeque.Takes (.deque op.1) e seen .front job
  | .storeBack job, _ =>
    e.mJobDeque.tail = [] ∧ LockingDeque.Takes (.deque op.1) e seen .front job
  | .storeFront job, d =>
    d.mBack = 0 ∧ e.mJobDeque.tail = [] ∧ LockingDeque.Takes (.deque op.1) e seen .front job

def BackMid : PopBackPc J → LocklessDeque J → Prop
  | .idle, d => d.Holds e.mJobDeque ∧ op.1 = .popBack
  | .loadFront back, d => d.Holds e.mJobDeque ∧ back = d.mBack ∧ op.1 = .popBack
  | .readSlot back, d =>
    d.Holds e.mJobDeque ∧ back = d.mBack ∧ op.1 = .popBack ∧ e.mJobDeque ≠ []
  | .test back job, d =>
    d.Holds e.mJobDeque ∧ back = d.mBack ∧ op.1 = .popBack ∧ e.mJobDeque.getLast? = some job
  | .exchange back job, d =>
    d.Holds e.mJobDeque ∧ back = d.mBack ∧ LockingDeque.Takes (.deque op.1) e seen .back job

def ScanMid : ScanPc J → LocklessDeque J → Prop
  | .idle, d => d.Holds e.mJobDeque ∧ op.1 = .hasExecutableJobs
  | .loadFront back, d => d.Holds e.mJobDeque ∧ back = d.mBack ∧ op.1 = .hasExecutableJobs
  | .readSlot i back, d =>
    d.Holds e.mJobDeque ∧ back = d.mBack ∧ op.1 = .hasExecutableJobs ∧ ∃ k, i = d.mFront + k ∧
      k < e.mJobDeque.length ∧ Refused seen (e.mJobDeque.take k)
  | .test i back job, d =>
    d.Holds e.mJobDeque ∧ back = d.mBack ∧ op.1 = .hasExecutableJobs ∧ ∃ k, i = d.mFront + k ∧
      e.mJobDeque[k]? = some job ∧ Refused seen (e.mJobDeque.take k)
  | .returned _, _ => False

def ExtraMid : ExtraPc J → LocklessDeque J → Prop
  | .reserve job, d => d.Holds e.mJobDeque ∧ op.1 = .pushBack job
  | .write i job, d => op.1 = .pushBack job ∧ d.mBack = i + 1 ∧ i < AMOUNT ∧
    Holds { d with mBack := i } e.mJobDeque
  | .loadFront allow, d => d.Holds e.mJobDeque ∧ op.1 = .popFront allow
  | .popFront pc, d => FrontMid op e seen pc d
  | .popBack pc, d => BackMid op e seen pc d
  | .scan pc, d => ScanMid op e seen pc d

/-- Where a step leads. -/
def ExtraLeads (r : Option (LocklessDeque J × (ExtraPc J ⊕ DequeAnswer J))) : Prop :=
  ∃ d x, r = some (d, x) ∧ x.elim (fun pc => ExtraMid op e seen pc d)
    (fun answer => ∃ e', LockingDeque.Spec (.deque op.1) e seen answer e' ∧ d.Holds e'.mJobDeque)

end

section
variable {op : ExtraOp J} {e : LockingDeque J} {seen : List (J → Bool)} {can : J → Bool}
  {d : LocklessDeque J}

theorem reads_lt {pc : ExtraPc J} (h : ExtraMid op e seen pc d) : ∀ i ∈ pc.reads, i < AMOUNT := by
  intro i reads
  cases pc with
  | popFront pc =>
    cases pc with
    | readSlot allow front =>
      cases reads
      obtain ⟨holds, rfl, _, filled⟩ := h
      have := holds.back
      have := holds.room
      have := List.length_pos_iff.mpr filled
      omega
    | _ => cases reads
  | popBack pc =>
    cases pc with
    | readSlot back =>
      cases reads
      obtain ⟨holds, rfl, _, filled⟩ := h
      have := holds.back
      have := holds.room
      have := List.length_pos_iff.mpr filled
      omega
    | _ => cases reads
  | scan pc =>
    cases pc with
    | readSlot i back =>
      cases reads
      obtain ⟨holds, rfl, _, k, rfl, inside, _⟩ := h
      have := holds.back
      have := holds.room
      omega
    | _ => cases reads
  | _ => cases reads

theorem ExtraLeads.on {pc : ExtraPc J} (h : ExtraMid op e seen pc d) :
    ExtraLeads op e seen (some (d, .inl pc)) := ⟨d, _, rfl, h⟩

theorem ExtraLeads.over {answer : DequeAnswer J} {e' : LockingDeque J} (blend : Blend seen can)
    (eq : e.perform can (.deque op.1) = (answer, e')) (holds : d.Holds e'.mJobDeque) :
    ExtraLeads op e seen (some (d, .inr answer)) := ⟨d, _, rfl, e', ⟨can, blend, eq⟩, holds⟩

/-- A pop that has taken its job. -/
theorem ExtraLeads.taken {side : End} {job : J}
    (takes : LockingDeque.Takes (.deque op.1) e seen side job)
    (holds : d.Holds (side.remove e.mJobDeque)) :
    ExtraLeads op e seen (some (d, .inr (.job (some job)))) := by
  obtain ⟨_, answers, old, e', eq, left⟩ := takes
  exact .over (blend_of_mem old) eq (left ▸ holds)

theorem nil_of_bounds (holds : d.Holds e.mJobDeque) (outside : ¬ d.mFront < d.mBack) :
    e.mJobDeque = [] := by
  have := holds.back
  exact List.eq_nil_of_length_eq_zero (by omega)

theorem frontStep_leads {pc : PopFrontPc J} (h : FrontMid op e seen pc d) :
    ExtraLeads op e (can :: seen) (extraStep can (.popFront pc) d) := by
  cases pc with
  | idle => cases h
  | loadBack allow front =>
    obtain ⟨holds, rfl, calls⟩ := h
    simp only [extraStep, stepFront, Option.map_some]
    split
    · rename_i inside
      refine .on ⟨holds, rfl, calls, fun nil => ?_⟩
      have := holds.back
      simp only [nil, List.length_nil] at this
      omega
    · rename_i outside
      have nil := nil_of_bounds holds (by omega)
      have none : e.perform can (End.front.op allow) = (.job none, e) := by
        apply LockingDeque.perform_refuse (fun back => by cases back)
        intro job found
        rw [nil] at found
        cases found
      exact .over (blend_latest can) (by rw [calls]; exact none) holds
  | readSlot allow front =>
    obtain ⟨holds, rfl, calls, filled⟩ := h
    obtain ⟨job, rest, jobs⟩ := List.exists_cons_of_ne_nil filled
    have slot : d.mEntries d.mFront = some job := (jobs ▸ holds).head
    simp only [extraStep, stepFront, slot, Option.map_some]
    exact .on ⟨holds, rfl, calls, by rw [jobs]; rfl⟩
  | test allow front job =>
    obtain ⟨holds, rfl, calls, found⟩ := h
    simp only [extraStep, stepFront, Option.map_some]
    cases takes : allow || can job with
    | true =>
      obtain ⟨e', eq, left⟩ := LockingDeque.perform_take (e := .front) (d := e)
        (fun back => by cases back) found takes
      refine .on ⟨holds, rfl, found, can, List.mem_cons_self .., e', ?_, left⟩
      rw [calls]
      exact eq
    | false =>
      have none : e.perform can (End.front.op allow) = (.job none, e) := by
        apply LockingDeque.perform_refuse (fun back => by cases back)
        intro j at_
        obtain rfl : job = j := Option.some.inj (found.symm.trans at_)
        exact takes
      exact .over (blend_latest can) (by rw [calls]; exact none) holds
  | exchange front job =>
    obtain ⟨holds, rfl, takes⟩ := h
    simp only [extraStep, stepFront, if_true, Option.map_some]
    exact .on ⟨holds, rfl, takes.later can⟩
  | reloadFront front job =>
    obtain ⟨holds, moved, takes⟩ := h
    exact .on ⟨holds, moved, rfl, takes.later can⟩
  | reloadBack front now job =>
    obtain ⟨holds, moved, rfl, takes⟩ := h
    have back := holds.back
    simp only [extraStep, stepFront]
    split
    · rename_i last
      refine .on ⟨List.eq_nil_of_length_eq_zero ?_, takes.later can⟩
      rw [List.length_tail]
      dsimp only at back
      omega
    · obtain ⟨j, rest, jobs⟩ := List.exists_cons_of_ne_nil takes.ne_nil
      refine .taken (takes.later can) ?_
      have left := (jobs ▸ holds).tail
      rw [jobs]
      obtain ⟨entries, mFront, mBack⟩ := d
      obtain rfl : mFront = front + 1 := moved
      exact left
  | storeBack job =>
    obtain ⟨single, takes⟩ := h
    exact .on ⟨rfl, single, takes.later can⟩
  | storeFront job =>
    obtain ⟨zero, single, takes⟩ := h
    refine .taken (takes.later can) ?_
    change Holds { d with mFront := 0 } e.mJobDeque.tail
    rw [single]
    exact ⟨zero, by rw [zero]; exact Nat.zero_le _, fun _ h => absurd h (Nat.not_lt_zero _)⟩

theorem backStep_leads {pc : PopBackPc J} (h : BackMid op e seen pc d) :
    ExtraLeads op e (can :: seen) (extraStep can (.popBack pc) d) := by
  cases pc with
  | idle =>
    obtain ⟨holds, calls⟩ := h
    exact .on ⟨holds, rfl, calls⟩
  | loadFront back =>
    obtain ⟨holds, rfl, calls⟩ := h
    simp only [extraStep, stepBack, Option.map_some]
    split
    · rename_i inside
      refine .on ⟨holds, rfl, calls, fun nil => ?_⟩
      have := holds.back
      simp only [nil, List.length_nil] at this
      omega
    · rename_i outside
      have nil := nil_of_bounds holds (by omega)
      have none : e.perform can (End.back.op false) = (.job none, e) := by
        apply LockingDeque.perform_refuse (fun _ => rfl)
        intro job found
        rw [nil] at found
        cases found
      exact .over (blend_latest can) (by rw [calls]; exact none) holds
  | readSlot back =>
    obtain ⟨holds, rfl, calls, filled⟩ := h
    simp only [extraStep, stepBack, holds.last filled, Option.map_some]
    exact .on ⟨holds, rfl, calls, List.getLast?_eq_some_getLast filled⟩
  | test back job =>
    obtain ⟨holds, rfl, calls, found⟩ := h
    simp only [extraStep, stepBack, Option.map_some]
    cases takes : can job with
    | true =>
      obtain ⟨e', eq, left⟩ := LockingDeque.perform_take (e := .back) (d := e)
        (fun _ => rfl) found (by rw [takes, Bool.or_true] : (false || can job) = true)
      refine .on ⟨holds, rfl, found, can, List.mem_cons_self .., e', ?_, left⟩
      rw [calls]
      exact eq
    | false =>
      have none : e.perform can (End.back.op false) = (.job none, e) := by
        apply LockingDeque.perform_refuse (fun _ => rfl)
        intro j at_
        obtain rfl : job = j := Option.some.inj (found.symm.trans at_)
        exact takes
      exact .over (blend_latest can) (by rw [calls]; exact none) holds
  | exchange back job =>
    obtain ⟨holds, rfl, takes⟩ := h
    simp only [extraStep, stepBack, if_true, Option.map_some]
    exact .taken (takes.later can) (holds.dropLast takes.ne_nil)

/-- The loop of `HasExecutableJobs` has refused the first `k` jobs. -/
theorem scan_over {k : Nat} (calls : op.1 = .hasExecutableJobs) (holds : d.Holds e.mJobDeque)
    (end_ : e.mJobDeque.length ≤ k) (refused : Refused (can :: seen) (e.mJobDeque.take k)) :
    ExtraLeads op e (can :: seen) (some (d, .inr (.yes false))) := by
  rw [List.take_of_length_le end_] at refused
  obtain ⟨answers, blend, none⟩ := refused.blend (List.mem_cons_self ..)
  rw [← LockingDeque.hasExecutableJobs_eq] at none
  refine .over blend ?_ holds
  rw [calls, LockingDeque.perform, LockingDeque.apply, none]

theorem scanStep_leads {pc : ScanPc J} (h : ScanMid op e seen pc d) :
    ExtraLeads op e (can :: seen) (extraStep can (.scan pc) d) := by
  cases pc with
  | idle =>
    obtain ⟨holds, calls⟩ := h
    exact .on ⟨holds, rfl, calls⟩
  | loadFront back =>
    obtain ⟨holds, rfl, calls⟩ := h
    have none : Refused (can :: seen) (e.mJobDeque.take 0) := fun job inside => by simp at inside
    simp only [extraStep, stepScan, Option.map_some]
    have := holds.back
    split
    · exact .on ⟨holds, rfl, calls, 0, rfl, by omega, none⟩
    · exact scan_over calls holds (by omega) none
  | readSlot i back =>
    obtain ⟨holds, rfl, calls, k, rfl, inside, refused⟩ := h
    simp only [extraStep, stepScan, holds.slot k inside, Option.map_some]
    exact .on ⟨holds, rfl, calls, k, rfl, List.getElem?_eq_getElem inside, refused.later can⟩
  | test i back job =>
    obtain ⟨holds, rfl, calls, k, rfl, found, refused⟩ := h
    obtain ⟨inside, rfl⟩ := List.getElem?_eq_some_iff.mp found
    simp only [extraStep, stepScan, Option.map_some]
    cases yes : can e.mJobDeque[k] with
    | true =>
      have has : e.hasExecutableJobs can = true := by
        rw [LockingDeque.hasExecutableJobs_eq, List.any_eq_true]
        exact ⟨_, List.getElem_mem inside, yes⟩
      refine .over (blend_latest can) ?_ holds
      rw [calls, LockingDeque.perform, LockingDeque.apply, has]
    | false =>
      have refused : Refused (can :: seen) (e.mJobDeque.take (k + 1)) := by
        rw [List.take_succ_eq_append_getElem inside]
        exact (refused.later can).concat yes
      have := holds.back
      simp only [Bool.false_eq_true, if_false]
      split
      · exact .on ⟨holds, rfl, calls, k + 1, Nat.add_assoc .., by omega, refused⟩
      · exact scan_over calls holds (by omega) refused
  | returned b => cases h

theorem extraStep_leads {pc : ExtraPc J} (h : ExtraMid op e seen pc d) (room : Room can pc d) :
    ExtraLeads op e (can :: seen) ((extraCode J).step can pc d) := by
  have inside : (extraCode J).step can pc d = extraStep can pc d := if_pos (reads_lt h)
  rw [inside]
  cases pc with
  | reserve job =>
    obtain ⟨holds, calls⟩ := h
    exact .on ⟨calls, rfl, room, holds⟩
  | write i job =>
    obtain ⟨calls, reserved, room, holds⟩ := h
    simp only [extraStep, if_pos room]
    refine .over (blend_latest can) (by rw [calls]; rfl) ?_
    have put := holds.write room job
    obtain ⟨entries, mFront, mBack⟩ := d
    obtain rfl : mBack = i + 1 := reserved
    exact put
  | loadFront allow =>
    obtain ⟨holds, calls⟩ := h
    exact .on ⟨holds, rfl, calls⟩
  | popFront pc => exact frontStep_leads h
  | popBack pc => exact backStep_leads h
  | scan pc => exact scanStep_leads h

end

variable (J) in
def extraContract : Monitor.Contract (extraCode J) (LockingDeque J) Room where
  Holds d e := d.Holds e.mJobDeque
  Mid := ExtraMid
  Spec op := LockingDeque.Spec (.deque op.1)
  enter := by
    rintro ⟨op, locked⟩ d e holds
    cases op with
    | pushBack job | popFront allow | popBack | hasExecutableJobs => exact ⟨holds, rfl⟩
    | size | clear => cases locked
  step := extraStep_leads

/-! ## All calls -/

section
variable {T : Type}

abbrev ExtraEntry (T J : Type) := Monitor.Entry T (ExtraOp J) (DequeAnswer J) (J → Bool)

/-- The job a call has put in. -/
def pushed (entry : ExtraEntry T J) : Option J :=
  match entry.op.1 with
  | .pushBack job => some job
  | _ => none

/-- The job a call has returned. -/
def returned (entry : ExtraEntry T J) : Option J :=
  match entry.ans with
  | .job job => job
  | _ => none

variable [DecidableEq J]

theorem spec_count {entry : ExtraEntry T J} {e e' : LockingDeque J}
    (spec : (extraContract J).Spec entry.op e entry.seen entry.ans e') (job : J) :
    e'.mJobDeque.count job + (returned entry).toList.count job =
      e.mJobDeque.count job + (pushed entry).toList.count job := by
  obtain ⟨t, ⟨op, locked⟩, seen, ans⟩ := entry
  obtain ⟨can, _, eq⟩ := spec
  cases op with
  | pushBack j =>
    cases eq
    simp [returned, pushed, List.count_append]
  | popFront allow =>
    cases eq
    exact e.popFront_count can allow job
  | popBack =>
    cases eq
    exact e.popBack_count can job
  | hasExecutableJobs =>
    cases eq
    simp [returned, pushed]
  | size | clear => cases locked

/-- What was put in was returned or is still there. -/
theorem serial_count {log : List (ExtraEntry T J)} {e : LockingDeque J}
    (h : (extraContract J).Serial .empty log e) (job : J) :
    (log.filterMap returned).count job + e.mJobDeque.count job =
      (log.filterMap pushed).count job := by
  have cons (f : ExtraEntry T J → Option J) (entry : ExtraEntry T J) (log : List (ExtraEntry T J)) :
      ((entry :: log).filterMap f).count job =
        (f entry).toList.count job + (log.filterMap f).count job := by
    cases eq : f entry with
    | none => simp [eq]
    | some j => simp [eq, List.count_cons, Nat.add_comm]
  induction h with
  | nil => rfl
  | cons _ spec ih =>
    have step := spec_count spec job
    rw [cons, cons]
    omega

/-- With `HTL_EXTRA_LOCKS` and any number of threads, as long as no push finds
`mBack` at `AMOUNT`: the calls do, in the order in which they unlock the mutex, what
they would do on a `LockingDeque`, none touches a slot outside the array or never
written, and of every job as many pushes are over as calls have returned it and
copies are between the indices. -/
theorem extra_atomic [DecidableEq T]
    {s : Monitor.State T (LocklessDeque J) (ExtraOp J) (ExtraPc J) (DequeAnswer J) (J → Bool)}
    (h : (Monitor.machine (extraCode J) LocklessDeque.empty).Reach (Monitor.Obeys Room) s) :
    ∃ e : LockingDeque J, (extraContract J).Serial .empty s.shared.log e ∧
      (s.shared.mutex = none → s.shared.obj.Holds e.mJobDeque) ∧
      (∀ t op seen pc, s.pc t = .inside op seen pc → s.shared.mutex = some t ∧
        ∀ can, Room can pc s.shared.obj → ((extraCode J).step can pc s.shared.obj).isSome) ∧
      (∀ t, s.shared.callsOf t = (s.pc t).pending ++ s.shared.logOf t) ∧
      ∀ job, (s.shared.log.filterMap returned).count job + e.mJobDeque.count job =
        (s.shared.log.filterMap pushed).count job := by
  have begins : (extraContract J).Holds LocklessDeque.empty LockingDeque.empty := empty_holds
  obtain ⟨e, inv⟩ := Monitor.Contract.serial begins h
  refine ⟨e, inv.serial, inv.free, ?_, Monitor.calls_logged h, serial_count inv.serial⟩
  intro t op seen pc here
  exact inv.inside here

/-- The owner and a thief go for the last job at the same time; the thief, that
locks second, finds nothing. -/
theorem extra_atomic_last : ∃ s,
    (Monitor.machine (T := Bool) (extraCode Nat) LocklessDeque.empty).Reach
      (Monitor.Obeys Room) s ∧
    s.shared.log.map Monitor.Entry.ans = [.job none, .job (some 7), .done] ∧
    ∃ e : LockingDeque Nat, s.shared.obj.Holds e.mJobDeque ∧ e.mJobDeque.count 7 = 0 := by
  let owner (op : ExtraOp Nat) : Bool × ExtraOp Nat × (Nat → Bool) := (false, op, fun _ => true)
  let thief (op : ExtraOp Nat) : Bool × ExtraOp Nat × (Nat → Bool) := (true, op, fun _ => true)
  have run : ((Monitor.machine (extraCode Nat) LocklessDeque.empty).exec (Monitor.Obeys Room)
      (.replicate 5 (owner ⟨.pushBack 7, rfl⟩) ++ .replicate 5 (owner ⟨.popFront true, rfl⟩) ++
        .replicate 1 (thief ⟨.popBack, rfl⟩) ++ .replicate 5 (owner ⟨.popFront true, rfl⟩) ++
        .replicate 4 (thief ⟨.popBack, rfl⟩))
      (Monitor.machine (extraCode Nat) LocklessDeque.empty).start).map
        (fun s => (s.shared.log.map Monitor.Entry.ans, s.shared.mutex,
          (s.shared.log.filterMap returned).count 7, (s.shared.log.filterMap pushed).count 7)) =
      some ([.job none, .job (some 7), .done], none, 1, 1) := by
    decide +kernel
  obtain ⟨s, hs, same⟩ := Option.map_eq_some_iff.mp run
  simp only [Prod.mk.injEq] at same
  obtain ⟨answers, free, out, put⟩ := same
  have reach := Machine.exec_start _ hs
  obtain ⟨e, _, holds, _, _, count⟩ := extra_atomic reach
  refine ⟨s, reach, answers, e, holds free, ?_⟩
  have total := count 7
  omega

end

end LocklessDeque
end JobStealer
