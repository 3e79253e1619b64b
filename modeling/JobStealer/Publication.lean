import JobStealer.DequeRaces

/-!
# When a slot is filled

`PushBack` makes an index visible with its `fetch_add` on `mBack` and writes the
slot afterwards, so here it is two steps. The owner calls `PopFront` and `PushBack`,
the runner `PushBack`, any number of thieves `PopBack`, and any number of scanners
`HasExecutableJobs`. The log holds what happened to the slots. With the two steps
taken together this is the machine of `DequeRaces` (`races`).

`high_water`: no operation looks at a slot that was never reserved. But the slot
may still be waiting for its write, and nothing in the code prevents it.
`published_iff` says that while no such slot was read so far, those waiting are the
only ones that are not ready. `Views` says when an operation comes to look at one.

The slots go on without end: a write past the array is none of this.
-/

namespace JobStealer
open Interleaving

namespace PopFrontPc
variable {J : Type}

/-- The slot the next step reads. -/
def reads : PopFrontPc J → Option Nat
  | .readSlot _ front => some front
  | _ => none

/-- All slots the call may still read are below. -/
def bound : PopFrontPc J → Nat
  | .readSlot _ front => front + 1
  | _ => 0

theorem lt_bound {pc : PopFrontPc J} {i : Nat} (h : pc.reads = some i) : i < pc.bound := by
  cases pc with
  | readSlot allow front =>
    cases h
    exact Nat.lt_succ_self _
  | _ => cases h

def isIdle : PopFrontPc J → Bool
  | .idle => true
  | _ => false

end PopFrontPc

namespace PopBackPc
variable {J : Type}

def reads : PopBackPc J → Option Nat
  | .readSlot back => some (back - 1)
  | _ => none

def bound : PopBackPc J → Nat
  | .loadFront back => back
  | .readSlot back => back - 1 + 1
  | _ => 0

theorem lt_bound {pc : PopBackPc J} {i : Nat} (h : pc.reads = some i) : i < pc.bound := by
  cases pc with
  | readSlot back =>
    cases h
    exact Nat.lt_succ_self _
  | _ => cases h

end PopBackPc

/-- Where a call of `HasExecutableJobs` stands. -/
inductive ScanPc (J : Type)
  | idle
  | loadFront (back : Nat)
  | readSlot (i back : Nat)
  | test (i back : Nat) (job : J)
  | returned (executable : Bool)
  deriving DecidableEq

namespace ScanPc
variable {J : Type}

def reads : ScanPc J → Option Nat
  | .readSlot i _ => some i
  | _ => none

def bound : ScanPc J → Nat
  | .loadFront back | .test _ back _ => back
  | .readSlot i back => max (i + 1) back
  | _ => 0

theorem lt_bound {pc : ScanPc J} {i : Nat} (h : pc.reads = some i) : i < pc.bound := by
  cases pc with
  | readSlot i back =>
    cases h
    exact Nat.le_max_left ..
  | _ => cases h

end ScanPc

namespace LocklessDeque
variable {J : Type} {can : J → Bool} {d d' : LocklessDeque J}

variable (can d) in
/-- The next step of `HasExecutableJobs`; it starts with the load of `mBack`. -/
def stepScan : ScanPc J → Option (ScanPc J)
  | .idle | .returned _ => some (.loadFront d.mBack)
  | .loadFront back => some (if d.mFront < back then .readSlot d.mFront back else .returned false)
  | .readSlot i back => (d.mEntries i).map (.test i back)
  | .test i back job =>
    some (if can job then .returned true
      else if i + 1 < back then .readSlot (i + 1) back else .returned false)

theorem scan_ok {k i : Nat} {b : Bool} (h : d.scan can (k + 1) i = .ok b) :
    ∃ job, d.mEntries i = some job ∧
      if can job = true then b = true else d.scan can k (i + 1) = .ok b := by
  simp only [scan] at h
  cases read : d.read i with
  | error fault =>
    rw [read] at h
    cases h
  | ok job =>
    refine ⟨job, read_ok read, ?_⟩
    simp only [read, bind, Except.bind, pure, Except.pure] at h
    split at h
    · rename_i yes
      cases h
      rw [if_pos yes]
    · rename_i no
      rwa [if_neg no]

theorem stepFront_bound {pc pc' : PopFrontPc J} {job : Option J}
    (h : d.stepFront can pc = some (d', pc', job)) :
    pc'.bound ≤ max pc.bound d.mBack ∧ d'.mEntries = d.mEntries ∧ d'.mBack ≤ d.mBack := by
  cases pc with
  | idle => cases h
  | loadBack allow front =>
    cases h
    refine ⟨?_, rfl, Nat.le_refl _⟩
    split
    · rename_i inside
      exact le_max_of_le_right inside.1
    · exact Nat.zero_le _
  | readSlot allow front =>
    simp only [stepFront, Option.map_eq_some_iff, Prod.mk.injEq] at h
    obtain ⟨j, _, rfl, rfl, _⟩ := h
    exact ⟨Nat.zero_le _, rfl, Nat.le_refl _⟩
  | test allow front j =>
    cases h
    refine ⟨?_, rfl, Nat.le_refl _⟩
    split <;> exact Nat.zero_le _
  | exchange front j | reloadBack front now j =>
    simp only [stepFront] at h
    split at h <;> cases h <;> exact ⟨Nat.zero_le _, rfl, Nat.le_refl _⟩
  | reloadFront front j | storeFront j =>
    cases h
    exact ⟨Nat.zero_le _, rfl, Nat.le_refl _⟩
  | storeBack j =>
    cases h
    exact ⟨Nat.zero_le _, rfl, Nat.zero_le _⟩

theorem stepBack_bound {pc pc' : PopBackPc J} {job : Option J}
    (h : d.stepBack can pc = some (d', pc', job)) :
    pc'.bound ≤ max pc.bound d.mBack ∧ d'.mEntries = d.mEntries ∧ d'.mBack ≤ d.mBack := by
  cases pc with
  | idle =>
    cases h
    exact ⟨Nat.le_max_right .., rfl, Nat.le_refl _⟩
  | loadFront back =>
    cases h
    refine ⟨?_, rfl, Nat.le_refl _⟩
    split
    · rename_i inside
      apply le_max_of_le_left
      exact Nat.le_of_eq (Nat.sub_add_cancel inside.2)
    · exact Nat.zero_le _
  | readSlot back =>
    simp only [stepBack, Option.map_eq_some_iff, Prod.mk.injEq] at h
    obtain ⟨j, _, rfl, rfl, _⟩ := h
    exact ⟨Nat.zero_le _, rfl, Nat.le_refl _⟩
  | test back j =>
    cases h
    refine ⟨?_, rfl, Nat.le_refl _⟩
    split <;> exact Nat.zero_le _
  | exchange back j =>
    simp only [stepBack] at h
    split at h <;> cases h
    · rename_i same
      exact ⟨Nat.zero_le _, rfl, same ▸ Nat.sub_le ..⟩
    · exact ⟨Nat.zero_le _, rfl, Nat.le_refl _⟩

theorem stepScan_bound {pc pc' : ScanPc J} (h : d.stepScan can pc = some pc') :
    pc'.bound ≤ max pc.bound d.mBack := by
  cases pc with
  | idle | returned b =>
    cases h
    exact Nat.le_max_right ..
  | loadFront back =>
    cases h
    split
    · rename_i inside
      exact le_max_of_le_left (Nat.max_le.mpr ⟨inside, Nat.le_refl _⟩)
    · exact Nat.zero_le _
  | readSlot i back =>
    simp only [stepScan, Option.map_eq_some_iff] at h
    obtain ⟨j, _, rfl⟩ := h
    exact le_max_of_le_left (Nat.le_max_right ..)
  | test i back j =>
    cases h
    split
    · exact Nat.zero_le _
    · split
      · rename_i inside
        exact le_max_of_le_left (Nat.max_le.mpr ⟨inside, Nat.le_refl _⟩)
      · exact Nat.zero_le _

/-! The thread stays where it is if there is no such step. -/

theorem stepFront_getD (can : J → Bool) (d : LocklessDeque J) (pc : PopFrontPc J) :
    let r := (d.stepFront can pc).getD (d, pc, none)
    r.2.1.bound ≤ max pc.bound d.mBack ∧ r.1.mEntries = d.mEntries ∧ r.1.mBack ≤ d.mBack := by
  cases h : d.stepFront can pc with
  | none => exact ⟨Nat.le_max_left .., rfl, Nat.le_refl _⟩
  | some r => exact stepFront_bound h

theorem stepBack_getD (can : J → Bool) (d : LocklessDeque J) (pc : PopBackPc J) :
    let r := (d.stepBack can pc).getD (d, pc, none)
    r.2.1.bound ≤ max pc.bound d.mBack ∧ r.1.mEntries = d.mEntries ∧ r.1.mBack ≤ d.mBack := by
  cases h : d.stepBack can pc with
  | none => exact ⟨Nat.le_max_left .., rfl, Nat.le_refl _⟩
  | some r => exact stepBack_bound h

theorem stepScan_getD (can : J → Bool) (d : LocklessDeque J) (pc : ScanPc J) :
    ((d.stepScan can pc).getD pc).bound ≤ max pc.bound d.mBack := by
  cases h : d.stepScan can pc with
  | none => exact Nat.le_max_left ..
  | some pc' => exact stepScan_bound h

end LocklessDeque

/-- The threads that call `PushBack`. -/
inductive Pusher
  | owner
  | runner
  deriving DecidableEq

/-- `slot` is what was read, `none` if it was never written. -/
inductive SlotEvent (J : Type)
  | reserved (p : Pusher) (i : Nat)
  | wrote (p : Pusher) (i : Nat) (job : J)
  | read (i : Nat) (slot : Option J)
  deriving DecidableEq

namespace Publication

/-- `writing` is the slot a `PushBack` has reserved and not yet written, and its job. -/
structure State (J T S : Type) where
  deque : LocklessDeque J
  can : J → Bool
  writing : Pusher → Option (Nat × J)
  front : PopFrontPc J
  back : T → PopBackPc J
  scan : S → ScanPc J
  log : List (SlotEvent J)

inductive Action (J T S : Type)
  | answer (job : J) (canExecute : Bool)
  | reserve (p : Pusher) (job : J)
  | write (p : Pusher)
  | popFront (allowOpenDependencies : Bool)
  | owner
  | thief (t : T)
  | scanner (t : S)

section
variable {J T S : Type}

namespace State

/-- The thread may begin a `PushBack`. -/
def free (s : State J T S) : Pusher → Bool
  | .owner => (s.writing .owner).isNone && s.front.isIdle
  | .runner => (s.writing .runner).isNone

def reserve (s : State J T S) (p : Pusher) (job : J) : State J T S :=
  { s with
    deque := { s.deque with mBack := s.deque.mBack + 1 }
    writing := Function.update s.writing p (some (s.deque.mBack, job))
    log := .reserved p s.deque.mBack :: s.log }

def write (s : State J T S) (p : Pusher) (i : Nat) (job : J) : State J T S :=
  { s with
    deque := { s.deque with mEntries := Function.update s.deque.mEntries i (some job) }
    writing := Function.update s.writing p none
    log := .wrote p i job :: s.log }

section
variable {s : State J T S} {p q : Pusher} {job : J} {i : Nat}

theorem reserve_writing_self : (s.reserve p job).writing p = some (s.deque.mBack, job) :=
  Function.update_self ..

theorem reserve_writing_other (h : q ≠ p) : (s.reserve p job).writing q = s.writing q :=
  Function.update_of_ne h ..

theorem write_writing_self : (s.write p i job).writing p = none := Function.update_self ..

theorem write_writing_other (h : q ≠ p) : (s.write p i job).writing q = s.writing q :=
  Function.update_of_ne h ..

end

def noteRead (s : State J T S) : Option Nat → List (SlotEvent J)
  | some i => .read i (s.deque.mEntries i) :: s.log
  | none => s.log

/-- The slot a step reads. -/
def reads (s : State J T S) : Action J T S → Option Nat
  | .owner => s.front.reads
  | .thief t => (s.back t).reads
  | .scanner t => (s.scan t).reads
  | _ => none

/-- `mBack`, and whatever anybody has loaded from it, is at most `B`. -/
structure Below (s : State J T S) (B : Nat) : Prop where
  mBack : s.deque.mBack ≤ B
  front : s.front.bound ≤ B
  back : ∀ t, (s.back t).bound ≤ B
  scan : ∀ t, (s.scan t).bound ≤ B

theorem Below.reads_lt {s : State J T S} {B : Nat} (below : s.Below B) {a : Action J T S}
    {i : Nat} (reads : s.reads a = some i) : i < B := by
  cases a with
  | owner => exact Nat.lt_of_lt_of_le (PopFrontPc.lt_bound reads) below.front
  | thief t => exact Nat.lt_of_lt_of_le (PopBackPc.lt_bound reads) (below.back t)
  | scanner t => exact Nat.lt_of_lt_of_le (ScanPc.lt_bound reads) (below.scan t)
  | _ => cases reads

end State

variable [DecidableEq J] [DecidableEq T] [DecidableEq S]

/-- A slot never written is read all the same; the thread then gets no further. -/
def step : Action J T S → State J T S → Option (State J T S)
  | .answer job b, s => some { s with can := Function.update s.can job b }
  | .reserve p job, s => if s.free p then some (s.reserve p job) else none
  | .write p, s => (s.writing p).map fun r => s.write p r.1 r.2
  | .popFront allow, s =>
    if s.free .owner then some { s with front := .loadBack allow s.deque.mFront } else none
  | .owner, s =>
    if s.front.isIdle then none
    else
      let r := (s.deque.stepFront s.can s.front).getD (s.deque, s.front, none)
      some { s with deque := r.1, front := r.2.1, log := s.noteRead s.front.reads }
  | .thief t, s =>
    let r := (s.deque.stepBack s.can (s.back t)).getD (s.deque, s.back t, none)
    some { s with
      deque := r.1
      back := Function.update s.back t r.2.1
      log := s.noteRead (s.back t).reads }
  | .scanner t, s =>
    some { s with
      scan := Function.update s.scan t ((s.deque.stepScan s.can (s.scan t)).getD (s.scan t))
      log := s.noteRead (s.scan t).reads }

variable (J T S) in
/-- An empty deque, nobody inside an operation. -/
def machine : Machine (State J T S) (Action J T S) where
  start := ⟨.empty, fun _ => false, fun _ => none, .idle, fun _ => .idle, fun _ => .idle, []⟩
  step := step

/-! ## One operation alone -/

theorem pushBack_alone {s : State J T S} {p : Pusher} (free : s.free p = true) {job : J}
    {d : LocklessDeque J} (h : s.deque.pushBack job = .ok d) :
    ∃ t, (machine J T S).run [.reserve p job, .write p] s = some t ∧ t.deque = d ∧
      t.writing p = none := by
  obtain ⟨_, rfl⟩ := LocklessDeque.pushBack_eq h
  refine ⟨(s.reserve p job).write p s.deque.mBack job, ?_, rfl, Function.update_self ..⟩
  simp [Machine.exec, machine, step, free, State.reserve]

/-- A scanner reads a slot and tests the job. -/
theorem scan_next {s : State J T S} {t : S} {i back : Nat} {job : J}
    (here : s.scan t = .readSlot i back) (slot : s.deque.mEntries i = some job) :
    ∃ u, (machine J T S).run [.scanner t, .scanner t] s = some u ∧ u.deque = s.deque ∧
      u.can = s.can ∧ u.scan t = (if s.can job then .returned true
        else if i + 1 < back then .readSlot (i + 1) back else .returned false) := by
  refine ⟨_, rfl, rfl, rfl, ?_⟩
  simp [here, slot, LocklessDeque.stepScan]

theorem scan_alone {s : State J T S} {t : S} {i k : Nat} {b : Bool}
    (here : s.scan t = .readSlot i (i + (k + 1))) (h : s.deque.scan s.can (k + 1) i = .ok b) :
    ∃ m u, (machine J T S).run (.replicate m (.scanner t)) s = some u ∧ u.deque = s.deque ∧
      u.scan t = .returned b := by
  induction k generalizing s i with
  | zero =>
    obtain ⟨job, slot, eq⟩ := LocklessDeque.scan_ok h
    obtain ⟨u, run, deque, _, there⟩ := scan_next here slot
    refine ⟨2, u, run, deque, ?_⟩
    rw [there, if_neg (lt_irrefl _)]
    by_cases can : s.can job = true
    · rw [if_pos can] at eq ⊢
      rw [eq]
    · rw [if_neg can] at eq ⊢
      cases eq
      rfl
  | succ k ih =>
    obtain ⟨job, slot, eq⟩ := LocklessDeque.scan_ok h
    obtain ⟨u, run, deque, same, there⟩ := scan_next here slot
    by_cases can : s.can job = true
    · rw [if_pos can] at eq there
      rw [eq]
      exact ⟨2, u, run, deque, there⟩
    · rw [if_neg can] at eq there
      rw [if_pos (by omega), ← Nat.add_assoc, Nat.add_right_comm] at there
      obtain ⟨m, v, rest, last, done⟩ := ih there (by rwa [deque, same])
      refine ⟨2 + m, v, ?_, last.trans deque, done⟩
      rw [← List.replicate_append_replicate]
      exact Machine.exec_append run rest

/-- A `HasExecutableJobs` nobody interrupts is the function of `LocklessDeque`. -/
theorem hasExecutableJobs_alone {s : State J T S} {t : S} (idle : s.scan t = .idle) {b : Bool}
    (h : s.deque.hasExecutableJobs s.can = .ok b) :
    ∃ m u, (machine J T S).run (.replicate m (.scanner t)) s = some u ∧ u.deque = s.deque ∧
      u.scan t = .returned b := by
  unfold LocklessDeque.hasExecutableJobs at h
  have loads : ∃ u, (machine J T S).run [.scanner t, .scanner t] s = some u ∧ u.deque = s.deque ∧
      u.can = s.can ∧ u.scan t = (if s.deque.mFront < s.deque.mBack then
        .readSlot s.deque.mFront s.deque.mBack else .returned false) := by
    refine ⟨_, rfl, rfl, rfl, ?_⟩
    simp [idle, LocklessDeque.stepScan]
  obtain ⟨u, run, deque, same, there⟩ := loads
  split at h
  · rename_i inside
    rw [if_pos inside] at there
    obtain ⟨k, more⟩ : ∃ k, s.deque.mBack - s.deque.mFront = k + 1 :=
      Nat.exists_eq_succ_of_ne_zero (by omega)
    have back : s.deque.mBack = s.deque.mFront + (k + 1) := by omega
    rw [more] at h
    rw [back] at there
    obtain ⟨m, v, rest, last, done⟩ := scan_alone there (by rwa [deque, same])
    refine ⟨2 + m, v, ?_, last.trans deque, done⟩
    rw [← List.replicate_append_replicate]
    exact Machine.exec_append run rest
  · rename_i empty
    cases h
    rw [if_neg empty] at there
    exact ⟨2, u, run, deque, there⟩

/-! ## Pushes that nobody interrupts -/

/-- Nobody is inside a `PushBack`, and for the rest the states are the same. -/
structure Agree (s : Races.State J T) (x : State J T S) : Prop where
  deque : x.deque = s.deque
  can : x.can = s.can
  writing : ∀ p, x.writing p = none
  front : x.front = s.owner
  back : x.back = s.thief

variable {s : Races.State J T} {x : State J T S}

omit [DecidableEq J] [DecidableEq T] [DecidableEq S] in
theorem Agree.free (h : Agree s x) (idle : s.owner = .idle) (p : Pusher) : x.free p = true := by
  cases p with
  | owner => simp [State.free, h.writing, h.front, idle, PopFrontPc.isIdle]
  | runner => simp [State.free, h.writing]

theorem Agree.push (h : Agree s x) (reached : (machine J T S).Reachable x) {p : Pusher}
    (free : x.free p = true) (job : J) :
    ∃ y, (machine J T S).Reachable y ∧ Agree (s.push job) y := by
  have reserve : (machine J T S).step (.reserve p job) x = some (x.reserve p job) := if_pos free
  have write : (machine J T S).step (.write p) (x.reserve p job) =
      some ((x.reserve p job).write p x.deque.mBack job) := by
    simp [machine, step, State.reserve_writing_self]
  refine ⟨_, (reached.next trivial reserve).next trivial write, ?_, h.can, ?_, h.front, h.back⟩
  · simp [State.write, State.reserve, Races.State.push, LocklessDeque.push, h.deque]
  · intro q
    by_cases same : q = p
    · subst same
      exact State.write_writing_self
    · rw [State.write_writing_other same, State.reserve_writing_other same, h.writing]

variable (J T S) in
/-- `Races` is this machine with each reservation and its write taken together. -/
theorem races : Machine.Simulation (Races.machine J T) (machine J T S) Agree where
  start := ⟨rfl, rfl, fun _ => rfl, rfl, rfl⟩
  step s t a x := by
    intro h reached move
    cases a with
    | answer job b =>
      cases move
      exact ⟨_, reached.next (a := .answer job b) trivial rfl, h.deque,
        by rw [h.can], h.writing, h.front, h.back⟩
    | runnerPush job =>
      simp only [Races.machine, Races.step, Option.ite_none_right_eq_some,
        Option.some.injEq] at move
      obtain ⟨_, rfl⟩ := move
      have free : x.free .runner = true := by simp [State.free, h.writing]
      exact h.push reached free job
    | ownerPush job =>
      simp only [Races.machine, Races.step] at move
      split at move
      · rename_i idle
        simp only [Option.ite_none_right_eq_some, Option.some.injEq] at move
        obtain ⟨_, rfl⟩ := move
        exact h.push reached (h.free idle .owner) job
      · cases move
    | ownerPop allow =>
      simp only [Races.machine, Races.step] at move
      split at move
      · rename_i idle
        cases move
        exact ⟨_, reached.next (a := .popFront allow) trivial (if_pos (h.free idle .owner)),
          h.deque, h.can, h.writing, by rw [h.deque], h.back⟩
      · cases move
    | owner =>
      simp only [Races.machine, Races.step, Option.map_eq_some_iff] at move
      obtain ⟨r, stepped, rfl⟩ := move
      have busy : ¬ x.front.isIdle = true := by
        intro idle
        rw [h.front] at idle
        cases hpc : s.owner with
        | idle =>
          rw [hpc] at stepped
          cases stepped
        | _ => simp [hpc, PopFrontPc.isIdle] at idle
      have next : (x.deque.stepFront x.can x.front).getD (x.deque, x.front, none) = r := by
        rw [h.deque, h.can, h.front, stepped]
        rfl
      exact ⟨_, reached.next (a := .owner) trivial (if_neg busy), by rw [next], h.can, h.writing,
        by rw [next], h.back⟩
    | thief t =>
      simp only [Races.machine, Races.step, Option.map_eq_some_iff] at move
      obtain ⟨r, stepped, rfl⟩ := move
      have next : (x.deque.stepBack x.can (x.back t)).getD (x.deque, x.back t, none) = r := by
        rw [h.deque, h.can, h.back, stepped]
        rfl
      exact ⟨_, reached.next (a := .thief t) trivial rfl, by rw [next], h.can, h.writing, h.front,
        by rw [next, h.back]⟩

/-! ## What a step does -/

/-- A step reserves a slot, or writes one, or leaves the slots alone and reads one
at most. -/
theorem step_cases {s s' : State J T S} {a : Action J T S} (move : step a s = some s') :
    (∃ p job, a = .reserve p job ∧ s.free p = true ∧ s' = s.reserve p job) ∨
    (∃ p i job, a = .write p ∧ s.writing p = some (i, job) ∧ s' = s.write p i job) ∨
    (s'.writing = s.writing ∧ s'.deque.mEntries = s.deque.mEntries ∧
      s'.log = s.noteRead (s.reads a) ∧ ∀ B, s.Below B → s'.Below B) := by
  cases a with
  | answer job b =>
    cases move
    exact .inr (.inr ⟨rfl, rfl, rfl, fun _ below => ⟨below.1, below.2, below.3, below.4⟩⟩)
  | reserve p job =>
    simp only [step, Option.ite_none_right_eq_some, Option.some.injEq] at move
    exact .inl ⟨p, job, rfl, move.1, move.2.symm⟩
  | write p =>
    simp only [step, Option.map_eq_some_iff] at move
    obtain ⟨⟨i, job⟩, writing, rfl⟩ := move
    exact .inr (.inl ⟨p, i, job, rfl, writing, rfl⟩)
  | popFront allow =>
    simp only [step, Option.ite_none_right_eq_some, Option.some.injEq] at move
    obtain ⟨_, rfl⟩ := move
    exact .inr (.inr ⟨rfl, rfl, rfl, fun _ below => ⟨below.1, Nat.zero_le _, below.3, below.4⟩⟩)
  | owner =>
    simp only [step, Option.ite_none_left_eq_some, Option.some.injEq] at move
    obtain ⟨_, rfl⟩ := move
    obtain ⟨bound, entries, back⟩ := s.deque.stepFront_getD s.can s.front
    refine .inr (.inr ⟨rfl, entries, rfl, fun B below => ⟨?_, ?_, below.back, below.scan⟩⟩)
    · exact back.trans below.mBack
    · exact bound.trans (max_le below.front below.mBack)
  | thief t =>
    cases move
    obtain ⟨bound, entries, back⟩ := s.deque.stepBack_getD s.can (s.back t)
    refine .inr (.inr ⟨rfl, entries, rfl, fun B below => ⟨?_, below.front, ?_, below.scan⟩⟩)
    · exact back.trans below.mBack
    · intro u
      dsimp only
      by_cases same : u = t
      · subst same
        rw [Function.update_self]
        exact bound.trans (max_le (below.back u) below.mBack)
      · rw [Function.update_of_ne same]
        exact below.back u
  | scanner t =>
    cases move
    have bound := s.deque.stepScan_getD s.can (s.scan t)
    refine .inr (.inr ⟨rfl, rfl, rfl, fun B below => ⟨below.mBack, below.front, below.back, ?_⟩⟩)
    intro u
    dsimp only
    by_cases same : u = t
    · subst same
      rw [Function.update_self]
      exact bound.trans (max_le (below.scan u) below.mBack)
    · rw [Function.update_of_ne same]
      exact below.scan u

/-! ## No slot is read before it was reserved -/

/-- Some `fetch_add` has returned slot `i`. -/
def Reserved (i : Nat) (log : List (SlotEvent J)) : Prop := ∃ p, .reserved p i ∈ log

omit [DecidableEq J] [DecidableEq T] [DecidableEq S] in
theorem reserved_noteRead {s : State J T S} {i : Nat} {slot : Option Nat} :
    Reserved i (s.noteRead slot) ↔ Reserved i s.log := by
  cases slot <;> simp [Reserved, State.noteRead]

theorem high_water {ok : State J T S → Action J T S → Prop} {s : State J T S}
    (h : (machine J T S).Reach ok s) : ∃ B, s.Below B ∧ ∀ i < B, Reserved i s.log := by
  induction h with
  | start =>
    exact ⟨0, ⟨Nat.le_refl _, Nat.le_refl _, fun _ => Nat.le_refl _, fun _ => Nat.le_refl _⟩,
      fun i none => absurd none (Nat.not_lt_zero i)⟩
  | @next s s' a run _ move ih =>
    obtain ⟨B, below, all⟩ := ih
    rcases step_cases move with ⟨p, job, rfl, _, rfl⟩ | ⟨p, i, job, rfl, _, rfl⟩ |
      ⟨_, _, log, stays⟩
    · refine ⟨max B (s.deque.mBack + 1), ⟨Nat.le_max_right .., le_max_of_le_left below.front,
        fun t => le_max_of_le_left (below.back t), fun t => le_max_of_le_left (below.scan t)⟩, ?_⟩
      intro i less
      by_cases old : i < B
      · obtain ⟨q, reserved⟩ := all i old
        exact ⟨q, List.mem_cons_of_mem _ reserved⟩
      · have := below.mBack
        have same : i = s.deque.mBack := by omega
        exact ⟨p, same ▸ List.mem_cons_self ..⟩
    · refine ⟨B, ⟨below.1, below.2, below.3, below.4⟩, ?_⟩
      intro k less
      obtain ⟨q, reserved⟩ := all k less
      exact ⟨q, List.mem_cons_of_mem _ reserved⟩
    · refine ⟨B, stays B below, ?_⟩
      intro i less
      rw [log, reserved_noteRead]
      exact all i less

/-! ## What is read -/

/-- The event changed slot `i` or reserved it. -/
def stores (i : Nat) : SlotEvent J → Bool
  | .reserved _ k | .wrote _ k _ => k = i
  | .read _ _ => false

/-- What happened to slot `i` but for reads, the latest first. -/
def history (i : Nat) (log : List (SlotEvent J)) : List (SlotEvent J) := log.filter (stores i)

/-- The last reservation of slot `i` has been followed by its write, of `job`, and
nothing has happened to the slot since. -/
def Published (i : Nat) (job : J) (log : List (SlotEvent J)) : Prop :=
  ∃ p rest, history i log = .wrote p i job :: .reserved p i :: rest

section
omit [DecidableEq J] [DecidableEq T] [DecidableEq S]

theorem history_noteRead (s : State J T S) (i : Nat) (slot : Option Nat) :
    history i (s.noteRead slot) = history i s.log := by
  cases slot <;> simp [history, State.noteRead, stores]

theorem history_reserved (p : Pusher) (i k : Nat) (log : List (SlotEvent J)) :
    history i (.reserved p k :: log) =
      if k = i then .reserved p k :: history i log else history i log := by
  by_cases same : k = i <;> simp [history, stores, same]

theorem history_wrote (p : Pusher) (i k : Nat) (job : J) (log : List (SlotEvent J)) :
    history i (.wrote p k job :: log) =
      if k = i then .wrote p k job :: history i log else history i log := by
  by_cases same : k = i <;> simp [history, stores, same]

/-- A `PushBack` in progress has reserved slot `i` and has yet to write it. -/
def State.pending (s : State J T S) (i : Nat) : Bool :=
  [Pusher.owner, .runner].any fun p => (s.writing p).any fun r => r.1 = i

theorem State.pending_iff {s : State J T S} {i : Nat} :
    s.pending i = true ↔ ∃ p job, s.writing p = some (i, job) := by
  simp only [pending, List.any_eq_true, Option.any_eq_true, decide_eq_true_eq]
  constructor
  · rintro ⟨p, _, ⟨k, job⟩, writing, rfl⟩
    exact ⟨p, job, writing⟩
  · rintro ⟨p, job, writing⟩
    exact ⟨p, by cases p <;> simp, (i, job), writing, rfl⟩

theorem State.pending_mono {s s' : State J T S} {i : Nat} (settled : s'.pending i = false)
    (still : ∀ p job, s.writing p = some (i, job) → s'.writing p = some (i, job)) :
    s.pending i = false := by
  by_contra pending
  obtain ⟨p, job, writing⟩ := pending_iff.mp ((Bool.not_eq_false _).mp pending)
  exact absurd (settled.symm.trans (pending_iff.mpr ⟨p, job, still p job writing⟩)) (by simp)

theorem State.not_pending {s : State J T S} {i : Nat} (h : s.pending i = false) (p : Pusher)
    (job : J) : s.writing p ≠ some (i, job) := by
  intro writing
  exact absurd (h.symm.trans (pending_iff.mpr ⟨p, job, writing⟩)) (by simp)

theorem State.writing_of_free {s : State J T S} {p : Pusher} (h : s.free p = true) :
    s.writing p = none := by
  cases p with
  | owner => exact Option.isNone_iff_eq_none.mp (Bool.and_eq_true_iff.mp h).1
  | runner => exact Option.isNone_iff_eq_none.mp h

/-- A read further back in the log. -/
theorem read_earlier {e : SlotEvent J} {log later earlier : List (SlotEvent J)} {i : Nat}
    {slot : Option J} (other : ∀ i slot, e ≠ .read i slot)
    (eq : e :: log = later ++ .read i slot :: earlier) :
    ∃ later', log = later' ++ .read i slot :: earlier := by
  cases later with
  | nil => exact absurd (List.cons.inj eq).1 (other i slot)
  | cons e' later' => exact ⟨later', (List.cons.inj eq).2⟩

end

/-- The slot of a `PushBack` in progress is not read, and not reserved again. -/
def leavesPending (s : State J T S) (a : Action J T S) : Prop :=
  (match a with
    | .reserve _ _ => some s.deque.mBack
    | _ => s.reads a).all (!s.pending ·) = true

/-- What is known of the slots while those of pushes in progress are left alone. -/
structure Settled (s : State J T S) : Prop where
  pending : ∀ p i job, s.writing p = some (i, job) →
    ∃ rest, history i s.log = .reserved p i :: rest
  slot : ∀ i, Reserved i s.log → s.pending i = false →
    ∃ job, Published i job s.log ∧ s.deque.mEntries i = some job
  reads : ∀ later earlier i slot, s.log = later ++ .read i slot :: earlier →
    ∃ job, slot = some job ∧ Published i job earlier

section
variable {s s' : State J T S} {p : Pusher} {job : J} {i : Nat}
omit [DecidableEq J] [DecidableEq T] [DecidableEq S]

theorem Settled.reserve (h : Settled s) (free : s.free p = true)
    (vacant : s.pending s.deque.mBack = false) : Settled (s.reserve p job) := by
  have idle := State.writing_of_free free
  constructor
  case pending =>
    intro q i other writing
    by_cases same : q = p
    · subst same
      rw [State.reserve_writing_self] at writing
      cases writing
      exact ⟨_, by rw [State.reserve, history_reserved, if_pos rfl]⟩
    · rw [State.reserve_writing_other same] at writing
      have apart : s.deque.mBack ≠ i := by
        rintro rfl
        exact State.not_pending vacant q other writing
      obtain ⟨rest, eq⟩ := h.pending q i other writing
      exact ⟨rest, by rw [State.reserve, history_reserved, if_neg apart, eq]⟩
  case slot =>
    intro i reserved settled
    have apart : s.deque.mBack ≠ i := by
      rintro rfl
      exact State.not_pending settled p job State.reserve_writing_self
    have before : s.pending i = false := by
      apply State.pending_mono settled
      intro q other writing
      have distinct : q ≠ p := by
        rintro rfl
        exact absurd (idle.symm.trans writing) (by simp)
      exact (State.reserve_writing_other distinct).trans writing
    have reserved : Reserved i s.log := by
      obtain ⟨q, mem⟩ := reserved
      cases List.mem_cons.mp mem with
      | inl new =>
        cases new
        exact absurd rfl apart
      | inr old => exact ⟨q, old⟩
    obtain ⟨other, ⟨q, rest, eq⟩, entry⟩ := h.slot i reserved before
    exact ⟨other, ⟨q, rest, by rw [State.reserve, history_reserved, if_neg apart, eq]⟩, entry⟩
  case reads =>
    intro later earlier i slot eq
    obtain ⟨later', eq⟩ := read_earlier (by simp) eq
    exact h.reads later' earlier i slot eq

theorem Settled.write (h : Settled s) (writing : s.writing p = some (i, job)) :
    Settled (s.write p i job) := by
  obtain ⟨rest, last⟩ := h.pending p i job writing
  constructor
  case pending =>
    intro q k other writing'
    have distinct : q ≠ p := by
      rintro rfl
      rw [State.write_writing_self] at writing'
      cases writing'
    rw [State.write_writing_other distinct] at writing'
    obtain ⟨rest', eq⟩ := h.pending q k other writing'
    -- two pushes cannot both have reserved the slot last
    have apart : i ≠ k := by
      rintro rfl
      rw [last] at eq
      cases eq
      exact distinct rfl
    exact ⟨rest', by rw [State.write, history_wrote, if_neg apart, eq]⟩
  case slot =>
    intro k reserved settled
    by_cases here : i = k
    · subst here
      refine ⟨job, ⟨p, rest, ?_⟩, Function.update_self ..⟩
      rw [State.write, history_wrote, if_pos rfl, last]
    · have before : s.pending k = false := by
        apply State.pending_mono settled
        intro q other writing'
        have distinct : q ≠ p := by
          rintro rfl
          rw [writing] at writing'
          cases writing'
          exact here rfl
        exact (State.write_writing_other distinct).trans writing'
      have reserved : Reserved k s.log := by
        obtain ⟨q, mem⟩ := reserved
        exact ⟨q, (List.mem_cons.mp mem).resolve_left (by simp)⟩
      obtain ⟨other, ⟨q, rest', eq⟩, entry⟩ := h.slot k reserved before
      refine ⟨other, ⟨q, rest', ?_⟩, (Function.update_of_ne (Ne.symm here) ..).trans entry⟩
      rw [State.write, history_wrote, if_neg here, eq]
  case reads =>
    intro later earlier k slot eq
    obtain ⟨later', eq⟩ := read_earlier (by simp) eq
    exact h.reads later' earlier k slot eq

/-- A step that reads a slot at most. -/
theorem Settled.look (h : Settled s) {slot : Option Nat} (writing : s'.writing = s.writing)
    (entries : s'.deque.mEntries = s.deque.mEntries) (log : s'.log = s.noteRead slot)
    (seen : ∀ i ∈ slot, Reserved i s.log ∧ s.pending i = false) : Settled s' := by
  have same (i : Nat) : s'.pending i = s.pending i := by rw [State.pending, State.pending, writing]
  constructor
  case pending =>
    intro p i job now
    rw [log, history_noteRead]
    exact h.pending p i job (writing ▸ now)
  case slot =>
    intro i reserved settled
    rw [log, reserved_noteRead] at reserved
    rw [same] at settled
    obtain ⟨job, ⟨p, rest, eq⟩, entry⟩ := h.slot i reserved settled
    refine ⟨job, ⟨p, rest, ?_⟩, entries ▸ entry⟩
    rw [log, history_noteRead, eq]
  case reads =>
    intro later earlier k read eq
    rw [log] at eq
    cases slot with
    | none => exact h.reads later earlier k read eq
    | some i =>
      cases later with
      | nil =>
        obtain ⟨⟨rfl, rfl⟩, rfl⟩ : (i = k ∧ s.deque.mEntries i = read) ∧ s.log = earlier := by
          simpa [State.noteRead] using eq
        obtain ⟨reserved, settled⟩ := seen i rfl
        obtain ⟨job, published, entry⟩ := h.slot i reserved settled
        exact ⟨job, entry, published⟩
      | cons e later => exact h.reads later earlier k read (List.cons.inj eq).2

end

omit [DecidableEq J] [DecidableEq T] [DecidableEq S] in
theorem not_pending_of_reads {s : State J T S} {a : Action J T S} {i : Nat}
    (ok : leavesPending s a) (reads : s.reads a = some i) : s.pending i = false := by
  cases a with
  | reserve p job => cases reads
  | _ => simpa [leavesPending, reads] using ok

theorem settled {s : State J T S} (h : (machine J T S).Reach leavesPending s) : Settled s := by
  induction h with
  | start =>
    constructor
    case pending =>
      intro p i job writing
      cases writing
    case slot =>
      rintro i ⟨p, reserved⟩
      cases reserved
    case reads =>
      intro later earlier i slot eq
      exact absurd eq (by simp [machine])
  | @next s s' a run ok move ih =>
    rcases step_cases move with ⟨p, job, rfl, free, rfl⟩ | ⟨p, i, job, rfl, writing, rfl⟩ |
      ⟨writing, entries, log, _⟩
    · exact ih.reserve free (by simpa [leavesPending] using ok)
    · exact ih.write writing
    · apply ih.look writing entries log
      intro i reads
      obtain ⟨B, below, all⟩ := high_water run
      exact ⟨all i (below.reads_lt reads), not_pending_of_reads ok reads⟩

/-- Exactly the slots of pushes in progress are not ready for the read that is next. -/
theorem published_iff {s : State J T S} (h : (machine J T S).Reach leavesPending s)
    {a : Action J T S} {i : Nat} (reads : s.reads a = some i) :
    (∃ job, s.deque.mEntries i = some job ∧ Published i job s.log) ↔ s.pending i = false := by
  have settled := settled h
  constructor
  · rintro ⟨job, _, p, rest, wrote⟩
    by_contra pending
    obtain ⟨q, other, writing⟩ := State.pending_iff.mp ((Bool.not_eq_false _).mp pending)
    obtain ⟨rest', reserved⟩ := settled.pending q i other writing
    exact absurd (wrote.symm.trans reserved) (by simp)
  · intro ready
    obtain ⟨B, below, all⟩ := high_water h
    obtain ⟨job, published, entry⟩ := settled.slot i (all i (below.reads_lt reads)) ready
    exact ⟨job, entry, published⟩

end
end Publication
end JobStealer
