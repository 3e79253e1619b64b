import JobStealer.Publication

/-!
# Which slots are in view

An operation that has loaded both indices goes on to look at the slots they told
it, whatever happens to the deque meanwhile: `PopFront` at the first, `PopBack` at
the last, `HasExecutableJobs` at one after the other. Until then the slot is in
view.

`published`: if the second load of the indices is never taken while it would show
the slot of a push in progress, and no `fetch_add` returns a slot in view, whatever
is read is the job of the last push there. Where a step breaks this rule a thread
can go on and look at a slot before it is written (`exposed`).
-/

namespace JobStealer
open Interleaving

/-- The second load comes next, and sends the call to slot `i`. -/
def PopFrontPc.shown {J : Type} (d : LocklessDeque J) (i : Nat) : PopFrontPc J → Bool
  | .loadBack _ front => i = front ∧ front < d.mBack
  | _ => false

def PopBackPc.shown {J : Type} (d : LocklessDeque J) (i : Nat) : PopBackPc J → Bool
  | .loadFront back => i = back - 1 ∧ d.mFront < back
  | _ => false

namespace ScanPc
variable {J : Type} {pc : ScanPc J} {i : Nat}

/-- Both indices are loaded, and slot `i` has still to be looked at. -/
def view (i : Nat) : ScanPc J → Bool
  | .readSlot k back => i = k ∨ k < i ∧ i < back
  | .test k back _ => k < i ∧ i < back
  | _ => false

def shown (d : LocklessDeque J) (i : Nat) : ScanPc J → Bool
  | .loadFront back => d.mFront ≤ i ∧ i < back
  | _ => false

theorem view_of_reads (h : pc.reads = some i) : pc.view i = true := by
  cases pc with
  | readSlot k back =>
    cases h
    exact decide_eq_true (.inl rfl)
  | _ => cases h

theorem lt_bound_of_view (h : pc.view i = true) : i < pc.bound := by
  cases pc with
  | readSlot k back =>
    rcases of_decide_eq_true h with rfl | ⟨_, before⟩
    · exact lt_max_of_lt_left (Nat.lt_succ_self _)
    · exact lt_max_of_lt_right before
  | test k back job => exact (of_decide_eq_true h).2
  | _ => cases h

end ScanPc

namespace LocklessDeque
variable {J : Type} (can : J → Bool) (d : LocklessDeque J)

/-! A step brings into view what it shows, and nothing else. -/

theorem stepFront_reads (pc : PopFrontPc J) {i : Nat}
    (h : ((d.stepFront can pc).getD (d, pc, none)).2.1.reads = some i) :
    pc.reads = some i ∨ pc.shown d i = true := by
  cases pc with
  | idle => cases h
  | loadBack allow front =>
    right
    simp only [stepFront, Option.getD_some] at h
    split at h
    · rename_i inside
      cases h
      exact decide_eq_true ⟨rfl, inside.1⟩
    · cases h
  | readSlot allow front =>
    left
    cases slot : d.mEntries front with
    | none => simpa [stepFront, slot] using h
    | some job =>
      simp only [stepFront, slot, Option.map_some, Option.getD_some] at h
      cases h
  | test allow front job =>
    simp only [stepFront, Option.getD_some] at h
    split at h <;> cases h
  | exchange front job | reloadBack front now job =>
    simp only [stepFront] at h
    split at h <;> cases h
  | reloadFront front job | storeBack job | storeFront job => cases h

theorem stepBack_reads (pc : PopBackPc J) {i : Nat}
    (h : ((d.stepBack can pc).getD (d, pc, none)).2.1.reads = some i) :
    pc.reads = some i ∨ pc.shown d i = true := by
  cases pc with
  | idle => cases h
  | loadFront back =>
    right
    simp only [stepBack, Option.getD_some] at h
    split at h
    · rename_i inside
      cases h
      exact decide_eq_true ⟨rfl, inside.1⟩
    · cases h
  | readSlot back =>
    left
    cases slot : d.mEntries (back - 1) with
    | none => simpa [stepBack, slot] using h
    | some job =>
      simp only [stepBack, slot, Option.map_some, Option.getD_some] at h
      cases h
  | test back job =>
    simp only [stepBack, Option.getD_some] at h
    split at h <;> cases h
  | exchange back job =>
    simp only [stepBack] at h
    split at h <;> cases h

theorem stepScan_view (pc : ScanPc J) {i : Nat}
    (h : ((d.stepScan can pc).getD pc).view i = true) :
    pc.view i = true ∨ pc.shown d i = true := by
  cases pc with
  | idle | returned b => cases h
  | loadFront back =>
    right
    simp only [stepScan, Option.getD_some] at h
    split at h
    · rename_i inside
      rcases of_decide_eq_true h with rfl | ⟨after, before⟩
      · exact decide_eq_true ⟨Nat.le_refl _, inside⟩
      · exact decide_eq_true ⟨Nat.le_of_lt after, before⟩
    · cases h
  | readSlot k back =>
    left
    cases slot : d.mEntries k with
    | none => simpa [stepScan, slot] using h
    | some job =>
      simp only [stepScan, slot, Option.map_some, Option.getD_some] at h
      exact decide_eq_true (.inr (of_decide_eq_true h))
  | test k back job =>
    left
    simp only [stepScan, Option.getD_some] at h
    split at h
    · cases h
    · split at h
      · rename_i inside
        apply decide_eq_true
        rcases of_decide_eq_true h with rfl | ⟨after, before⟩
        · exact ⟨Nat.lt_succ_self _, inside⟩
        · exact ⟨Nat.lt_of_succ_lt after, before⟩
      · cases h

/-! And it does bring it into view. -/

theorem stepFront_shown {d : LocklessDeque J} {pc : PopFrontPc J} {i : Nat}
    (h : pc.shown d i = true) :
    ((d.stepFront can pc).getD (d, pc, none)).2.1.reads = some i := by
  cases pc with
  | loadBack allow front =>
    obtain ⟨rfl, inside⟩ := of_decide_eq_true h
    simp [stepFront, inside, Nat.zero_lt_of_lt inside, PopFrontPc.reads]
  | _ => cases h

theorem stepBack_shown {d : LocklessDeque J} {pc : PopBackPc J} {i : Nat}
    (h : pc.shown d i = true) :
    ((d.stepBack can pc).getD (d, pc, none)).2.1.reads = some i := by
  cases pc with
  | loadFront back =>
    obtain ⟨rfl, inside⟩ := of_decide_eq_true h
    simp [stepBack, inside, Nat.zero_lt_of_lt inside, PopBackPc.reads]
  | _ => cases h

theorem stepScan_shown {d : LocklessDeque J} {pc : ScanPc J} {i : Nat}
    (h : pc.shown d i = true) : ((d.stepScan can pc).getD pc).view i = true := by
  cases pc with
  | loadFront back =>
    obtain ⟨after, before⟩ := of_decide_eq_true h
    have inside : d.mFront < back := Nat.lt_of_le_of_lt after before
    simp only [stepScan, if_pos inside, Option.getD_some]
    apply decide_eq_true
    rcases Nat.eq_or_lt_of_le after with rfl | after
    · exact .inl rfl
    · exact .inr ⟨after, before⟩
  | _ => cases h

end LocklessDeque

namespace Publication
variable {J T S : Type}

namespace State

/-- Some operation has loaded both indices and has still to look at slot `i`. -/
def inView (s : State J T S) (i : Nat) : Prop :=
  s.front.reads = some i ∨ (∃ t, (s.back t).reads = some i) ∨ ∃ t, (s.scan t).view i = true

/-- The step loads the second index, and puts slot `i` in view. -/
def shows (s : State J T S) (i : Nat) : Action J T S → Bool
  | .owner => s.front.shown s.deque i
  | .thief t => (s.back t).shown s.deque i
  | .scanner t => (s.scan t).shown s.deque i
  | _ => false

/-- The slot the `fetch_add` of a `PushBack` returns. -/
def reserves (s : State J T S) : Action J T S → Option Nat
  | .reserve _ _ => some s.deque.mBack
  | _ => none

theorem inView_of_reads {s : State J T S} {a : Action J T S} {i : Nat} (h : s.reads a = some i) :
    s.inView i := by
  cases a with
  | owner => exact .inl h
  | thief t => exact .inr (.inl ⟨t, h⟩)
  | scanner t => exact .inr (.inr ⟨t, ScanPc.view_of_reads h⟩)
  | _ => cases h

end State

/-- No load of the indices shows the slot of a `PushBack` in progress, and no
`fetch_add` returns such a slot or one in view. -/
def outOfView (s : State J T S) (a : Action J T S) : Prop :=
  (∀ i, s.pending i = true → s.shows i a = false) ∧
    ∀ i ∈ s.reserves a, s.pending i = false ∧ ¬ s.inView i

instance [Fintype T] [Fintype S] (s : State J T S) (a : Action J T S) :
    Decidable (outOfView s a) :=
  have pushes : Decidable (∀ i, s.pending i = true → s.shows i a = false) :=
    decidable_of_iff (∀ p ∈ [Pusher.owner, .runner], ∀ r ∈ s.writing p, s.shows r.1 a = false) <| by
      constructor
      · intro h i pending
        obtain ⟨p, job, writing⟩ := State.pending_iff.mp pending
        exact h p (by cases p <;> simp) (i, job) writing
      · intro h p _ r writing
        exact h r.1 (State.pending_iff.mpr ⟨p, r.2, writing⟩)
  have views (i : Nat) : Decidable (s.inView i) := inferInstanceAs (Decidable (_ ∨ _ ∨ _))
  inferInstanceAs (Decidable (_ ∧ _))

variable [DecidableEq J] [DecidableEq T] [DecidableEq S]
variable {s s' : State J T S} {a : Action J T S} {i : Nat}

theorem step_inView (move : step a s = some s') (h : s'.inView i) :
    s.inView i ∨ s.shows i a = true := by
  cases a with
  | answer job b =>
    cases move
    exact .inl h
  | reserve p job =>
    simp only [step, Option.ite_none_right_eq_some, Option.some.injEq] at move
    obtain ⟨_, rfl⟩ := move
    exact .inl h
  | write p =>
    simp only [step, Option.map_eq_some_iff] at move
    obtain ⟨r, _, rfl⟩ := move
    exact .inl h
  | popFront allow =>
    simp only [step, Option.ite_none_right_eq_some, Option.some.injEq] at move
    obtain ⟨_, rfl⟩ := move
    rcases h with front | others
    · cases front
    · exact .inl (.inr others)
  | owner =>
    simp only [step, Option.ite_none_left_eq_some, Option.some.injEq] at move
    obtain ⟨_, rfl⟩ := move
    rcases h with front | others
    · exact (s.deque.stepFront_reads s.can s.front front).imp_left .inl
    · exact .inl (.inr others)
  | thief t =>
    cases move
    rcases h with front | ⟨u, back⟩ | scan
    · exact .inl (.inl front)
    · by_cases same : u = t
      · subst same
        dsimp only at back
        rw [Function.update_self] at back
        exact (s.deque.stepBack_reads s.can (s.back u) back).imp_left fun old => .inr (.inl ⟨u, old⟩)
      · dsimp only at back
        rw [Function.update_of_ne same] at back
        exact .inl (.inr (.inl ⟨u, back⟩))
    · exact .inl (.inr (.inr scan))
  | scanner t =>
    cases move
    rcases h with front | back | ⟨u, scan⟩
    · exact .inl (.inl front)
    · exact .inl (.inr (.inl back))
    · by_cases same : u = t
      · subst same
        dsimp only at scan
        rw [Function.update_self] at scan
        exact (s.deque.stepScan_view s.can (s.scan u) scan).imp_left fun old => .inr (.inr ⟨u, old⟩)
      · dsimp only at scan
        rw [Function.update_of_ne same] at scan
        exact .inl (.inr (.inr ⟨u, scan⟩))

/-! ## The slots of pushes in progress stay out of view -/

omit [DecidableEq J] [DecidableEq T] [DecidableEq S] in
theorem pending_reserve {p : Pusher} {job : J} (h : (s.reserve p job).pending i = true) :
    i = s.deque.mBack ∨ s.pending i = true := by
  obtain ⟨q, other, writing⟩ := State.pending_iff.mp h
  by_cases same : q = p
  · subst same
    rw [State.reserve_writing_self] at writing
    cases writing
    exact .inl rfl
  · rw [State.reserve_writing_other same] at writing
    exact .inr (State.pending_iff.mpr ⟨q, other, writing⟩)

omit [DecidableEq J] [DecidableEq T] [DecidableEq S] in
theorem pending_write {p : Pusher} {job : J} {k : Nat} (h : (s.write p k job).pending i = true) :
    s.pending i = true := by
  obtain ⟨q, other, writing⟩ := State.pending_iff.mp h
  by_cases same : q = p
  · subst same
    rw [State.write_writing_self] at writing
    cases writing
  · rw [State.write_writing_other same] at writing
    exact State.pending_iff.mpr ⟨q, other, writing⟩

/-- Nobody is on the way to a slot that waits for its write. -/
def Hidden (s : State J T S) : Prop := ∀ i, s.pending i = true → ¬ s.inView i

theorem step_hidden (h : Hidden s) (ok : outOfView s a) (move : step a s = some s') :
    Hidden s' := by
  intro i pending view
  rcases step_cases move with ⟨p, job, rfl, _, rfl⟩ | ⟨p, k, job, rfl, _, rfl⟩ | ⟨writing, _⟩
  · rcases pending_reserve pending with rfl | old
    · exact (ok.2 s.deque.mBack rfl).2 view
    · exact h i old view
  · exact h i (pending_write pending) view
  · have pending : s.pending i = true := by
      rw [State.pending, writing] at pending
      exact pending
    rcases step_inView move view with old | shown
    · exact h i pending old
    · exact absurd shown (by simp [ok.1 i pending])

theorem hidden (h : (machine J T S).Reach outOfView s) : Hidden s := by
  apply h.invariant (I := Hidden)
  · intro i pending
    cases pending
  · intro s s' a _ ih ok move
    exact step_hidden ih ok move

omit [DecidableEq J] [DecidableEq T] [DecidableEq S] in
/-- So none of them is read before its write. -/
theorem Hidden.leavesPending (h : Hidden s) (apart : ∀ i ∈ s.reserves a, s.pending i = false) :
    leavesPending s a := by
  have reads (i : Nat) (read : s.reads a = some i) : s.pending i = false := by
    by_contra pending
    exact h i ((Bool.not_eq_false _).mp pending) (State.inView_of_reads read)
  cases a with
  | reserve p job => simpa [Publication.leavesPending] using apart s.deque.mBack rfl
  | _ => simpa [Publication.leavesPending, Option.all_eq_true] using reads

theorem reach_leavesPending (h : (machine J T S).Reach outOfView s) :
    (machine J T S).Reach leavesPending s := by
  have run : (machine J T S).Reach (fun s a => outOfView s a ∧ leavesPending s a) s := by
    apply h.strengthen
    intro s a run ok
    exact (hidden run).leavesPending fun i same => (ok.2 i same).1
  exact run.mono fun _ _ ok => ok.2

/-! ## What is in view can be read -/

/-- A scanner is told that a job cannot be executed, and goes on. -/
theorem refuse_next {t : S} {k back : Nat} {job : J} (here : s.scan t = .test k back job)
    (inside : k + 1 < back) : ∃ u, ((machine J T S).after s).Reachable u ∧
      u.deque = s.deque ∧ u.writing = s.writing ∧ u.scan t = .readSlot (k + 1) back := by
  have run : ∃ u, (machine J T S).run [.answer job false, .scanner t] s = some u ∧
      u.deque = s.deque ∧ u.writing = s.writing ∧ u.scan t = .readSlot (k + 1) back := by
    refine ⟨_, rfl, rfl, rfl, ?_⟩
    simp [here, LocklessDeque.stepScan, inside]
  obtain ⟨u, run, rest⟩ := run
  exact ⟨u, Machine.exec_start _ ((Machine.exec_after s _ s).trans run), rest⟩

/-- A scanner comes to the first slot in its view that waits for its write. -/
theorem scan_exposed {t : S} {k back : Nat} (here : s.scan t = .readSlot k back)
    (view : (s.scan t).view i = true) (pending : s.pending i = true)
    (ready : ∀ j < i, s.pending j = false → ∃ job, s.deque.mEntries j = some job) :
    ∃ u j, ((machine J T S).after s).Reachable u ∧ u.reads (.scanner t) = some j ∧
      u.pending j = true := by
  generalize far : i - k = distance
  induction distance generalizing s k with
  | zero =>
    rw [here] at view
    have same : i = k := by
      rcases of_decide_eq_true view with same | ⟨after, _⟩
      · exact same
      · omega
    exact ⟨s, i, .start, by rw [State.reads, here, ScanPc.reads, same], pending⟩
  | succ distance ih =>
    by_cases waits : s.pending k = true
    · exact ⟨s, k, .start, by rw [State.reads, here, ScanPc.reads], waits⟩
    · rw [here] at view
      obtain ⟨after, before⟩ := (of_decide_eq_true view).resolve_left (by omega)
      obtain ⟨job, slot⟩ := ready k after (by simpa using waits)
      have read : ∃ u, (machine J T S).step (.scanner t) s = some u ∧ u.deque = s.deque ∧
          u.writing = s.writing ∧ u.scan t = .test k back job := by
        refine ⟨_, rfl, rfl, rfl, ?_⟩
        simp [here, slot, LocklessDeque.stepScan]
      obtain ⟨v, move, deque, writing, there⟩ := read
      obtain ⟨w, run, deque', writing', there'⟩ := refuse_next there (by omega)
      have same (j : Nat) : w.pending j = s.pending j := by
        rw [State.pending, State.pending, writing', writing]
      obtain ⟨u, j, rest, reads, waits⟩ := ih there'
        (by rw [there', ScanPc.view]; exact decide_eq_true (by omega))
        ((same i).trans pending)
        (fun j less settled => by rw [deque', deque]; exact ready j less ((same j) ▸ settled))
        (by omega)
      have first : ((machine J T S).after s).Reachable v :=
        .next (a := .scanner t) .start trivial move
      exact ⟨u, j, (first.trans run).trans rest, reads, waits⟩

/-- A slot in view that waits for its write: somebody comes to read such a slot. -/
theorem view_exposed (h : (machine J T S).Reach leavesPending s) (pending : s.pending i = true)
    (view : s.inView i) : ∃ u b j, ((machine J T S).after s).Reachable u ∧
      u.reads b = some j ∧ u.pending j = true := by
  rcases view with front | ⟨t, back⟩ | ⟨t, scan⟩
  · exact ⟨s, .owner, i, .start, front, pending⟩
  · exact ⟨s, .thief t, i, .start, back, pending⟩
  · obtain ⟨B, below, all⟩ := high_water h
    have inside : i < B := Nat.lt_of_lt_of_le (ScanPc.lt_bound_of_view scan) (below.scan t)
    have ready (j : Nat) (less : j < i) (settled : s.pending j = false) :
        ∃ job, s.deque.mEntries j = some job := by
      obtain ⟨job, _, entry⟩ := (Publication.settled h).slot j (all j (less.trans inside)) settled
      exact ⟨job, entry⟩
    cases here : s.scan t with
    | readSlot k back =>
      obtain ⟨u, j, run, reads, waits⟩ := scan_exposed here scan pending ready
      exact ⟨u, .scanner t, j, run, reads, waits⟩
    | test k back job =>
      rw [here] at scan
      obtain ⟨after, before⟩ := of_decide_eq_true scan
      obtain ⟨v, run, deque, writing, there⟩ := refuse_next here (by omega)
      have same (j : Nat) : v.pending j = s.pending j := by
        rw [State.pending, State.pending, writing]
      obtain ⟨u, j, rest, reads, waits⟩ := scan_exposed there
        (by rw [there, ScanPc.view]; exact decide_eq_true (by omega)) ((same i).trans pending)
        (fun j less settled => by rw [deque]; exact ready j less ((same j) ▸ settled))
      exact ⟨u, .scanner t, j, run.trans rest, reads, waits⟩
    | _ =>
      rw [here] at scan
      cases scan

theorem step_shows (move : step a s = some s') (h : s.shows i a = true) :
    s'.inView i ∧ s'.writing = s.writing := by
  cases a with
  | owner =>
    simp only [step, Option.ite_none_left_eq_some, Option.some.injEq] at move
    obtain ⟨_, rfl⟩ := move
    exact ⟨.inl (LocklessDeque.stepFront_shown s.can h), rfl⟩
  | thief t =>
    cases move
    refine ⟨.inr (.inl ⟨t, ?_⟩), rfl⟩
    dsimp only
    rw [Function.update_self]
    exact LocklessDeque.stepBack_shown s.can h
  | scanner t =>
    cases move
    refine ⟨.inr (.inr ⟨t, ?_⟩), rfl⟩
    dsimp only
    rw [Function.update_self]
    exact LocklessDeque.stepScan_shown s.can h
  | _ => cases h

/-- A step that breaks the rule gives one slot to two pushes, or there is a way on
from it to a read of a slot that waits for its write. -/
theorem exposed (h : (machine J T S).Reach outOfView s) (broken : ¬ outOfView s a)
    (move : step a s = some s') :
    (∃ i ∈ s.reserves a, s.pending i = true) ∨
    ∃ u b j, ((machine J T S).after s').Reachable u ∧ u.reads b = some j ∧ u.pending j = true := by
  by_cases twice : ∃ i ∈ s.reserves a, s.pending i = true
  · exact .inl twice
  · right
    have apart : ∀ i ∈ s.reserves a, s.pending i = false := by
      intro i same
      by_contra pending
      exact twice ⟨i, same, (Bool.not_eq_false _).mp pending⟩
    have run : (machine J T S).Reach leavesPending s' :=
      .next (reach_leavesPending h) ((hidden h).leavesPending apart) move
    by_cases shown : ∀ i, s.pending i = true → s.shows i a = false
    · have taken : ∃ i ∈ s.reserves a, s.inView i := by
        by_contra free
        exact broken ⟨shown, fun i same => ⟨apart i same, fun view => free ⟨i, same, view⟩⟩⟩
      obtain ⟨i, same, view⟩ := taken
      cases a with
      | reserve p job =>
        cases same
        simp only [step, Option.ite_none_right_eq_some, Option.some.injEq] at move
        obtain ⟨_, rfl⟩ := move
        exact view_exposed run
          (State.pending_iff.mpr ⟨p, job, State.reserve_writing_self⟩) view
      | _ => cases same
    · push Not at shown
      obtain ⟨i, pending, shown⟩ := shown
      obtain ⟨view, writing⟩ := step_shows move (by simpa using shown)
      refine view_exposed (i := i) run ?_ view
      rwa [State.pending, writing]

/-- As long as the slots of pushes in progress are out of view, every slot that is
read has been written since its last reservation, and the job read there is the one
that push wrote. -/
theorem published (h : (machine J T S).Reach outOfView s) {later earlier : List (SlotEvent J)}
    {slot : Option J} (read : s.log = later ++ .read i slot :: earlier) :
    ∃ job, slot = some job ∧ Published i job earlier :=
  (settled (reach_leavesPending h)).reads later earlier i slot read

/-- A scanner and a `PopFront` are on the way to slot 0 when the runner reserves
slot 1, and read slot 0 before slot 1 is written; a thief has loaded `mBack` by then,
but `mFront` only after the write. -/
def overlapping : List (Action Nat Unit Unit) :=
  [.reserve .owner 7, .write .owner, .popFront true, .scanner (), .scanner (), .reserve .runner 8,
    .owner, .scanner (), .owner, .thief (), .write .runner, .thief (), .thief ()]

theorem published_overlapping : ∃ s : State Nat Unit Unit,
    (machine Nat Unit Unit).exec outOfView overlapping (machine Nat Unit Unit).start = some s ∧
    s.log = [.read 1 (some 8), .wrote .runner 1 8, .read 0 (some 7), .read 0 (some 7),
      .reserved .runner 1, .wrote .owner 0 7, .reserved .owner 0] ∧
    ∀ later earlier i slot, s.log = later ++ .read i slot :: earlier →
      ∃ job, slot = some job ∧ Published i job earlier := by
  have run : ∃ s, (machine Nat Unit Unit).exec outOfView overlapping
      (machine Nat Unit Unit).start = some s ∧
      s.log = [.read 1 (some 8), .wrote .runner 1 8, .read 0 (some 7), .read 0 (some 7),
        .reserved .runner 1, .wrote .owner 0 7, .reserved .owner 0] := ⟨_, rfl, rfl⟩
  obtain ⟨s, run, log⟩ := run
  exact ⟨s, run, log, fun _ _ _ _ read => published (Machine.exec_start _ run) read⟩

/-- `WakeUp` looks at the slot between the `fetch_add` of a push and its write. The
slot was never written; later it still holds the job of the push before. -/
theorem read_reserved :
    (∃ s : State Nat Unit Unit,
      (machine Nat Unit Unit).run [.reserve .runner 7, .scanner (), .scanner (), .scanner ()]
        (machine Nat Unit Unit).start = some s ∧
      s.log = [.read 0 none, .reserved .runner 0]) ∧
    ∃ s : State Nat Unit Unit,
      (machine Nat Unit Unit).run [.reserve .runner 7, .write .runner, .answer 7 true,
        .thief (), .thief (), .thief (), .thief (), .thief (),
        .reserve .runner 8, .scanner (), .scanner (), .scanner ()]
        (machine Nat Unit Unit).start = some s ∧
      s.log = [.read 0 (some 7), .reserved .runner 0, .read 0 (some 7), .wrote .runner 0 7,
        .reserved .runner 0] :=
  ⟨⟨_, rfl, rfl⟩, _, rfl, rfl⟩

end Publication
end JobStealer
