import JobStealer.Interleaving
import JobStealer.LocklessDeque

/-!
# Threads racing on the lockless deque

Every load, store, `fetch_add` and `compare_exchange` on `mFront` and `mBack` and
every read of a slot is one step here, as without `HTL_EXTRA_LOCKS`. The owner
calls `PopFront` and `PushBack`, one other thread `PushBack`, and any number of
thieves `PopBack`. A `PushBack` is one step, and takes place only while a slot is
left. `CanExecute` may answer differently at any time. An operation nobody
interrupts is the function of `LocklessDeque` (`popFront_alone`, `popBack_alone`).

Neither `compare_exchange` looks at the other index. `returned_twice` is the last
job going to both ends; `returned_once` says no job is handed out twice as long
as each exchange that succeeds finds its slot still in the deque, with the job
that was read there. `push_lost` is a push between the comparison of the indices
and the reset; `nothing_lost` says that this is the only way to lose a job
without thieves.
-/

namespace JobStealer
open Interleaving

inductive DequeEvent (J : Type)
  | pushed (job : J)
  | returned (job : J)
  deriving DecidableEq

/-- Where a call of `PopFront` stands: the step it takes next, with its locals. -/
inductive PopFrontPc (J : Type)
  | idle
  | loadBack (allowOpenDependencies : Bool) (front : Nat)
  | readSlot (allowOpenDependencies : Bool) (front : Nat)
  | test (allowOpenDependencies : Bool) (front : Nat) (job : J)
  | exchange (front : Nat) (job : J)
  | reloadFront (front : Nat) (job : J)
  | reloadBack (front now : Nat) (job : J)
  | storeBack (job : J)
  | storeFront (job : J)
  deriving DecidableEq

/-- The job this call has taken out of the deque and will return. -/
def PopFrontPc.carried {J : Type} : PopFrontPc J → Option J
  | .reloadFront _ job | .reloadBack _ _ job | .storeBack job | .storeFront job => some job
  | _ => none

/-- Where a call of `PopBack` stands. -/
inductive PopBackPc (J : Type)
  | idle
  | loadFront (back : Nat)
  | readSlot (back : Nat)
  | test (back : Nat) (job : J)
  | exchange (back : Nat) (job : J)

namespace LocklessDeque
variable {J : Type} (can : J → Bool) (d : LocklessDeque J)

/-- The next step of `PopFront`, and the job it returns with that step. Reading a
slot never written is left undefined. Of the two loads in `mFront == mBack` the
one of `mFront` comes first, which nobody can tell: only the owner stores there. -/
def stepFront : PopFrontPc J → Option (LocklessDeque J × PopFrontPc J × Option J)
  | .idle => none
  | .loadBack allow front =>
    some (d, if front < d.mBack ∧ d.mBack > 0 then .readSlot allow front else .idle, none)
  | .readSlot allow front => (d.mEntries front).map fun job => (d, .test allow front job, none)
  | .test allow front job => some (d, if allow || can job then .exchange front job else .idle, none)
  | .exchange front job =>
    if d.mFront = front then
      some ({ d with mFront := front + 1 }, .reloadFront front job, none)
    else some (d, .idle, none)
  | .reloadFront front job => some (d, .reloadBack front d.mFront job, none)
  | .reloadBack front now job =>
    if now = d.mBack ∧ front ≠ 0 then some (d, .storeBack job, none)
    else some (d, .idle, some job)
  | .storeBack job => some ({ d with mBack := 0 }, .storeFront job, none)
  | .storeFront job => some ({ d with mFront := 0 }, .idle, some job)

/-- The next step of `PopBack`; an idle thief starts one by loading `mBack`. -/
def stepBack : PopBackPc J → Option (LocklessDeque J × PopBackPc J × Option J)
  | .idle => some (d, .loadFront d.mBack, none)
  | .loadFront back => some (d, if d.mFront < back ∧ back > 0 then .readSlot back else .idle, none)
  | .readSlot back => (d.mEntries (back - 1)).map fun job => (d, .test back job, none)
  | .test back job => some (d, if can job then .exchange back job else .idle, none)
  | .exchange back job =>
    if d.mBack = back then some ({ d with mBack := back - 1 }, .idle, some job)
    else some (d, .idle, none)

/-- `PushBack` with its reservation and its write taken together. -/
def push (job : J) : LocklessDeque J :=
  { d with mEntries := Function.update d.mEntries d.mBack (some job), mBack := d.mBack + 1 }

variable {can d}

theorem push_slot (job : J) : (d.push job).mEntries d.mBack = some job :=
  Function.update_self ..

theorem push_other (job : J) {i : Nat} (h : i < d.mBack) :
    (d.push job).mEntries i = d.mEntries i :=
  Function.update_of_ne (Nat.ne_of_lt h) _ _

/-- All a step of `PopFront` can do to the deque. -/
theorem stepFront_cases {pc pc' : PopFrontPc J} {d' : LocklessDeque J} {job : Option J}
    (h : d.stepFront can pc = some (d', pc', job)) :
    (d' = d ∧ job = none ∧ pc'.carried = pc.carried ∧ (∀ j, pc ≠ .storeFront j) ∧
      ∀ j, pc' ≠ .storeFront j) ∨
    (∃ front j, pc = .exchange front j ∧ d.mFront = front ∧
      d' = { d with mFront := front + 1 } ∧ pc' = .reloadFront front j ∧ job = none) ∨
    (∃ front now j, pc = .reloadBack front now j ∧ d' = d ∧ pc' = .idle ∧ job = some j) ∨
    (∃ j, pc = .storeBack j ∧ d' = { d with mBack := 0 } ∧ pc' = .storeFront j ∧ job = none) ∨
    (∃ j, pc = .storeFront j ∧ d' = { d with mFront := 0 } ∧ pc' = .idle ∧ job = some j) := by
  cases pc with
  | idle => cases h
  | loadBack allow front =>
    left
    simp only [stepFront, Option.some.injEq, Prod.mk.injEq] at h
    obtain ⟨rfl, rfl, rfl⟩ := h
    split <;> simp [PopFrontPc.carried]
  | readSlot allow front =>
    left
    simp only [stepFront, Option.map_eq_some_iff, Prod.mk.injEq] at h
    obtain ⟨j, _, rfl, rfl, rfl⟩ := h
    simp [PopFrontPc.carried]
  | test allow front j =>
    left
    simp only [stepFront, Option.some.injEq, Prod.mk.injEq] at h
    obtain ⟨rfl, rfl, rfl⟩ := h
    split <;> simp [PopFrontPc.carried]
  | exchange front j =>
    simp only [stepFront] at h
    split at h
    · rename_i same
      cases h
      exact .inr (.inl ⟨front, j, rfl, same, rfl, rfl, rfl⟩)
    · left
      cases h
      simp [PopFrontPc.carried]
  | reloadFront front j =>
    left
    cases h
    simp [PopFrontPc.carried]
  | reloadBack front now j =>
    simp only [stepFront] at h
    split at h
    · left
      cases h
      simp [PopFrontPc.carried]
    · cases h
      exact .inr (.inr (.inl ⟨front, now, j, rfl, rfl, rfl, rfl⟩))
  | storeBack j =>
    cases h
    exact .inr (.inr (.inr (.inl ⟨j, rfl, rfl, rfl, rfl⟩)))
  | storeFront j =>
    cases h
    exact .inr (.inr (.inr (.inr ⟨j, rfl, rfl, rfl, rfl⟩)))

/-- And a step of `PopBack`. -/
theorem stepBack_cases {pc pc' : PopBackPc J} {d' : LocklessDeque J} {job : Option J}
    (h : d.stepBack can pc = some (d', pc', job)) :
    (d' = d ∧ job = none) ∨
    (∃ back j, pc = .exchange back j ∧ d.mBack = back ∧
      d' = { d with mBack := back - 1 } ∧ pc' = .idle ∧ job = some j) := by
  cases pc with
  | idle =>
    cases h
    exact .inl ⟨rfl, rfl⟩
  | loadFront back | test back j =>
    simp only [stepBack, Option.some.injEq, Prod.mk.injEq] at h
    obtain ⟨rfl, _, rfl⟩ := h
    exact .inl ⟨rfl, rfl⟩
  | readSlot back =>
    simp only [stepBack, Option.map_eq_some_iff, Prod.mk.injEq] at h
    obtain ⟨j, _, rfl, rfl, rfl⟩ := h
    exact .inl ⟨rfl, rfl⟩
  | exchange back j =>
    simp only [stepBack] at h
    split at h
    · rename_i same
      cases h
      exact .inr ⟨back, j, rfl, same, rfl, rfl, rfl⟩
    · cases h
      exact .inl ⟨rfl, rfl⟩

end LocklessDeque

namespace Races

structure State (J T : Type) where
  deque : LocklessDeque J
  can : J → Bool
  owner : PopFrontPc J
  thief : T → PopBackPc J
  log : List (DequeEvent J)

inductive Action (J T : Type)
  | answer (job : J) (canExecute : Bool)
  | runnerPush (job : J)
  | ownerPush (job : J)
  | ownerPop (allowOpenDependencies : Bool)
  | owner
  | thief (t : T)

section
variable {J T : Type}

def noteReturn (job : Option J) (log : List (DequeEvent J)) : List (DequeEvent J) :=
  match job with
  | some job => .returned job :: log
  | none => log

def State.push (s : State J T) (job : J) : State J T :=
  { s with deque := s.deque.push job, log := .pushed job :: s.log }

/-- The front of the deque; 0 already when a reset has stored `mBack` only. -/
def front (s : State J T) : Nat :=
  match s.owner with
  | .storeFront _ => 0
  | _ => s.deque.mFront

theorem front_eq {s : State J T} (h : ∀ j, s.owner ≠ .storeFront j) : front s = s.deque.mFront := by
  unfold front
  split
  · rename_i eq
    exact absurd eq (h _)
  · rfl

theorem front_le (s : State J T) : front s ≤ s.deque.mFront := by
  unfold front
  split
  · exact Nat.zero_le _
  · exact Nat.le_refl _

variable [DecidableEq J] [DecidableEq T]

def step : Action J T → State J T → Option (State J T)
  | .answer job b, s => some { s with can := Function.update s.can job b }
  | .runnerPush job, s => if s.deque.mBack < AMOUNT then some (s.push job) else none
  | .ownerPush job, s =>
    match s.owner with
    | .idle => if s.deque.mBack < AMOUNT then some (s.push job) else none
    | _ => none
  | .ownerPop allow, s =>
    match s.owner with
    | .idle => some { s with owner := .loadBack allow s.deque.mFront }
    | _ => none
  | .owner, s => (s.deque.stepFront s.can s.owner).map fun r =>
    { s with deque := r.1, owner := r.2.1, log := noteReturn r.2.2 s.log }
  | .thief t, s => (s.deque.stepBack s.can (s.thief t)).map fun r =>
    { s with deque := r.1, thief := Function.update s.thief t r.2.1, log := noteReturn r.2.2 s.log }

variable (J T) in
/-- An empty deque, nobody inside an operation. -/
def machine : Machine (State J T) (Action J T) where
  start := ⟨.empty, fun _ => false, .idle, fun _ => .idle, []⟩
  step := step

/-! ## One operation alone -/

theorem pushBack_alone {s : State J T} {job : J} {d : LocklessDeque J}
    (h : s.deque.pushBack job = .ok d) :
    (machine J T).step (.runnerPush job) s =
      some { s with deque := d, log := .pushed job :: s.log } := by
  unfold LocklessDeque.pushBack LocklessDeque.write at h
  split at h
  · rename_i room
    cases h
    exact if_pos room
  · cases h

/-- A `PopFront` nobody interrupts is the function `LocklessDeque.popFront`. -/
theorem popFront_alone {s : State J T} (idle : s.owner = .idle) {allow : Bool} {job : Option J}
    {d : LocklessDeque J} (h : s.deque.popFront s.can allow = .ok (job, d)) :
    ∃ k, (machine J T).run (.ownerPop allow :: .replicate k .owner) s =
      some { s with deque := d, log := noteReturn job s.log } := by
  obtain ⟨deque, can, owner, thief, log⟩ := s
  subst idle
  dsimp only at h ⊢
  unfold LocklessDeque.popFront at h
  split at h
  · rename_i inside
    cases slot : deque.read deque.mFront with
    | error fault =>
      rw [slot] at h
      cases h
    | ok first =>
      have entry := LocklessDeque.read_ok slot
      simp only [slot, bind, Except.bind, pure, Except.pure] at h
      split at h
      · rename_i take
        have take : allow = true ∨ can first = true := by simpa using take
        split at h
        · rename_i last
          cases h
          refine ⟨8, ?_⟩
          simp [Machine.exec, machine, step, LocklessDeque.stepFront, inside, entry, take, last,
            List.replicate, noteReturn]
        · rename_i more
          cases h
          refine ⟨6, ?_⟩
          simp [Machine.exec, machine, step, LocklessDeque.stepFront, inside, entry, take, more,
            List.replicate, noteReturn]
      · rename_i refuse
        have refuse : ¬ (allow = true ∨ can first = true) := by simpa using refuse
        cases h
        refine ⟨3, ?_⟩
        simp [Machine.exec, machine, step, LocklessDeque.stepFront, inside, entry, refuse,
          List.replicate, noteReturn]
  · rename_i outside
    cases h
    refine ⟨1, ?_⟩
    simp [Machine.exec, machine, step, LocklessDeque.stepFront, outside, List.replicate, noteReturn]

theorem popBack_alone {s : State J T} {t : T} (idle : s.thief t = .idle) {job : Option J}
    {d : LocklessDeque J} (h : s.deque.popBack s.can = .ok (job, d)) :
    ∃ k, (machine J T).run (.replicate k (.thief t)) s =
      some { s with deque := d, log := noteReturn job s.log } := by
  obtain ⟨deque, can, owner, thief, log⟩ := s
  dsimp only at idle h ⊢
  have back : Function.update thief t .idle = thief := by
    rw [← idle, Function.update_eq_self]
  unfold LocklessDeque.popBack at h
  split at h
  · rename_i inside
    cases slot : deque.read (deque.mBack - 1) with
    | error fault =>
      rw [slot] at h
      cases h
    | ok last =>
      have entry := LocklessDeque.read_ok slot
      simp only [slot, bind, Except.bind, pure, Except.pure] at h
      split at h
      · rename_i refuse
        have refuse : can last = false := by simpa using refuse
        cases h
        refine ⟨4, ?_⟩
        simp [Machine.exec, machine, step, LocklessDeque.stepBack, idle, inside, entry, refuse,
          back, List.replicate, noteReturn]
      · rename_i take
        have take : can last = true := by simpa using take
        cases h
        refine ⟨5, ?_⟩
        simp [Machine.exec, machine, step, LocklessDeque.stepBack, idle, inside, entry, take, back,
          List.replicate, noteReturn]
  · rename_i outside
    cases h
    refine ⟨2, ?_⟩
    simp [Machine.exec, machine, step, LocklessDeque.stepBack, idle, outside, back, List.replicate,
      noteReturn, -not_and]

/-! ## At most once -/

/-- How many calls returned `job` since its last push. -/
def returns (job : J) : List (DequeEvent J) → Nat
  | [] => 0
  | .pushed i :: log => if i = job then 0 else returns job log
  | .returned i :: log => (if i = job then 1 else 0) + returns job log

/-- Pushed, and not returned since. -/
def outstanding (job : J) : List (DequeEvent J) → Bool
  | [] => false
  | .pushed i :: log => i == job || outstanding job log
  | .returned i :: log => i != job && outstanding job log

theorem returns_of_outstanding {job : J} {log : List (DequeEvent J)}
    (h : outstanding job log = true) : returns job log = 0 := by
  induction log with
  | nil => cases h
  | cons e log ih =>
    cases e with
    | pushed i =>
      by_cases hi : i = job
      · simp [returns, hi]
      · simp only [outstanding, beq_iff_eq, hi, Bool.or_eq_true, false_or] at h
        simp [returns, hi, ih h]
    | returned i =>
      simp only [outstanding, bne_iff_ne, ne_eq, Bool.and_eq_true] at h
      simp [returns, h.1, ih h.2]

theorem outstanding_returned {i job : J} {log : List (DequeEvent J)}
    (h : outstanding i log = true) (other : i ≠ job) :
    outstanding i (.returned job :: log) = true := by
  simp [outstanding, Ne.symm other, h]

theorem of_outstanding_returned {i job : J} {log : List (DequeEvent J)}
    (h : outstanding i (.returned job :: log) = true) : job ≠ i ∧ outstanding i log = true := by
  simpa [outstanding] using h

theorem outstanding_pushed {i : J} {log : List (DequeEvent J)} (job : J)
    (h : outstanding i log = true) : outstanding i (.pushed job :: log) = true := by
  simp [outstanding, h]

theorem push_outstanding (job : J) (log : List (DequeEvent J)) :
    outstanding job (.pushed job :: log) = true := by
  simp [outstanding]

theorem of_outstanding_pushed {i job : J} {log : List (DequeEvent J)}
    (h : outstanding i (.pushed job :: log) = true) : job = i ∨ outstanding i log = true := by
  simpa [outstanding] using h

/-- Seen with this front, the deque holds distinct jobs that are still to be
returned, none of them the one the owner carries, and no job was returned twice. -/
structure Once (front : Nat) (d : LocklessDeque J) (carried : Option J)
    (log : List (DequeEvent J)) : Prop where
  order : front ≤ d.mBack
  held : ∀ i, front ≤ i → i < d.mBack →
    ∃ job, d.mEntries i = some job ∧ carried ≠ some job ∧ outstanding job log = true
  apart : ∀ i k job, front ≤ i → i < d.mBack → front ≤ k → k < d.mBack →
    d.mEntries i = some job → d.mEntries k = some job → i = k
  carrying : ∀ job, carried = some job → outstanding job log = true
  once : ∀ job, returns job log ≤ 1

namespace Once
variable {front : Nat} {d : LocklessDeque J} {carried : Option J} {log : List (DequeEvent J)}
  {job : J}

theorem of_slot (h : Once front d carried log) {i : Nat} (lo : front ≤ i) (hi : i < d.mBack)
    (slot : d.mEntries i = some job) : carried ≠ some job ∧ outstanding job log = true := by
  obtain ⟨j, eq, free, out⟩ := h.held i lo hi
  cases slot.symm.trans eq
  exact ⟨free, out⟩

/-- Nothing is left between the indices. -/
theorem emptied (h : Once front d carried log) {d' : LocklessDeque J} (back : d'.mBack = 0) :
    Once 0 d' carried log := by
  constructor
  case order => exact Nat.zero_le _
  case held =>
    intro i _ hi
    omega
  case apart =>
    intro i _ _ _ hi
    omega
  case carrying => exact h.carrying
  case once => exact h.once

/-- A push of a job that is neither in the deque nor carried. -/
theorem push (h : Once front d carried log) (fresh : outstanding job log = false) :
    Once front (d.push job) carried (.pushed job :: log) := by
  have order := h.order
  have absent {i : Nat} (lo : front ≤ i) (hi : i < d.mBack) : d.mEntries i ≠ some job := by
    intro eq
    rw [(h.of_slot lo hi eq).2] at fresh
    cases fresh
  constructor
  case order => exact Nat.le_succ_of_le order
  case held =>
    intro i lo hi
    rcases Nat.lt_succ_iff_lt_or_eq.mp hi with hi | rfl
    · obtain ⟨j, eq, free, out⟩ := h.held i lo hi
      exact ⟨j, (d.push_other job hi).trans eq, free, outstanding_pushed job out⟩
    · refine ⟨job, d.push_slot job, fun same => ?_, push_outstanding job log⟩
      rw [h.carrying job same] at fresh
      cases fresh
  case apart =>
    intro i k j hi hi' hk hk' eq eq'
    rcases Nat.lt_succ_iff_lt_or_eq.mp hi' with hi' | rfl <;>
      rcases Nat.lt_succ_iff_lt_or_eq.mp hk' with hk' | rfl
    · rw [d.push_other job hi'] at eq
      rw [d.push_other job hk'] at eq'
      exact h.apart i k j hi hi' hk hk' eq eq'
    · rw [d.push_other job hi'] at eq
      rw [d.push_slot job] at eq'
      exact absurd (eq.trans eq'.symm) (absent hi hi')
    · rw [d.push_other job hk'] at eq'
      rw [d.push_slot job] at eq
      exact absurd (eq'.trans eq.symm) (absent hk hk')
    · rfl
  case carrying =>
    intro j hj
    exact outstanding_pushed job (h.carrying j hj)
  case once =>
    intro j
    simp only [returns]
    split
    · exact Nat.zero_le _
    · exact h.once j

theorem once_returned (h : Once front d carried log) (out : outstanding job log = true) (j : J) :
    returns j (.returned job :: log) ≤ 1 := by
  simp only [returns]
  split
  · rename_i same
    subst same
    rw [returns_of_outstanding out]
  · rw [Nat.zero_add]
    exact h.once j

/-- The owner takes what lies at the front. -/
theorem takeFront (h : Once front d none log) (here : front < d.mBack)
    (slot : d.mEntries front = some job) {d' : LocklessDeque J} (back : d'.mBack = d.mBack)
    (entries : d'.mEntries = d.mEntries) : Once (front + 1) d' (some job) log := by
  constructor
  case order => omega
  case held =>
    intro i lo hi
    rw [back] at hi
    rw [entries]
    obtain ⟨j, eq, _, out⟩ := h.held i (by omega) hi
    refine ⟨j, eq, fun same => ?_, out⟩
    cases same
    have := h.apart i front job (by omega) hi (Nat.le_refl _) here eq slot
    omega
  case apart =>
    intro i k j hi hi' hk hk' eq eq'
    rw [back] at hi' hk'
    rw [entries] at eq eq'
    exact h.apart i k j (by omega) hi' (by omega) hk' eq eq'
  case carrying =>
    intro j hj
    cases hj
    exact (h.of_slot (Nat.le_refl _) here slot).2
  case once => exact h.once

/-- The owner returns what it carries. -/
theorem handOver (h : Once front d (some job) log) {d' : LocklessDeque J}
    (back : d'.mBack = d.mBack) (entries : d'.mEntries = d.mEntries) :
    Once front d' none (.returned job :: log) := by
  constructor
  case order => exact h.order.trans_eq back.symm
  case held =>
    intro i lo hi
    rw [back] at hi
    rw [entries]
    obtain ⟨j, eq, free, out⟩ := h.held i lo hi
    refine ⟨j, eq, by simp, outstanding_returned out fun same => ?_⟩
    exact free (congrArg some same.symm)
  case apart =>
    intro i k j hi hi' hk hk' eq eq'
    rw [back] at hi' hk'
    rw [entries] at eq eq'
    exact h.apart i k j hi hi' hk hk' eq eq'
  case carrying =>
    intro j hj
    cases hj
  case once => exact h.once_returned (h.carrying job rfl)

/-- A thief takes and returns what lies at the back. -/
theorem takeBack (h : Once front d carried log) (here : front < d.mBack)
    (slot : d.mEntries (d.mBack - 1) = some job) {d' : LocklessDeque J}
    (back : d'.mBack = d.mBack - 1) (entries : d'.mEntries = d.mEntries) :
    Once front d' carried (.returned job :: log) := by
  obtain ⟨free, out⟩ := h.of_slot (by omega) (by omega) slot
  constructor
  case order => omega
  case held =>
    intro i lo hi
    rw [back] at hi
    rw [entries]
    obtain ⟨j, eq, free, out⟩ := h.held i lo (by omega)
    refine ⟨j, eq, free, outstanding_returned out fun same => ?_⟩
    subst same
    have := h.apart i (d.mBack - 1) j lo (by omega) (by omega) (by omega) eq slot
    omega
  case apart =>
    intro i k j hi hi' hk hk' eq eq'
    rw [back] at hi' hk'
    rw [entries] at eq eq'
    exact h.apart i k j hi (by omega) hk (by omega) eq eq'
  case carrying =>
    intro j hj
    apply outstanding_returned (h.carrying j hj)
    intro same
    subst same
    exact free hj
  case once => exact h.once_returned out

end Once

/-- Pushes are of jobs not in the deque nor being returned, and an exchange that
will succeed finds its slot between the indices, with the job that was read there. -/
def untouched (s : State J T) : Action J T → Bool
  | .runnerPush job | .ownerPush job => !outstanding job s.log
  | .owner =>
    match s.owner with
    | .exchange front job => s.deque.mFront != front ||
      decide (front < s.deque.mBack) && s.deque.mEntries front == some job
    | _ => true
  | .thief t =>
    match s.thief t with
    | .exchange back job => s.deque.mBack != back ||
      decide (s.deque.mFront < back) && s.deque.mEntries (back - 1) == some job
    | _ => true
  | _ => true

theorem step_once {s t : State J T} {a : Action J T}
    (h : Once (front s) s.deque s.owner.carried s.log) (ok : untouched s a = true)
    (move : step a s = some t) : Once (front t) t.deque t.owner.carried t.log := by
  cases a with
  | answer job b =>
    cases move
    exact h
  | runnerPush job =>
    simp only [step, Option.ite_none_right_eq_some, Option.some.injEq] at move
    obtain ⟨_, rfl⟩ := move
    exact h.push (by simpa [untouched] using ok)
  | ownerPush job =>
    simp only [step] at move
    split at move
    · simp only [Option.ite_none_right_eq_some, Option.some.injEq] at move
      obtain ⟨_, rfl⟩ := move
      exact h.push (by simpa [untouched] using ok)
    · cases move
  | ownerPop allow =>
    simp only [step] at move
    split at move
    · rename_i idle
      cases move
      rw [front_eq (by simp [idle]), idle] at h
      exact h
    · cases move
  | owner =>
    simp only [step, Option.map_eq_some_iff] at move
    obtain ⟨⟨d', pc', job⟩, stepped, rfl⟩ := move
    rcases LocklessDeque.stepFront_cases stepped with
      ⟨rfl, rfl, same, pc, pc'⟩ | ⟨front, j, pc, same, rfl, rfl, rfl⟩ |
      ⟨front, now, j, pc, rfl, rfl, rfl⟩ | ⟨j, pc, rfl, rfl, rfl⟩ | ⟨j, pc, rfl, rfl, rfl⟩
    · rw [front_eq pc, ← same] at h
      rw [front_eq pc']
      exact h
    · rw [front_eq (by simp [pc]), same, pc] at h
      simp only [untouched, pc, same, bne_self_eq_false, Bool.false_or, Bool.and_eq_true,
        decide_eq_true_eq, beq_iff_eq] at ok
      exact h.takeFront ok.1 ok.2 rfl rfl
    · rw [front_eq (by simp [pc]), pc] at h
      exact h.handOver rfl rfl
    · rw [pc] at h
      exact h.emptied rfl
    · have reset : front s = 0 := by rw [front, pc]
      rw [reset, pc] at h
      exact h.handOver rfl rfl
  | thief t =>
    simp only [step, Option.map_eq_some_iff] at move
    obtain ⟨⟨d', pc', job⟩, stepped, rfl⟩ := move
    rcases LocklessDeque.stepBack_cases stepped with
      ⟨rfl, rfl⟩ | ⟨back, j, pc, same, rfl, rfl, rfl⟩
    · exact h
    · simp only [untouched, pc, same, bne_self_eq_false, Bool.false_or, Bool.and_eq_true,
        decide_eq_true_eq, beq_iff_eq] at ok
      have below := front_le s
      subst same
      exact h.takeBack (by omega) ok.2 rfl rfl

/-- While no exchange succeeds on a slot that was taken or refilled since it was
read, no job is returned twice between two pushes of it. -/
theorem returned_once {s : State J T}
    (hs : (machine J T).Reach (fun s a => untouched s a = true) s) (job : J) :
    returns job s.log ≤ 1 := by
  have all : Once (front s) s.deque s.owner.carried s.log := by
    refine hs.invariant (I := fun s => Once (front s) s.deque s.owner.carried s.log) ?_
      fun _ _ _ _ ih ok move => step_once ih ok move
    constructor
    case order => exact Nat.le_refl _
    case held =>
      intro i _ hi
      exact absurd hi (Nat.not_lt_zero _)
    case apart =>
      intro i _ _ _ hi
      exact absurd hi (Nat.not_lt_zero _)
    case carrying =>
      intro j hj
      cases hj
    case once =>
      intro j
      exact Nat.zero_le _
  exact all.once job

/-- The owner and two thieves inside their calls at once: both thieves read the last
slot, one of them gets its job and the other is turned away, and the owner gets the
first job. -/
def contended : List (Action Nat Bool) :=
  [.runnerPush 0, .runnerPush 1, .runnerPush 2, .answer 0 true, .answer 2 true, .ownerPop false,
    .owner, .thief false, .thief true, .owner, .thief false, .thief true, .owner, .thief false,
    .thief true, .thief false, .thief true, .thief true, .owner, .thief false, .owner, .owner]

theorem returned_once_contended : ∃ s, (machine Nat Bool).exec (fun s a => untouched s a = true)
      contended (machine Nat Bool).start = some s ∧
    s.log = [.returned 0, .returned 2, .pushed 2, .pushed 1, .pushed 0] ∧
    ∀ job, returns job s.log ≤ 1 := by
  have run : ((machine Nat Bool).exec (fun s a => untouched s a = true) contended
      (machine Nat Bool).start).map State.log =
      some [.returned 0, .returned 2, .pushed 2, .pushed 1, .pushed 0] := by
    decide +kernel
  obtain ⟨s, run, log⟩ := Option.map_eq_some_iff.mp run
  exact ⟨s, run, log, returned_once (Machine.exec_start _ run)⟩

/-- The last job goes to both ends: the thief compares the indices and reads the
slot before the owner takes the job, and `mBack` is still 1 at its exchange. -/
theorem returned_twice : ∃ s, (machine Nat (Fin 1)).Reachable s ∧ returns 0 s.log = 2 := by
  have run : ((machine Nat (Fin 1)).run
      [.answer 0 true, .runnerPush 0, .ownerPop false, .owner, .owner, .owner,
        .thief 0, .thief 0, .thief 0, .thief 0, .owner, .thief 0, .owner, .owner]
      (machine Nat (Fin 1)).start).map (fun s => returns 0 s.log) = some 2 := by
    decide
  obtain ⟨s, hs, twice⟩ := Option.map_eq_some_iff.mp run
  exact ⟨s, Machine.exec_start _ hs, twice⟩

/-! ## None lost -/

/-- What the owner knows inside `PopFront` while it is the only one to move
`mFront` and to lower `mBack`. -/
def OwnerOk (d : LocklessDeque J) : PopFrontPc J → Prop
  | .idle | .storeFront _ => True
  | .loadBack _ front => d.mFront = front
  | .readSlot _ front => d.mFront = front ∧ front < d.mBack
  | .test _ front job | .exchange front job =>
    d.mFront = front ∧ front < d.mBack ∧ d.mEntries front = some job
  | .reloadFront front _ => d.mFront = front + 1
  | .reloadBack _ now _ => d.mFront = now
  | .storeBack _ => d.mFront = d.mBack

/-- Every outstanding job lies between the indices or is carried by the owner. -/
structure Kept (s : State J T) : Prop where
  owner : OwnerOk s.deque s.owner
  order : front s ≤ s.deque.mBack
  kept : ∀ job, outstanding job s.log = true → s.owner.carried = some job ∨
    ∃ i, front s ≤ i ∧ i < s.deque.mBack ∧ s.deque.mEntries i = some job

/-- Anywhere but between the comparison of the indices and the store of `mBack`. -/
def pushable (s : State J T) : Action J T → Bool
  | .runnerPush _ =>
    match s.owner with
    | .storeBack _ => false
    | _ => true
  | _ => true

omit [DecidableEq J] [DecidableEq T] in
theorem ownerOk_push {d : LocklessDeque J} {pc : PopFrontPc J} (job : J) (h : OwnerOk d pc)
    (away : ∀ j, pc ≠ .storeBack j) : OwnerOk (d.push job) pc := by
  cases pc with
  | idle | storeFront j => trivial
  | loadBack allow front => exact h
  | readSlot allow front => exact ⟨h.1, Nat.lt_succ_of_lt h.2⟩
  | test allow front j | exchange front j =>
    exact ⟨h.1, Nat.lt_succ_of_lt h.2.1, (d.push_other job h.2.1).trans h.2.2⟩
  | reloadFront front j => exact h
  | reloadBack front now j => exact h
  | storeBack j => exact absurd rfl (away j)

omit [DecidableEq T] in
theorem Kept.push {s : State J T} (h : Kept s) (job : J) (away : ∀ j, s.owner ≠ .storeBack j) :
    Kept (s.push job) := by
  constructor
  case owner => exact ownerOk_push job h.owner away
  case order => exact Nat.le_succ_of_le h.order
  case kept =>
    intro j out
    rcases of_outstanding_pushed out with rfl | out
    · exact .inr ⟨s.deque.mBack, h.order, Nat.lt_succ_self _, s.deque.push_slot job⟩
    · rcases h.kept j out with carried | ⟨i, lo, hi, slot⟩
      · exact .inl carried
      · exact .inr ⟨i, lo, Nat.lt_succ_of_lt hi, (s.deque.push_other job hi).trans slot⟩

omit [DecidableEq T] in
/-- A step of `PopFront` that leaves the deque alone and returns nothing. -/
theorem Kept.move {s : State J T} (h : Kept s) {pc : PopFrontPc J} (ok : OwnerOk s.deque pc)
    (carried : pc.carried = s.owner.carried)
    (same : front { s with owner := pc } = front s) : Kept { s with owner := pc } := by
  constructor
  case owner => exact ok
  case order => exact same.trans_le h.order
  case kept =>
    intro job out
    rw [same, carried]
    exact h.kept job out

omit [DecidableEq T] in
/-- A step of `PopFront` that returns what the owner carries. -/
theorem Kept.handOver {s : State J T} (h : Kept s) {job : J} (carried : s.owner.carried = some job)
    {d : LocklessDeque J} (back : d.mBack = s.deque.mBack)
    (entries : d.mEntries = s.deque.mEntries) (index : d.mFront = front s) :
    Kept { s with deque := d, owner := .idle, log := .returned job :: s.log } := by
  constructor
  case owner => trivial
  case order => exact (index.trans_le h.order).trans_eq back.symm
  case kept =>
    intro j out
    obtain ⟨other, out⟩ := of_outstanding_returned out
    rcases h.kept j out with mine | ⟨i, lo, hi, slot⟩
    · exact absurd (Option.some.inj (carried.symm.trans mine)) other
    · exact .inr ⟨i, index.trans_le lo, hi.trans_eq back.symm, by rw [entries, slot]⟩

omit [DecidableEq T] in
theorem Kept.owner_step {s : State J T} (h : Kept s) {d : LocklessDeque J} {pc : PopFrontPc J}
    {returned : Option J} (stepped : s.deque.stepFront s.can s.owner = some (d, pc, returned)) :
    Kept { s with deque := d, owner := pc, log := noteReturn returned s.log } := by
  have owner := h.owner
  have order := h.order
  cases here : s.owner with
  | idle =>
    rw [here] at stepped
    cases stepped
  | loadBack allow front =>
    rw [here] at stepped owner
    simp only [LocklessDeque.stepFront, Option.some.injEq, Prod.mk.injEq] at stepped
    obtain ⟨rfl, rfl, rfl⟩ := stepped
    split
    · rename_i inside
      exact h.move ⟨owner, inside.1⟩ (by rw [here]; rfl) (by simp [Races.front, here])
    · exact h.move trivial (by rw [here]; rfl) (by simp [Races.front, here])
  | readSlot allow front =>
    rw [here] at stepped owner
    simp only [LocklessDeque.stepFront, Option.map_eq_some_iff, Prod.mk.injEq] at stepped
    obtain ⟨job, slot, rfl, rfl, rfl⟩ := stepped
    exact h.move ⟨owner.1, owner.2, slot⟩ (by rw [here]; rfl) (by simp [Races.front, here])
  | test allow front job =>
    rw [here] at stepped owner
    simp only [LocklessDeque.stepFront, Option.some.injEq, Prod.mk.injEq] at stepped
    obtain ⟨rfl, rfl, rfl⟩ := stepped
    split
    · exact h.move owner (by rw [here]; rfl) (by simp [Races.front, here])
    · exact h.move trivial (by rw [here]; rfl) (by simp [Races.front, here])
  | exchange front job =>
    rw [here] at stepped owner
    obtain ⟨rfl, inside, slot⟩ := owner
    simp only [LocklessDeque.stepFront, if_true] at stepped
    cases stepped
    constructor
    case owner => rfl
    case order => exact inside
    case kept =>
      intro j out
      rcases h.kept j out with carried | ⟨i, lo, hi, held⟩
      · rw [here] at carried
        cases carried
      · rw [front_eq (by simp [here])] at lo
        rcases Nat.lt_or_eq_of_le lo with lo | rfl
        · exact .inr ⟨i, lo, hi, held⟩
        · exact .inl (slot.symm.trans held)
  | reloadFront front job =>
    rw [here] at stepped
    cases stepped
    exact h.move rfl (by rw [here]; rfl) (by simp [Races.front, here])
  | reloadBack front now job =>
    rw [here] at stepped owner
    simp only [LocklessDeque.stepFront] at stepped
    split at stepped
    · rename_i equal
      cases stepped
      exact h.move (owner.trans equal.1) (by rw [here]; rfl) (by simp [Races.front, here])
    · cases stepped
      exact h.handOver (by rw [here]; rfl) rfl rfl (by simp [Races.front, here])
  | storeBack job =>
    rw [here] at stepped owner
    cases stepped
    constructor
    case owner => trivial
    case order => exact Nat.zero_le _
    case kept =>
      intro j out
      rcases h.kept j out with carried | ⟨i, lo, hi, held⟩
      · rw [here] at carried
        exact .inl carried
      · -- the comparison found the indices equal
        rw [front_eq (by simp [here]), show s.deque.mFront = s.deque.mBack from owner] at lo
        exact absurd hi (Nat.not_lt_of_le lo)
  | storeFront job =>
    rw [here] at stepped
    cases stepped
    exact h.handOver (by rw [here]; rfl) rfl rfl (by simp [Races.front, here])

theorem step_kept {s t : State J Empty} {a : Action J Empty} (h : Kept s)
    (ok : pushable s a = true) (move : step a s = some t) : Kept t := by
  cases a with
  | answer job b =>
    cases move
    exact ⟨h.owner, h.order, h.kept⟩
  | runnerPush job =>
    simp only [step, Option.ite_none_right_eq_some, Option.some.injEq] at move
    obtain ⟨_, rfl⟩ := move
    apply h.push job
    intro j here
    simp [pushable, here] at ok
  | ownerPush job =>
    simp only [step] at move
    split at move
    · rename_i idle
      simp only [Option.ite_none_right_eq_some, Option.some.injEq] at move
      obtain ⟨_, rfl⟩ := move
      exact h.push job (by simp [idle])
    · cases move
  | ownerPop allow =>
    simp only [step] at move
    split at move
    · rename_i idle
      cases move
      exact h.move rfl (by rw [idle]; rfl) (by simp [front, idle])
    · cases move
  | owner =>
    simp only [step, Option.map_eq_some_iff] at move
    obtain ⟨⟨d, pc, returned⟩, stepped, rfl⟩ := move
    exact h.owner_step stepped
  | thief t => exact t.elim

/-- Without thieves, and while no push falls between the owner's comparison of
the indices and its store of `mBack`, every job pushed and not returned since is
in a slot the deque still knows of. -/
theorem nothing_lost {s : State J Empty}
    (hs : (machine J Empty).Reach (fun s a => pushable s a = true) s) (idle : s.owner = .idle)
    (job : J) (pushed : outstanding job s.log = true) :
    ∃ i, s.deque.mFront ≤ i ∧ i < s.deque.mBack ∧ s.deque.mEntries i = some job := by
  have all : Kept s := by
    refine hs.invariant ?_ fun _ _ _ _ ih ok move => step_kept ih ok move
    constructor
    case owner => trivial
    case order => exact Nat.le_refl _
    case kept =>
      intro j out
      cases out
  rcases all.kept job pushed with carried | ⟨i, lo, hi, slot⟩
  · rw [idle] at carried
    cases carried
  · rw [front_eq (by simp [idle])] at lo
    exact ⟨i, lo, hi, slot⟩

theorem nothing_lost_pushed : ∃ s, (machine Nat Empty).Reachable s ∧ s.owner = .idle ∧
    outstanding 1 s.log = true ∧
    ∃ i, s.deque.mFront ≤ i ∧ i < s.deque.mBack ∧ s.deque.mEntries i = some 1 := by
  have run : ((machine Nat Empty).exec (fun s a => pushable s a = true)
      [.answer 0 true, .runnerPush 0, .ownerPop false, .owner, .owner, .owner, .runnerPush 1,
        .owner, .owner, .owner]
      (machine Nat Empty).start).map (fun s => (s.owner, s.log)) =
      some (.idle, [.returned 0, .pushed 1, .pushed 0]) := by
    decide
  obtain ⟨s, hs, same⟩ := Option.map_eq_some_iff.mp run
  obtain ⟨idle, log⟩ := Prod.mk.inj same
  have out : outstanding 1 s.log = true := by
    rw [log]
    decide
  have reach := Machine.exec_start _ hs
  exact ⟨s, reach.reachable, idle, out, nothing_lost reach idle 1 out⟩

/-- The second job to be popped moves the front to 2 = `mBack`; the third is
pushed before the owner stores 0 in both indices. -/
theorem push_lost : ∃ s, (machine Nat Empty).Reachable s ∧ s.owner = .idle ∧
    outstanding 2 s.log = true ∧
    ¬ ∃ i, s.deque.mFront ≤ i ∧ i < s.deque.mBack ∧ s.deque.mEntries i = some 2 := by
  have run : ((machine Nat Empty).run
      [.runnerPush 0, .ownerPop true, .owner, .owner, .owner, .owner, .owner, .owner,
        .runnerPush 1, .ownerPop true, .owner, .owner, .owner, .owner, .owner, .owner,
        .runnerPush 2, .owner, .owner]
      (machine Nat Empty).start).map (fun s => (s.owner, outstanding 2 s.log, s.deque.mBack)) =
      some (.idle, true, 0) := by
    decide
  obtain ⟨s, hs, same⟩ := Option.map_eq_some_iff.mp run
  obtain ⟨idle, out, back⟩ : s.owner = .idle ∧ outstanding 2 s.log = true ∧ s.deque.mBack = 0 := by
    simpa using same
  refine ⟨s, Machine.exec_start _ hs, idle, out, ?_⟩
  rintro ⟨i, _, hi, _⟩
  omega

end
end Races
end JobStealer
