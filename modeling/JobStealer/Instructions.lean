import JobStealer.Execution
import JobStealer.LockingDeque
import JobStealer.Threads

/-!
# The steps threads take on shared memory

One `Instr` is what a thread does in one step, with where it goes next for every
answer. A deque operation is one step, as under `mJobDequeMutex`; so is every load
and store of a flag, every operation on a counter, and every operation on
`mAwakeMutex` and `mAwakeCondition`. `exec` is the only definition that changes
the shared state.

* what can change a part of that state: `exec_flag`, `exec_deque`,
  `exec_canExecute`, `exec_asleep`, `exec_log`;
* what the code of a thread may do at a program point (`Leaves`, `Tracks`, `Takes`,
  `Moves`, `Locks`, `Runs`), each with an `exec` lemma saying what a step then does.
-/

namespace JobStealer
open Interleaving

variable {n N : Nat} {g : Graph n}

inductive Thread (N : Nat)
  | worker (i : Fin N)
  | runner
  | main
  deriving DecidableEq

def Thread.equiv (N : Nat) : Thread N ≃ Fin N ⊕ Bool where
  toFun
    | .worker i => .inl i
    | .runner => .inr false
    | .main => .inr true
  invFun
    | .inl i => .worker i
    | .inr false => .runner
    | .inr true => .main
  left_inv t := by cases t <;> rfl
  right_inv x := by
    cases x with
    | inl i =>
      rfl
    | inr b =>
      cases b <;> rfl

instance : Fintype (Thread N) := Fintype.ofEquiv _ (Thread.equiv N).symm

theorem Thread.sum_eq (f : Thread N → Nat) :
    ∑ t, f t = ∑ w, f (.worker w) + (f .runner + f .main) := by
  rw [← (Thread.equiv N).symm.sum_comp, Fintype.sum_sum_type, Fintype.sum_bool,
    add_comm (f .runner)]
  rfl

/-- The atomic flags and, as flags, the `JobSystem` pointer of a worker and the
ends of the threads. -/
inductive Flag (N : Nat)
  | mRunning (i : Fin N)
  | mJobRunning (i : Fin N)
  | JobSystem (i : Fin N)
  | isRunning
  /-- the runner thread was created -/
  | created
  | ended (t : Thread N)
  deriving DecidableEq

/-- How worker `i` stands at its condition variable, where nobody else waits. -/
inductive Waiter
  | awake
  | asleep
  | notified
  deriving DecidableEq

/-- The deque of a worker is a `LockingDeque` whatever the build: it has no bound, and
its operations are atomic. -/
structure Shared (g : Graph n) (N : Nat) where
  jobs : Jobs g
  flag : Flag N → Bool
  mJobDeque : Fin N → LockingDeque (Fin n)
  mAwakeMutex : Fin N → Option (Thread N)
  mAwakeCondition : Fin N → Waiter

/-- A `CanExecute()` that answered true, if one did. -/
def Jobs.observe (m : Jobs g) : Option (Fin n) → Jobs g
  | some job => m.note (.observed job)
  | none => m

theorem Jobs.mem_observe (m : Jobs g) {o : Option (Fin n)} {job : Fin n} (h : o = some job) :
    .observed job ∈ (m.observe o).log := by
  subst h
  exact List.mem_cons_self ..

theorem Execution.observe {m : Jobs g} {calls : Thread N → Call n} {o : Option (Fin n)}
    (reached : (machine g (Thread N)).Reachable ⟨m, calls⟩)
    (can : ∀ job ∈ o, m.canExecute job = true) :
    (machine g (Thread N)).Reachable ⟨m.observe o, calls⟩ := by
  cases o with
  | none => exact reached
  | some job =>
    apply reached.next (a := .observe job) trivial
    simp [machine, step, can job rfl, Jobs.observe]

@[simp] theorem Jobs.observe_finished (m : Jobs g) (o : Option (Fin n)) (job : Fin n) :
    (m.observe o).log.count (.finished job) = m.log.count (.finished job) := by
  cases o <;> simp [Jobs.observe]

@[simp] theorem Jobs.observe_canExecute (m : Jobs g) (o : Option (Fin n)) :
    (m.observe o).canExecute = m.canExecute := by
  cases o <;> rfl

/-- How many copies of `job` are in the deques or done with. -/
def Shared.copies (s : Shared g N) (job : Fin n) : Nat :=
  ∑ i, (s.mJobDeque i).mJobDeque.count job + s.jobs.log.count (.finished job)

/-- A step on the deque of worker `i`, which finishes nothing. -/
theorem Shared.copies_set (s : Shared g N) (i : Fin N) (d : LockingDeque (Fin n)) (job : Fin n)
    {m : Jobs g} (same : m.log.count (.finished job) = s.jobs.log.count (.finished job)) :
    { s with mJobDeque := Function.update s.mJobDeque i d, jobs := m }.copies job +
      (s.mJobDeque i).mJobDeque.count job = s.copies job + d.mJobDeque.count job := by
  have total := sum_update s.mJobDeque i d fun _ d => d.mJobDeque.count job
  simp only [copies, same]
  omega

inductive Instr (n N : Nat) (α : Type)
  | skip (next : α)
  | rand (next : Nat → α)
  | halt
  -- flags
  | load (f : Flag N) (next : Bool → α)
  | store (f : Flag N) (b : Bool) (next : α)
  | await (f : Flag N) (next : α)
  -- `mJobDeque` of worker `i`
  | size (i : Fin N) (next : Nat → α)
  | hasExecutableJobs (i : Fin N) (next : Bool → α)
  | pushFront (i : Fin N) (job : Fin n) (next : α)
  | pushBack (i : Fin N) (job : Fin n) (next : α)
  | popFront (i : Fin N) (allowOpenDependencies : Bool) (next : Option (Fin n) → α)
  | popBack (i : Fin N) (next : Option (Fin n) → α)
  | clear (i : Fin N) (next : α)
  -- jobs; `call` is the next step of an `Execute` in progress
  | canExecute (job : Fin n) (next : Bool → α)
  | isFinished (job : Fin n) (next : Bool → α)
  | start (job : Fin n) (next : α)
  | call (c : Call n) (next : Call n → α)
  -- `mAwakeMutex` and `mAwakeCondition` of worker `i`; `wait` releases and blocks
  | lock (i : Fin N) (next : α)
  | unlock (i : Fin N) (next : α)
  | notify (i : Fin N) (next : α)
  | wait (i : Fin N) (next : α)
  | wake (i : Fin N) (next : α)

namespace Instr
variable {α : Type}

/-- Thread `t` takes the step, `random` being what `rand()` returns. `none` where
it is blocked. A blocked wait may end at any time, notified or not. -/
def exec (t : Thread N) (random : Nat) (s : Shared g N) :
    Instr n N α → Option (α × Shared g N)
  | .skip next => some (next, s)
  | .rand next => some (next random, s)
  | .halt => none
  | .load f next => some (next (s.flag f), s)
  | .store f b next => some (next, { s with flag := Function.update s.flag f b })
  | .await f next => if s.flag f then some (next, s) else none
  | .size i next => some (next (s.mJobDeque i).size, s)
  | .hasExecutableJobs i next =>
    some (next ((s.mJobDeque i).hasExecutableJobs s.jobs.canExecute), s)
  | .pushFront i job next => some (next,
    { s with mJobDeque := Function.update s.mJobDeque i ((s.mJobDeque i).pushFront job) })
  | .pushBack i job next => some (next,
    { s with mJobDeque := Function.update s.mJobDeque i ((s.mJobDeque i).pushBack job) })
  | .popFront i allow next =>
    let r := (s.mJobDeque i).popFront s.jobs.canExecute allow
    some (next r.1, { s with
      mJobDeque := Function.update s.mJobDeque i r.2
      jobs := s.jobs.observe (if allow then none else r.1) })
  | .popBack i next =>
    let r := (s.mJobDeque i).popBack s.jobs.canExecute
    some (next r.1, { s with
      mJobDeque := Function.update s.mJobDeque i r.2
      jobs := s.jobs.observe r.1 })
  | .clear i next => some (next,
    { s with mJobDeque := Function.update s.mJobDeque i (s.mJobDeque i).clear })
  | .canExecute job next =>
    let can := s.jobs.canExecute job
    some (next can, { s with jobs := s.jobs.observe (if can then some job else none) })
  | .isFinished job next => some (next (s.jobs.isFinished job), s)
  | .start job next => some (next, { s with jobs := s.jobs.note (.started job) })
  | .call c next => (Execution.advance s.jobs c).map fun r => (next r.2, { s with jobs := r.1 })
  | .lock i next =>
    if s.mAwakeMutex i = none then
      some (next, { s with mAwakeMutex := Function.update s.mAwakeMutex i (some t) })
    else none
  | .unlock i next =>
    some (next, { s with mAwakeMutex := Function.update s.mAwakeMutex i none })
  | .notify i next => some (next, { s with
    mAwakeCondition := Function.update s.mAwakeCondition i
      (if s.mAwakeCondition i = .asleep then .notified else s.mAwakeCondition i) })
  | .wait i next => some (next, { s with
    mAwakeMutex := Function.update s.mAwakeMutex i none
    mAwakeCondition := Function.update s.mAwakeCondition i .asleep })
  | .wake i next => some (next,
    { s with mAwakeCondition := Function.update s.mAwakeCondition i .awake })

/-- Wherever the instruction may lead, `P` holds there. -/
def All (P : α → Prop) : Instr n N α → Prop
  | .skip next | .store _ _ next | .await _ next | .pushFront _ _ next | .pushBack _ _ next
  | .clear _ next | .start _ next | .lock _ next | .unlock _ next | .notify _ next
  | .wait _ next | .wake _ next => P next
  | .load _ next | .hasExecutableJobs _ next | .canExecute _ next | .isFinished _ next =>
    ∀ b, P (next b)
  | .rand next | .size _ next => ∀ k, P (next k)
  | .popFront _ _ next | .popBack _ next => ∀ job, P (next job)
  | .call _ next => ∀ c, P (next c)
  | .halt => True

variable {instr : Instr n N α} {t : Thread N} {random : Nat} {s s' : Shared g N} {x : α}

theorem exec_await {f : Flag N} {next : α}
    (move : (await f next : Instr n N α).exec t random s = some (x, s')) :
    s.flag f = true ∧ next = x ∧ s = s' := by
  simpa [exec] using move

theorem exec_lock {i : Fin N} {next : α}
    (move : (lock i next : Instr n N α).exec t random s = some (x, s')) :
    s.mAwakeMutex i = none ∧ next = x ∧
      { s with mAwakeMutex := Function.update s.mAwakeMutex i (some t) } = s' := by
  simpa [exec] using move

theorem exec_call {c : Call n} {next : Call n → α}
    (move : (call c next).exec t random s = some (x, s')) :
    ∃ m c', Execution.advance s.jobs c = some (m, c') ∧ next c' = x ∧
      { s with jobs := m } = s' := by
  simpa [exec] using move

theorem All.exec {P : α → Prop} (h : instr.All P) (move : instr.exec t random s = some (x, s')) :
    P x := by
  cases instr with
  | halt => cases move
  | await f next =>
    obtain ⟨_, rfl, _⟩ := exec_await move
    exact h
  | lock i next =>
    obtain ⟨_, rfl, _⟩ := exec_lock move
    exact h
  | call c next =>
    obtain ⟨_, c', _, rfl, _⟩ := exec_call move
    exact h c'
  | skip next | store f b next | pushFront i job next | pushBack i job next | clear i next
  | start job next | unlock i next | notify i next | wait i next | wake i next =>
    cases move
    exact h
  | rand next | load f next | size i next | hasExecutableJobs i next | popFront i allow next
  | popBack i next | canExecute job next | isFinished job next =>
    cases move
    exact h _

/-! ## Flags -/

theorem exec_flag (move : instr.exec t random s = some (x, s')) :
    s'.flag = s.flag ∨ ∃ f b, instr = .store f b x ∧ s'.flag = Function.update s.flag f b := by
  cases instr with
  | store f b next =>
    cases move
    exact .inr ⟨f, b, rfl, rfl⟩
  | halt => cases move
  | await f next =>
    obtain ⟨_, _, rfl⟩ := exec_await move
    exact .inl rfl
  | lock i next =>
    obtain ⟨_, _, rfl⟩ := exec_lock move
    exact .inl rfl
  | call c next =>
    obtain ⟨_, _, _, _, rfl⟩ := exec_call move
    exact .inl rfl
  | _ =>
    cases move
    exact .inl rfl

/-- Stores that leave flag `f` alone. -/
def Leaves (f : Flag N) : Instr n N α → Prop
  | .store f' _ _ => f' ≠ f
  | _ => True

/-- `a` of where the thread goes is what flag `f` holds then. -/
def Tracks (f : Flag N) (a : α → Bool) (before : Bool) : Instr n N α → Prop
  | .store f' b next => a next = if f' = f then b else before
  | instr => instr.All fun x => a x = before

theorem Leaves.exec {f : Flag N} (h : instr.Leaves f)
    (move : instr.exec t random s = some (x, s')) : s'.flag f = s.flag f := by
  rcases exec_flag move with same | ⟨f', b, rfl, eq⟩
  · rw [same]
  · rw [eq, Function.update_of_ne (Ne.symm h)]

theorem Tracks.exec {f : Flag N} {a : α → Bool} {before : Bool} (h : instr.Tracks f a before)
    (move : instr.exec t random s = some (x, s')) :
    s'.flag f = a x ∨ s'.flag f = s.flag f ∧ a x = before := by
  by_cases stores : ∃ f' b next, instr = .store f' b next
  · obtain ⟨f', b, next, rfl⟩ := stores
    cases move
    have now : a x = if f' = f then b else before := h
    by_cases same : f' = f
    · rw [if_pos same] at now
      subst same
      exact .inl ((Function.update_self ..).trans now.symm)
    · rw [if_neg same] at now
      exact .inr ⟨Function.update_of_ne (Ne.symm same) .., now⟩
  · have all : instr.All fun x => a x = before := by
      cases instr with
      | store f' b next => exact absurd ⟨f', b, next, rfl⟩ stores
      | _ => exact h
    rcases exec_flag move with same | ⟨f', b, eq, _⟩
    · exact .inr ⟨congrFun same f, all.exec move⟩
    · exact absurd ⟨f', b, x, eq⟩ stores

/-! ## Deques -/

/-- A push into the deque of worker `i`. -/
def pushes (i : Fin N) : Instr n N α → Bool
  | .pushFront k _ _ | .pushBack k _ _ => k = i
  | _ => false

/-- A pop that finds a job. -/
def takes (s : Shared g N) : Instr n N α → Bool
  | .popFront i allow _ => ((s.mJobDeque i).popFront s.jobs.canExecute allow).1.isSome
  | .popBack i _ => ((s.mJobDeque i).popBack s.jobs.canExecute).1.isSome
  | _ => false

/-- Only a pop that finds a job puts one in the thread's hands. -/
def Takes (job : α → Option (Fin n)) (before : Option (Fin n)) : Instr n N α → Prop
  | .popFront _ _ next | .popBack _ next => job (next none) = none
  | instr => before = none → instr.All fun x => job x = none

theorem Takes.exec {job : α → Option (Fin n)} (h : instr.Takes job none)
    (finds : instr.takes s = false) (move : instr.exec t random s = some (x, s')) :
    job x = none := by
  cases instr with
  | popFront i allow next | popBack i next =>
    cases move
    have none := Option.isNone_iff_eq_none.mp (Option.isSome_eq_false_iff.mp finds)
    rw [none]
    exact h
  | _ => exact (h rfl).exec move

theorem takes_empty (empty : ∀ i, (s.mJobDeque i).mJobDeque = []) : instr.takes s = false := by
  cases instr with
  | popFront i allow next =>
    rcases (s.mJobDeque i).popFront_cases s.jobs.canExecute allow with
      ⟨eq, _⟩ | ⟨j, e, _, jobs, _⟩
    · simp [takes, eq]
    · exact absurd ((empty i).symm.trans jobs) (by simp)
  | popBack i next =>
    rcases (s.mJobDeque i).popBack_cases s.jobs.canExecute with ⟨eq, _⟩ | ⟨j, e, _, jobs, _⟩
    · simp [takes, eq]
    · exact absurd ((empty i).symm.trans jobs) (by simp)
  | _ => rfl

/-- Whatever is in a deque after a step was there before, unless the step pushes. -/
theorem exec_deque (move : instr.exec t random s = some (x, s')) (w : Fin N) :
    instr.pushes w = true ∨ (s'.mJobDeque w).mJobDeque ⊆ (s.mJobDeque w).mJobDeque := by
  have fewer {k : Fin N} {d : LockingDeque (Fin n)}
      (less : d.mJobDeque ⊆ (s.mJobDeque k).mJobDeque) :
      (Function.update s.mJobDeque k d w).mJobDeque ⊆ (s.mJobDeque w).mJobDeque := by
    by_cases here : w = k
    · subst here
      rwa [Function.update_self]
    · rw [Function.update_of_ne here]
      exact List.Subset.refl _
  cases instr with
  | halt => cases move
  | await f next =>
    obtain ⟨_, _, rfl⟩ := exec_await move
    exact .inr (List.Subset.refl _)
  | lock k next =>
    obtain ⟨_, _, rfl⟩ := exec_lock move
    exact .inr (List.Subset.refl _)
  | call c next =>
    obtain ⟨_, _, _, _, rfl⟩ := exec_call move
    exact .inr (List.Subset.refl _)
  | pushFront k job next | pushBack k job next =>
    cases move
    by_cases here : k = w
    · exact .inl (by simpa [pushes] using here)
    · right
      dsimp only
      rw [Function.update_of_ne (Ne.symm here)]
      exact List.Subset.refl _
  | popFront k allow next =>
    cases move
    exact .inr (fewer (LockingDeque.popFront_subset ..))
  | popBack k next =>
    cases move
    exact .inr (fewer (LockingDeque.popBack_subset ..))
  | clear k next =>
    cases move
    exact .inr (fewer (by simp))
  | _ =>
    cases move
    exact .inr (List.Subset.refl _)

/-- A push of `job` into the deque of worker `i`. -/
def pushesJob (i : Fin N) (job : Fin n) : Instr n N α → Bool
  | .pushFront k j _ | .pushBack k j _ => k = i && j = job
  | _ => false

theorem pushes_of_job {i : Fin N} {job : Fin n} (h : instr.pushesJob i job = true) :
    instr.pushes i = true := by
  cases instr with
  | pushFront k j next | pushBack k j next => exact (Bool.and_eq_true_iff.mp h).1
  | _ => cases h

/-- A job that is in a deque after a step was there before, or was pushed. -/
theorem exec_mem {w : Fin N} {job : Fin n} (move : instr.exec t random s = some (x, s'))
    (now : job ∈ (s'.mJobDeque w).mJobDeque) :
    job ∈ (s.mJobDeque w).mJobDeque ∨ instr.pushesJob w job = true := by
  cases exec_deque move w with
  | inr subset => exact .inl (subset now)
  | inl pushed =>
    cases instr with
    | pushFront k j next =>
      obtain rfl : k = w := by simpa [pushes] using pushed
      cases move
      simp only [Function.update_self, LockingDeque.pushFront_mJobDeque, List.mem_cons] at now
      exact now.symm.imp_right fun same => by simp [pushesJob, same]
    | pushBack k j next =>
      obtain rfl : k = w := by simpa [pushes] using pushed
      cases move
      simp only [Function.update_self, LockingDeque.pushBack_mJobDeque, List.mem_append,
        List.mem_singleton] at now
      exact now.imp_right fun same => by simp [pushesJob, same]
    | _ => cases pushed

/-- A job the thread has is one it had, or the step popped it. -/
def Gets (job : α → Option (Fin n)) (before : Option (Fin n)) : Instr n N α → Prop
  | .popFront _ _ next | .popBack _ next =>
    ∀ popped j, job (next popped) = some j → before = some j ∨ popped = some j
  | instr => instr.All fun x => ∀ j, job x = some j → before = some j

theorem Gets.exec {job : α → Option (Fin n)} {before : Option (Fin n)} {j : Fin n}
    (h : instr.Gets job before) (move : instr.exec t random s = some (x, s'))
    (now : job x = some j) : before = some j ∨ ∃ w, j ∈ (s.mJobDeque w).mJobDeque := by
  cases instr with
  | popFront i allow next =>
    cases move
    refine (h _ j now).imp_right fun popped => ⟨i, ?_⟩
    rcases (s.mJobDeque i).popFront_cases s.jobs.canExecute allow with
      ⟨eq, _⟩ | ⟨k, e, eq, jobs, _⟩
    · rw [eq] at popped
      cases popped
    · rw [eq] at popped
      cases popped
      simp [jobs]
  | popBack i next =>
    cases move
    refine (h _ j now).imp_right fun popped => ⟨i, ?_⟩
    rcases (s.mJobDeque i).popBack_cases s.jobs.canExecute with ⟨eq, _⟩ | ⟨k, e, eq, jobs, _⟩
    · rw [eq] at popped
      cases popped
    · rw [eq] at popped
      cases popped
      simp [jobs]
  | _ =>
    left
    refine All.exec (P := fun x => ∀ j, job x = some j → before = some j) ?_ move j now
    exact h

/-- An empty deque stays empty until somebody pushes. -/
theorem exec_empty {i : Fin N} (idle : instr.pushes i = false)
    (empty : (s.mJobDeque i).mJobDeque = []) (move : instr.exec t random s = some (x, s')) :
    (s'.mJobDeque i).mJobDeque = [] := by
  cases exec_deque move i with
  | inl pushed => exact absurd (idle.symm.trans pushed) (by simp)
  | inr subset =>
    rw [empty] at subset
    exact List.subset_nil.mp subset

/-- Takes nothing from a deque, and changes no job. -/
def Keeps : Instr n N α → Prop
  | .popFront _ _ _ | .popBack _ _ | .clear _ _ | .call _ _ => False
  | _ => True

theorem Keeps.exec (h : instr.Keeps) (move : instr.exec t random s = some (x, s')) (w : Fin N) :
    s'.jobs.canExecute = s.jobs.canExecute ∧ (s'.mJobDeque w = s.mJobDeque w ∨
      instr.pushes w = true ∧
        (s.mJobDeque w).mJobDeque.length ≤ (s'.mJobDeque w).mJobDeque.length) := by
  cases instr with
  | popFront k allow next | popBack k next | clear k next | call c next => cases h
  | halt => cases move
  | await f next =>
    obtain ⟨_, _, rfl⟩ := exec_await move
    exact ⟨rfl, .inl rfl⟩
  | lock k next =>
    obtain ⟨_, _, rfl⟩ := exec_lock move
    exact ⟨rfl, .inl rfl⟩
  | pushFront k job next | pushBack k job next =>
    cases move
    refine ⟨rfl, ?_⟩
    by_cases here : w = k
    · subst here
      exact .inr ⟨by simp [pushes], by simp⟩
    · exact .inl (Function.update_of_ne here ..)
  | canExecute job next =>
    cases move
    exact ⟨Jobs.observe_canExecute .., .inl rfl⟩
  | _ =>
    cases move
    exact ⟨rfl, .inl rfl⟩

theorem Keeps.same {w : Fin N} (h : instr.Keeps) (quiet : instr.pushes w = false)
    (move : instr.exec t random s = some (x, s')) : s'.mJobDeque w = s.mJobDeque w := by
  apply (h.exec move w).2.resolve_right
  rintro ⟨pushes, _⟩
  exact absurd (quiet.symm.trans pushes) (by simp)

/-- The thread that takes the instruction has `before` in its hands, and then
what `held` says of where it goes. -/
def Moves (held : α → List (Fin n)) (before : List (Fin n)) : Instr n N α → Prop
  | .pushFront _ job next | .pushBack _ job next => before = job :: held next
  | .popFront _ _ next | .popBack _ next => ∀ job, held (next job) = job.toList ++ before
  | .call c next => before = c.jobs ∧ ∀ c, held (next c) = c.jobs
  | .clear _ _ => False
  | instr => instr.All fun x => held x = before

theorem Moves.exec {held : α → List (Fin n)} {before : List (Fin n)} (h : instr.Moves held before)
    (move : instr.exec t random s = some (x, s')) (job : Fin n) :
    s'.copies job + (held x).count job = s.copies job + before.count job := by
  cases instr with
  | pushFront i j next =>
    cases move
    have total := s.copies_set i ((s.mJobDeque i).pushFront j) job (m := s.jobs) rfl
    rw [show before = j :: held x from h]
    simp only [LockingDeque.pushFront_mJobDeque, List.count_cons] at total ⊢
    omega
  | pushBack i j next =>
    cases move
    have total := s.copies_set i ((s.mJobDeque i).pushBack j) job (m := s.jobs) rfl
    rw [show before = j :: held x from h]
    simp only [LockingDeque.pushBack_mJobDeque, List.count_append, List.count_cons,
      List.count_nil] at total ⊢
    omega
  | popFront i allow next =>
    cases move
    have total := s.copies_set i ((s.mJobDeque i).popFront s.jobs.canExecute allow).2 job
      (s.jobs.observe_finished
        (if allow then none else ((s.mJobDeque i).popFront s.jobs.canExecute allow).1) job)
    have popped := (s.mJobDeque i).popFront_count s.jobs.canExecute allow job
    rw [show held (next _) = _ from h _, List.count_append]
    omega
  | popBack i next =>
    cases move
    have total := s.copies_set i ((s.mJobDeque i).popBack s.jobs.canExecute).2 job
      (s.jobs.observe_finished ((s.mJobDeque i).popBack s.jobs.canExecute).1 job)
    have popped := (s.mJobDeque i).popBack_count s.jobs.canExecute job
    rw [show held (next _) = _ from h _, List.count_append]
    omega
  | clear i next => cases h
  | call c next =>
    obtain ⟨m, c', advanced, rfl, rfl⟩ := exec_call move
    have total := Execution.advance_finished advanced job
    rw [h.1, h.2]
    simp only [Shared.copies]
    omega
  | await f next =>
    obtain ⟨_, rfl, rfl⟩ := exec_await move
    rw [show held next = before from h]
  | lock i next =>
    obtain ⟨_, rfl, rfl⟩ := exec_lock move
    rw [show held next = before from h]
    rfl
  | canExecute j next =>
    cases move
    rw [show held (next _) = before from h _]
    simp [Shared.copies]
  | halt => cases move
  | start j next =>
    cases move
    rw [show held x = before from h]
    simp [Shared.copies]
  | skip next =>
    cases move
    rw [show held x = before from h]
  | store f b next | unlock i next | notify i next | wait i next | wake i next =>
    cases move
    rw [show held x = before from h]
    rfl
  | rand next | load f next | size i next | hasExecutableJobs i next | isFinished job next =>
    cases move
    rw [show held (next _) = before from h _]

/-- Only a step of an `Execute` changes what `CanExecute` answers. -/
theorem exec_canExecute (move : instr.exec t random s = some (x, s')) :
    s'.jobs.canExecute = s.jobs.canExecute ∨ ∃ c next, instr = .call c next := by
  cases instr with
  | halt => cases move
  | await f next =>
    obtain ⟨_, _, rfl⟩ := exec_await move
    exact .inl rfl
  | lock k next =>
    obtain ⟨_, _, rfl⟩ := exec_lock move
    exact .inl rfl
  | call c next => exact .inr ⟨c, next, rfl⟩
  | popFront k allow next | popBack k next | canExecute job next =>
    cases move
    exact .inl (Jobs.observe_canExecute ..)
  | _ =>
    cases move
    exact .inl rfl

/-- A deque gets an executable job by a push or by a step of an `Execute` only. -/
theorem exec_executable {w : Fin N} (move : instr.exec t random s = some (x, s'))
    (now : (s'.mJobDeque w).mJobDeque.any s'.jobs.canExecute = true) :
    (s.mJobDeque w).mJobDeque.any s.jobs.canExecute = true ∨ instr.pushes w = true ∨
      ∃ c next, instr = .call c next := by
  cases exec_canExecute move with
  | inl same =>
    rcases exec_deque move w with pushed | subset
    · exact .inr (.inl pushed)
    · rw [same] at now
      obtain ⟨job, inside, can⟩ := List.any_eq_true.mp now
      exact .inl (List.any_eq_true.mpr ⟨job, subset inside, can⟩)
  | inr called => exact .inr (.inr called)

/-! ## Mutexes and condition variables -/

/-- `locks` tells of a program point which mutex is held there. -/
def Locks (locks : α → Option (Fin N)) (before : Option (Fin N)) : Instr n N α → Prop
  | .lock i next => before = none ∧ locks next = some i
  | .unlock i next | .wait i next => before = some i ∧ locks next = none
  | instr => instr.All fun x => locks x = before

theorem Locks.exec {locks : α → Option (Fin N)} {who : Thread N → Option (Fin N)}
    (h : instr.Locks locks (who t)) (owner : ∀ u i, who u = some i → s.mAwakeMutex i = some u)
    (move : instr.exec t random s = some (x, s')) (u : Thread N) (i : Fin N)
    (held : Function.update who t (locks x) u = some i) : s'.mAwakeMutex i = some u := by
  have same (now : locks x = who t) (mutex : s'.mAwakeMutex = s.mAwakeMutex) :
      s'.mAwakeMutex i = some u := by
    rw [now, Function.update_eq_self] at held
    rw [mutex]
    exact owner u i held
  have free {k : Fin N} (before : who t = some k) (after : locks x = none)
      (mutex : s'.mAwakeMutex = Function.update s.mAwakeMutex k none) :
      s'.mAwakeMutex i = some u := by
    rw [after] at held
    have other : u ≠ t := fun same => by
      rw [same, Function.update_self] at held
      cases held
    rw [Function.update_of_ne other] at held
    have apart : i ≠ k := fun same => by
      have mine := owner t k before
      rw [← same, owner u i held] at mine
      exact other (Option.some.inj mine)
    rw [mutex, Function.update_of_ne apart]
    exact owner u i held
  cases instr with
  | halt => cases move
  | await f next =>
    obtain ⟨_, rfl, rfl⟩ := exec_await move
    exact same h rfl
  | call c next =>
    obtain ⟨_, _, _, rfl, rfl⟩ := exec_call move
    exact same (h _) rfl
  | lock k next =>
    obtain ⟨unheld, rfl, rfl⟩ := exec_lock move
    rw [h.2] at held
    by_cases here : u = t
    · subst here
      rw [Function.update_self] at held
      cases held
      exact Function.update_self ..
    · rw [Function.update_of_ne here] at held
      have mine := owner u i held
      have apart : i ≠ k := fun same => by
        rw [same, unheld] at mine
        cases mine
      exact (Function.update_of_ne apart ..).trans mine
  | unlock k next | wait k next =>
    cases move
    exact free h.1 h.2 rfl
  | skip next | store f b next | pushFront k job next | pushBack k job next | clear k next
  | start job next | notify k next | wake k next =>
    cases move
    exact same h rfl
  | rand next | load f next | size k next | hasExecutableJobs k next | popFront k allow next
  | popBack k next | canExecute job next | isFinished job next =>
    cases move
    exact same (h _) rfl

/-- And whoever holds a mutex stands where it is held. -/
theorem Locks.exec_owner {locks : α → Option (Fin N)} {who : Thread N → Option (Fin N)}
    (h : instr.Locks locks (who t)) (owner : ∀ u i, s.mAwakeMutex i = some u → who u = some i)
    (move : instr.exec t random s = some (x, s')) (u : Thread N) (i : Fin N)
    (held : s'.mAwakeMutex i = some u) : Function.update who t (locks x) u = some i := by
  have same (now : locks x = who t) (mutex : s'.mAwakeMutex = s.mAwakeMutex) :
      Function.update who t (locks x) u = some i := by
    rw [now, Function.update_eq_self]
    rw [mutex] at held
    exact owner u i held
  have free {k : Fin N} (before : who t = some k)
      (mutex : s'.mAwakeMutex = Function.update s.mAwakeMutex k none) :
      Function.update who t (locks x) u = some i := by
    rw [mutex] at held
    have apart : i ≠ k := fun same => by
      rw [same, Function.update_self] at held
      cases held
    rw [Function.update_of_ne apart] at held
    have mine := owner u i held
    have other : u ≠ t := fun same => by
      rw [same, before] at mine
      exact apart (Option.some.inj mine).symm
    rwa [Function.update_of_ne other]
  cases instr with
  | halt => cases move
  | await f next =>
    obtain ⟨_, rfl, rfl⟩ := exec_await move
    exact same h rfl
  | call c next =>
    obtain ⟨_, _, _, rfl, rfl⟩ := exec_call move
    exact same (h _) rfl
  | lock k next =>
    obtain ⟨_, rfl, rfl⟩ := exec_lock move
    dsimp only at held
    rw [h.2]
    by_cases here : i = k
    · subst here
      rw [Function.update_self] at held
      rw [← Option.some.inj held, Function.update_self]
    · rw [Function.update_of_ne here] at held
      have mine := owner u i held
      have other : u ≠ t := fun same => by
        rw [same, h.1] at mine
        cases mine
      rwa [Function.update_of_ne other]
  | unlock k next | wait k next =>
    cases move
    exact free h.1 rfl
  | skip next | store f b next | pushFront k job next | pushBack k job next | clear k next
  | start job next | notify k next | wake k next =>
    cases move
    exact same h rfl
  | rand next | load f next | size k next | hasExecutableJobs k next | popFront k allow next
  | popBack k next | canExecute job next | isFinished job next =>
    cases move
    exact same (h _) rfl

/-- Only a `wait` puts a worker to sleep. -/
theorem exec_asleep {w : Fin N} (move : instr.exec t random s = some (x, s'))
    (now : s'.mAwakeCondition w = .asleep) :
    s.mAwakeCondition w = .asleep ∨ ∃ next, instr = .wait w next := by
  cases instr with
  | halt => cases move
  | await f next =>
    obtain ⟨_, _, rfl⟩ := exec_await move
    exact .inl now
  | lock k next =>
    obtain ⟨_, _, rfl⟩ := exec_lock move
    exact .inl now
  | call c next =>
    obtain ⟨_, _, _, _, rfl⟩ := exec_call move
    exact .inl now
  | wait k next =>
    by_cases here : k = w
    · exact .inr ⟨next, by rw [here]⟩
    · cases move
      exact .inl ((Function.update_of_ne (Ne.symm here) ..).symm.trans now)
  | wake k next =>
    cases move
    by_cases here : w = k
    · subst here
      simp at now
    · exact .inl ((Function.update_of_ne here ..).symm.trans now)
  | notify k next =>
    cases move
    by_cases here : w = k
    · subst here
      simp only [Function.update_self] at now
      split at now
      · cases now
      · exact .inl now
    · exact .inl ((Function.update_of_ne here ..).symm.trans now)
  | _ =>
    cases move
    exact .inl now

/-! ## Jobs -/

theorem exec_log (move : instr.exec t random s = some (x, s')) : s.jobs.log ⊆ s'.jobs.log := by
  have observe (m : Jobs g) (o : Option (Fin n)) : m.log ⊆ (m.observe o).log := by
    cases o <;> simp [Jobs.observe]
  cases instr with
  | halt => cases move
  | await f next =>
    obtain ⟨_, _, rfl⟩ := exec_await move
    exact List.Subset.refl _
  | lock i next =>
    obtain ⟨_, _, rfl⟩ := exec_lock move
    exact List.Subset.refl _
  | call c next =>
    obtain ⟨m, c', advanced, _, rfl⟩ := exec_call move
    exact Execution.advance_log advanced
  | start j next =>
    cases move
    exact List.subset_cons_self ..
  | popFront i allow next | popBack i next | canExecute j next =>
    cases move
    exact observe ..
  | _ =>
    cases move
    exact List.Subset.refl _

/-- `call` and `ready` tell of a program point which `Execute` goes on there and
which job it is about to execute. One is about to execute only what it saw
executable, and the counters are otherwise left alone. -/
def Runs (call : α → Call n) (ready : α → Option (Fin n)) (here : Call n)
    (about : Option (Fin n)) : Instr n N α → Prop
  | .start j next => here = .idle ∧ about = some j ∧ call next = .running j ∧ ready next = none
  | .call c next => here = c ∧ ∀ c, call (next c) = c ∧ ready (next c) = none
  | .canExecute j next => ∀ b, call (next b) = here ∧ ∀ i ∈ ready (next b), b = true ∧ i = j
  | .popFront _ allow next =>
    ∀ job, call (next job) = here ∧ ∀ i ∈ ready (next job), allow = false ∧ job = some i
  | .popBack _ next => ∀ job, call (next job) = here ∧ ∀ i ∈ ready (next job), job = some i
  | instr => instr.All fun x => call x = here ∧ ready x = none

/-- An instruction of a thread whose calls are those of `C` at `t`. -/
theorem Runs.exec {ready : α → Option (Fin n)} {about : Option (Fin n)} {call : α → Call n}
    {calls : Thread N → Call n} (h : instr.Runs call ready (calls t) about)
    (reached : (Execution.machine g (Thread N)).Reachable ⟨s.jobs, calls⟩)
    (seen : ∀ j ∈ about, .observed j ∈ s.jobs.log)
    (move : instr.exec t random s = some (x, s')) :
    (Execution.machine g (Thread N)).Reachable ⟨s'.jobs, Function.update calls t (call x)⟩ ∧
      ∀ j ∈ ready x, .observed j ∈ s'.jobs.log := by
  have same {y : α} {m : Jobs g} (now : call y = calls t)
      (reached : (Execution.machine g (Thread N)).Reachable ⟨m, calls⟩) :
      (Execution.machine g (Thread N)).Reachable ⟨m, Function.update calls t (call y)⟩ := by
    rwa [now, Function.update_eq_self]
  cases instr with
  | halt => cases move
  | await f next =>
    obtain ⟨_, rfl, rfl⟩ := exec_await move
    exact ⟨same h.1 reached, by simp [show ready next = none from h.2]⟩
  | lock i next =>
    obtain ⟨_, rfl, rfl⟩ := exec_lock move
    exact ⟨same h.1 reached, by simp [show ready next = none from h.2]⟩
  | call c next =>
    obtain ⟨m, c', advanced, rfl, rfl⟩ := exec_call move
    obtain ⟨now, next⟩ := h
    rw [(next c').1, (next c').2]
    refine ⟨reached.next (a := .advance t) trivial ?_, by simp⟩
    simp [Execution.machine, Execution.step, now, advanced]
  | start j next =>
    cases move
    obtain ⟨now, rfl, then', none⟩ := h
    rw [then', none]
    refine ⟨reached.next (a := .start t j) trivial ?_, by simp⟩
    simp [Execution.machine, Execution.step, now, seen j rfl]
  | popFront i allow next =>
    cases move
    refine ⟨same (h _).1 (Execution.observe reached fun j hj => ?_), fun j hj => ?_⟩
    · cases allow with
      | true => cases hj
      | false => exact (s.mJobDeque i).popFront_can _ hj
    · obtain ⟨rfl, popped⟩ := (h _).2 j hj
      exact s.jobs.mem_observe popped
  | popBack i next =>
    cases move
    refine ⟨same (h _).1 (Execution.observe reached fun j hj => ?_), fun j hj => ?_⟩
    · exact (s.mJobDeque i).popBack_can _ hj
    · exact s.jobs.mem_observe ((h _).2 j hj)
  | canExecute j next =>
    cases move
    refine ⟨same (h _).1 (Execution.observe reached fun i hi => ?_), fun i hi => ?_⟩
    · simp only [Option.mem_def, Option.ite_none_right_eq_some, Option.some.injEq] at hi
      rw [← hi.2]
      exact hi.1
    · obtain ⟨can, rfl⟩ := (h _).2 i hi
      exact s.jobs.mem_observe (by rw [if_pos can])
  | skip next | store f b next | pushFront i job next | pushBack i job next | clear i next
  | unlock i next | notify i next | wait i next | wake i next =>
    cases move
    exact ⟨same h.1 reached, by simp [show ready x = none from h.2]⟩
  | rand next | load f next | size i next | hasExecutableJobs i next | isFinished job next =>
    cases move
    exact ⟨same (h _).1 reached, by simp [(h _).2]⟩

end Instr
end JobStealer
