import JobStealer.Flags

/-!
# Nobody sleeps through the last jobs

`Finish` wakes nobody when it releases a dependant in the deque of a worker that
sleeps. What saves it is that whoever finished the job looks through all deques
before it waits itself: a worker anywhere outside `WaitForJob` *owes* every other
worker a look at its deque, until `WakeThreads` has passed it.

`watched` is the invariant: a worker that is about to sleep or asleep, with an
executable job in its deque, is owed a wake-up by somebody. When all workers
sleep nobody owes anything, so no deque has an executable job; but then no job is
left at all, since the graph has no cycle (`no_global_sleep`).
-/

namespace JobStealer
open Interleaving

variable {n N : Nat}

namespace WorkerPc

/-- The mutex worker `w` holds. -/
def locks (w : Fin N) : WorkerPc n N → Option (Fin N)
  | wakeNotify i | wakeUnlock i => some i
  | waitJobs | waitRunning _ | waitBlock | waitUnlock => some w
  | _ => none

/-- Past a test of the wait condition that failed, and not notified since. -/
def dozing (waiter : Waiter) : WorkerPc n N → Bool
  | waitRunning false | waitBlock => true
  | waitBlocked => waiter = .asleep
  | _ => false

/-- Looks at the deque of worker `w` before it waits. -/
def owes (w : Fin N) : WorkerPc n N → Bool
  | wakeThreads i => i ≤ w
  | wakeLock i | wakeNotify i => i ≤ w
  | wakeUnlock i => i < w
  | waitLock | waitJobs | waitRunning _ | waitBlock | waitBlocked | leave | left => false
  | _ => true

end WorkerPc

namespace RunnerPc

def locks : RunnerPc n N → Option (Fin N)
  | addNotify i _ _ | addUnlock i _ _ => some i
  | _ => none

/-- Has pushed onto the deque of worker `w` and not notified it yet. -/
def owes (w : Fin N) : RunnerPc n N → Bool
  | addLock i _ _ | addNotify i _ _ => i = w
  | _ => false

/-- Some `AddJob` of the frame is still to come or to return. -/
def adding : RunnerPc n N → Bool
  | addJob jobs _ => jobs ≠ []
  | addLock _ _ _ | addNotify _ _ _ | addUnlock _ _ _ => true
  | _ => false

def later : RunnerPc n N → Later n N
  | begin later | whileRunning later | addJob _ later | addLock _ _ later | addNotify _ _ later
  | addUnlock _ _ later | scanSize _ later | scanFlag _ later | deleteJobs later | leave later
  | left later => later

end RunnerPc

def MainPc.locks : MainPc N → Option (Fin N)
  | notify i | unlock i => some i
  | _ => none

def locksOf : (t : Thread N) → Pc n N t → Option (Fin N)
  | .worker w => WorkerPc.locks w
  | .runner => RunnerPc.locks
  | .main => MainPc.locks

def owesOf (w : Fin N) : (t : Thread N) → Pc n N t → Bool
  | .worker _ => WorkerPc.owes w
  | .runner => RunnerPc.owes w
  | .main => fun _ => false

/-! ## What the code does with the mutexes -/

section Code
variable (c : Config n N)

theorem Worker.code_locks (w : Fin N) (pc : WorkerPc n N) :
    (Worker.code c w pc).Locks (WorkerPc.locks w) (pc.locks w) := by
  cases pc <;> grind [Worker.code, Instr.Locks, Instr.All, WorkerPc.locks]

theorem Runner.code_locks (pc : RunnerPc n N) :
    (Runner.code c pc).Locks RunnerPc.locks pc.locks := by
  cases pc with
  | addJob jobs later =>
    cases jobs <;> grind [Runner.code, Runner.push, Instr.Locks, Instr.All, RunnerPc.locks]
  | _ => grind [Runner.code, Runner.nextFrame, Instr.Locks, Instr.All, RunnerPc.locks]

theorem Main.code_locks (pc : MainPc N) :
    (Main.code pc : Instr n N _).Locks MainPc.locks pc.locks := by
  cases pc <;> grind [Main.code, Instr.Locks, Instr.All, MainPc.locks]

theorem code_locks (t : Thread N) (pc : Pc n N t) :
    (code c t pc).Locks (locksOf t) (locksOf t pc) := by
  cases t with
  | worker w => exact Worker.code_locks c w pc
  | runner => exact Runner.code_locks c pc
  | main => exact Main.code_locks pc

/-- The runner owes a wake-up to the worker it pushes for. -/
theorem Runner.code_owes {w : Fin N} {pc : RunnerPc n N}
    (h : (Runner.code c pc).pushes w = true) :
    (Runner.code c pc).All fun pc => pc.owes w = true := by
  cases pc with
  | addJob jobs later =>
    cases jobs <;> grind [Runner.code, Runner.push, Instr.pushes, Instr.All, RunnerPc.owes]
  | _ => grind [Runner.code, Instr.pushes]

/-- And is rid of it with the notification only. -/
theorem Runner.owes_step {w : Fin N} {pc : RunnerPc n N} (owed : pc.owes w = true) :
    (∃ jobs later, pc = .addNotify w jobs later) ∨
      (Runner.code c pc).All fun pc => pc.owes w = true := by
  cases pc <;> grind [Runner.code, Instr.All, RunnerPc.owes]

/-- Frames are taken from the front of the list. -/
theorem Runner.code_later (pc : RunnerPc n N) :
    (Runner.code c pc).All fun next => next.later.frames ⊆ pc.later.frames := by
  cases pc with
  | addJob jobs later =>
    cases jobs <;> grind [Runner.code, Runner.push, Instr.All, RunnerPc.later]
  | _ => grind [Runner.code, Runner.nextFrame, Instr.All, RunnerPc.later]

theorem Worker.code_executing {w : Fin N} {pc : WorkerPc n N} {call : Call n}
    {next : Call n → WorkerPc n N} (h : Worker.code c w pc = .call call next) (v : Fin N) :
    (Worker.code c w pc).All fun pc => pc.owes v = true := by
  cases pc <;> grind [Worker.code, Instr.All, WorkerPc.owes]

theorem Worker.code_wait {v w : Fin N} {pc next : WorkerPc n N}
    (h : Worker.code c v pc = .wait w next) : v = w ∧ pc = .waitBlock := by
  cases pc <;> grind [Worker.code]

theorem Runner.code_wait {w : Fin N} {pc next : RunnerPc n N} :
    Runner.code c pc ≠ .wait w next := by
  cases pc with
  | addJob jobs later => cases jobs <;> grind [Runner.code, Runner.push]
  | _ => grind [Runner.code]

theorem Main.code_wait {w : Fin N} {pc next : MainPc N} :
    (Main.code pc : Instr n N _) ≠ .wait w next := by
  cases pc <;> grind [Main.code]

theorem Runner.code_call {pc : RunnerPc n N} {call : Call n} {next : Call n → RunnerPc n N} :
    Runner.code c pc ≠ .call call next := by
  cases pc with
  | addJob jobs later => cases jobs <;> grind [Runner.code, Runner.push]
  | _ => grind [Runner.code]

theorem Main.code_call {pc : MainPc N} {call : Call n} {next : Call n → MainPc N} :
    (Main.code pc : Instr n N _) ≠ .call call next := by
  cases pc <;> grind [Main.code]

theorem Main.code_stays {pc : MainPc N} (h : pc.constructed = true) :
    (Main.code pc : Instr n N _).All fun pc => pc.constructed = true := by
  cases pc <;> grind [Main.code, Instr.All, MainPc.constructed]

/-- How a worker gets rid of what it owes: it finds nothing executable, it
notifies, or the `JobSystem` is not set yet. -/
theorem Worker.owes_step {g : Graph n} (waits : c.waitForAvailableJobs = true) {v w : Fin N}
    {pc pc' : WorkerPc n N} {t : Thread N} {random : Nat} {s s' : Shared g N}
    (running : s.flag (.mRunning v) = true)
    (took : (Worker.code c v pc).exec t random s = some (pc', s')) (owed : pc.owes w = true) :
    pc'.owes w = true ∨ pc = .wakeNotify w ∨ s.flag (.JobSystem v) = false ∨
      (s.mJobDeque w).mJobDeque.any s.jobs.canExecute = false := by
  cases pc with
  | whileRunning =>
    cases took
    rw [running]
    exact .inl rfl
  | checkJobSystem =>
    cases took
    cases set : s.flag (.JobSystem v) with
    | true => exact .inl (by simp [WorkerPc.owes])
    | false => exact .inr (.inr (.inl rfl))
  | wakeThreads i =>
    have behind : i ≤ w.val := by simpa [WorkerPc.owes] using owed
    have hi : i < N := by omega
    simp only [Worker.code, dif_pos hi] at took
    cases took
    cases has : (s.mJobDeque ⟨i, hi⟩).hasExecutableJobs s.jobs.canExecute with
    | true => exact .inl (by simpa [WorkerPc.owes, Fin.le_def] using behind)
    | false =>
      by_cases here : i = w.val
      · subst here
        rw [LockingDeque.hasExecutableJobs_eq] at has
        exact .inr (.inr (.inr has))
      · left
        simp only [Bool.false_eq_true, if_false, WorkerPc.owes, decide_eq_true_eq]
        omega
  | wakeNotify i =>
    cases took
    by_cases here : i = w
    · exact .inr (.inl (by rw [here]))
    · have le : i ≤ w := by simpa [WorkerPc.owes] using owed
      exact .inl (by simpa [WorkerPc.owes] using lt_of_le_of_ne le here)
  | wakeUnlock i =>
    cases took
    have lt : i < w := by simpa [WorkerPc.owes] using owed
    have : i.val < w.val := lt
    left
    simp only [WorkerPc.owes, decide_eq_true_eq]
    omega
  | waitLock | waitJobs | waitRunning available | waitBlock | waitBlocked | leave | left =>
    cases owed
  | _ =>
    refine .inl (Instr.All.exec (P := fun pc => pc.owes w = true) ?_ took)
    grind [Worker.code, Instr.All, WorkerPc.owes]

/-- A worker starts dozing where its test of the condition finds nothing. -/
theorem Worker.dozing_step {g : Graph n} (waits : c.waitForAvailableJobs = true) {w : Fin N}
    {pc pc' : WorkerPc n N} {t : Thread N} {random : Nat} {s s' : Shared g N}
    (took : (Worker.code c w pc).exec t random s = some (pc', s'))
    (dozes : pc'.dozing (s'.mAwakeCondition w) = true) :
    pc.dozing (s.mAwakeCondition w) = true ∨
      (s'.mJobDeque w).mJobDeque.any s'.jobs.canExecute = false := by
  cases pc with
  | waitJobs =>
    simp only [Worker.code, waits, if_true] at took
    cases took
    cases has : (s.mJobDeque w).hasExecutableJobs s.jobs.canExecute with
    | true =>
      rw [has] at dozes
      cases dozes
    | false =>
      rw [LockingDeque.hasExecutableJobs_eq] at has
      exact .inr has
  | waitRunning available =>
    cases available with
    | true =>
      cases took
      cases dozes
    | false => exact .inl rfl
  | waitBlock => exact .inl rfl
  | waitBlocked =>
    cases took
    cases dozes
  | _ =>
    have awake : pc'.dozing (s'.mAwakeCondition w) = false := by
      refine Instr.All.exec (P := fun pc => pc.dozing (s'.mAwakeCondition w) = false) ?_ took
      grind [Worker.code, Instr.All, WorkerPc.dozing]
    rw [awake] at dozes
    cases dozes

end Code

namespace System
variable {c : Config n N} {ok : State c → Action N → Prop} {s : State c}

/-- Who stands where a mutex is held holds it. -/
theorem locks_own (h : (machine c).Reach ok s) (t : Thread N) (i : Fin N)
    (held : locksOf t (s.pc t) = some i) : s.shared.mAwakeMutex i = some t := by
  induction h generalizing t i with
  | start => cases t <;> cases held
  | @next s s' a _ _ move ih =>
    obtain ⟨pc, shared, took, rfl⟩ := step_cases move
    rw [congrFun (s.move_map pc shared locksOf) t] at held
    exact Instr.Locks.exec (code_locks c a.1 (s.pc a.1)) ih took t i held

/-- The runner starts when the `JobSystem` is complete. -/
theorem begin_or_created (h : (machine c).Reach ok s) :
    s.pc .runner = .begin ⟨⟨0, c.workers⟩, c.frames⟩ ∨ s.shared.flag .created = true := by
  induction h with
  | start => exact .inl rfl
  | @next s s' a run allowed move ih =>
    have after := created_eq (run.next allowed move)
    obtain ⟨pc, shared, took, rfl⟩ := step_cases move
    obtain ⟨t, random⟩ := a
    cases t with
    | worker w =>
      rw [s.move_other pc shared (by simp)]
      apply ih.imp_right
      intro created
      exact ((Worker.code_leaves c (by simp) (by simp) _).exec took).trans created
    | runner =>
      have same : shared.flag .created = s.shared.flag .created :=
        (Runner.code_leaves c (by simp) (s.pc .runner)).exec took
      cases ih with
      | inl begin =>
        rw [code, begin] at took
        exact .inr (same.trans (Instr.exec_await took).1)
      | inr created => exact .inr (same.trans created)
    | main =>
      rw [s.move_other pc shared (by simp)]
      apply ih.imp_right
      intro created
      rw [created_eq run] at created
      rw [s.move_self] at after
      exact after.trans ((Main.code_stays created).exec took)

/-- Before that there is no job in any deque. -/
theorem empty_of_not_created (h : (machine c).Reach noShutDown s)
    (early : s.shared.flag .created = false) (w : Fin N) :
    (s.shared.mJobDeque w).mJobDeque = [] := by
  have begin : s.pc .runner = .begin ⟨⟨0, c.workers⟩, c.frames⟩ :=
    (begin_or_created h).resolve_right (by simp [early])
  apply List.eq_nil_iff_forall_not_mem.mpr
  intro job inside
  have total := conserved h job
  rw [sum_heldBy, begin] at total
  have here : 0 < (s.shared.mJobDeque w).mJobDeque.count job := List.count_pos_iff.mpr inside
  have le : (s.shared.mJobDeque w).mJobDeque.count job ≤
      ∑ i, (s.shared.mJobDeque i).mJobDeque.count job :=
    Finset.single_le_sum (f := fun i => (s.shared.mJobDeque i).mJobDeque.count job)
      (fun _ _ => Nat.zero_le _) (Finset.mem_univ w)
  simp only [Shared.copies, RunnerPc.toAdd] at total
  omega

/-- A worker that sleeps, or is about to, over an executable job is owed a look. -/
def Watched (s : State c) : Prop :=
  ∀ w, WorkerPc.dozing (s.shared.mAwakeCondition w) (s.pc (.worker w)) = true →
    (s.shared.mJobDeque w).mJobDeque.any s.shared.jobs.canExecute = true →
    ∃ t, owesOf w t (s.pc t) = true

/-- A worker that dozes under somebody else's hold of its mutex is blocked. -/
theorem asleep_of_locked (run : (machine c).Reach ok s) {t : Thread N} {w : Fin N}
    (other : t ≠ .worker w) (held : locksOf t (s.pc t) = some w) {waiter : Waiter}
    (dozes : WorkerPc.dozing waiter (s.pc (.worker w)) = true) : waiter = .asleep := by
  have owner := locks_own run t w held
  have mine := locks_own run (.worker w) w
  change WorkerPc.locks w (s.pc (.worker w)) = some w → _ at mine
  generalize s.pc (.worker w) = pc at dozes mine
  cases pc with
  | waitRunning available | waitBlock =>
    exact absurd (Option.some.inj (owner.symm.trans (mine rfl))) other
  | waitBlocked => simpa [WorkerPc.dozing] using dozes
  | _ => cases dozes

theorem not_asleep_of_notify {g : Graph n} {α : Type} {x next : α} {t : Thread N} {random : Nat}
    {s s' : Shared g N} {w : Fin N}
    (took : (Instr.notify w next : Instr n N α).exec t random s = some (x, s')) :
    s'.mAwakeCondition w ≠ .asleep := by
  cases took
  simp only [Function.update_self]
  split
  · simp
  · assumption

/-- Another thread than the worker itself makes it doze only by taking its
notification away, which none does. -/
theorem dozing_of_other {t : Thread N} {random : Nat} {w : Fin N} {pc : Pc n N t}
    {shared : Shared c.graph N} (other : t ≠ .worker w)
    (took : (code c t (s.pc t)).exec t random s.shared = some (pc, shared))
    (dozes : WorkerPc.dozing (shared.mAwakeCondition w) (s.pc (.worker w)) = true) :
    WorkerPc.dozing (s.shared.mAwakeCondition w) (s.pc (.worker w)) = true := by
  generalize s.pc (.worker w) = here at dozes ⊢
  cases here with
  | waitRunning available =>
    cases available with
    | true => cases dozes
    | false => rfl
  | waitBlock => rfl
  | waitBlocked =>
    have now : shared.mAwakeCondition w = .asleep := by simpa [WorkerPc.dozing] using dozes
    rcases Instr.exec_asleep took now with old | ⟨next, wait⟩
    · simpa [WorkerPc.dozing] using old
    · cases t with
      | worker v => exact absurd (congrArg Thread.worker (Worker.code_wait c wait).1) other
      | runner => exact absurd wait (Runner.code_wait c)
      | main => exact absurd wait Main.code_wait
  | _ => cases dozes

/-- A thread that owed worker `w` a look still does, unless the worker is not
dozing any more or has nothing executable. -/
theorem owes_of_owed (waits : c.waitForAvailableJobs = true) (run : (machine c).Reach noShutDown s)
    {t : Thread N} {random : Nat} {w : Fin N} {pc : Pc n N t} {shared : Shared c.graph N}
    (took : (code c t (s.pc t)).exec t random s.shared = some (pc, shared))
    (owed : owesOf w t (s.pc t) = true)
    (dozes : WorkerPc.dozing (shared.mAwakeCondition w)
      ((s.move t pc shared).pc (.worker w)) = true)
    (old : (s.shared.mJobDeque w).mJobDeque.any s.shared.jobs.canExecute = true) :
    owesOf w t pc = true := by
  -- whoever notifies holds the mutex, so the worker is not between its test and its wait
  have notified {next : Pc n N t} (other : t ≠ .worker w) (held : locksOf t (s.pc t) = some w)
      (notify : code c t (s.pc t) = .notify w next) : owesOf w t pc = true := by
    rw [s.move_other pc shared (Ne.symm other)] at dozes
    rw [notify] at took
    exact absurd (asleep_of_locked run other held dozes) (not_asleep_of_notify took)
  cases t with
  | worker v =>
    rcases Worker.owes_step c waits (mRunning_eq run v) took owed with
      keeps | notify | unset | none
    · exact keeps
    · by_cases here : v = w
      · subst here
        rw [code, notify] at took
        cases took
        rw [s.move_self] at dozes
        cases dozes
      · exact notified (by simpa using here) (by rw [notify]; rfl) (by rw [notify]; rfl)
    · rw [JobSystem_eq run v] at unset
      have early : s.shared.flag .created = false := by
        rw [created_eq run]
        generalize s.pc .main = pc at unset
        cases pc with
        | construct i => rfl
        | _ => cases unset
      simp [empty_of_not_created run early w] at old
    · exact absurd (none.symm.trans old) (by simp)
  | runner =>
    rcases Runner.owes_step c owed with ⟨jobs, later, notify⟩ | all
    · exact notified (by simp) (by rw [notify]; rfl) (by rw [notify]; rfl)
    · exact all.exec took
  | main => cases owed

theorem step_watched (waits : c.waitForAvailableJobs = true) {a : Action N} {s' : State c}
    (run : (machine c).Reach noShutDown s) (watched : Watched s)
    (move : (machine c).step a s = some s') : Watched s' := by
  intro w dozes has
  obtain ⟨pc, shared, took, rfl⟩ := step_cases move
  obtain ⟨t, random⟩ := a
  dsimp only at pc took dozes has
  have cause : (s.shared.mJobDeque w).mJobDeque.any s.shared.jobs.canExecute = true ∨
      owesOf w t pc = true := by
    rcases Instr.exec_executable took has with old | pushed | ⟨call, next, eq⟩
    · exact .inl old
    · cases t with
      | worker v =>
        obtain ⟨rfl, job, here⟩ := Worker.code_pushes c pushed
        rw [code, here] at took
        cases took
        rw [s.move_self] at dozes
        cases dozes
      | runner => exact .inr ((Runner.code_owes c pushed).exec took)
      | main => exact absurd pushed (by simp [code, Main.code_pushes])
    · cases t with
      | worker v => exact .inr ((Worker.code_executing c eq w).exec took)
      | runner => exact absurd eq (Runner.code_call c)
      | main => exact absurd eq Main.code_call
  cases cause with
  | inl old =>
    have dozed : WorkerPc.dozing (s.shared.mAwakeCondition w) (s.pc (.worker w)) = true := by
      by_cases own : t = .worker w
      · subst own
        rw [s.move_self] at dozes
        apply (Worker.dozing_step c waits took dozes).resolve_right
        intro none
        exact absurd (none.symm.trans has) (by simp)
      · rw [s.move_other pc shared (Ne.symm own)] at dozes
        exact dozing_of_other own took dozes
    obtain ⟨u, owed⟩ := watched w dozed old
    by_cases here : u = t
    · subst here
      exact ⟨u, by rw [s.move_self]; exact owes_of_owed waits run took owed dozes old⟩
    · exact ⟨u, by rwa [s.move_other pc shared here]⟩
  | inr owes => exact ⟨t, by rwa [s.move_self]⟩

theorem watched (waits : c.waitForAvailableJobs = true) (h : (machine c).Reach noShutDown s) :
    Watched s := by
  induction h with
  | start =>
    intro w dozes
    cases dozes
  | next run _ move ih => exact step_watched waits run ih move

/-! ## No job is left when all workers sleep -/

theorem later_subset (h : (machine c).Reach ok s) :
    (RunnerPc.later (s.pc .runner)).frames ⊆ c.frames := by
  refine Threads.local_invariant (P := threads c) (t := .runner)
    (Q := fun pc => (RunnerPc.later pc).frames ⊆ c.frames) (List.Subset.refl _) ?_ h
  intro s _ pc shared _ inside took
  exact List.Subset.trans ((Runner.code_later c (s.pc .runner)).exec took) inside

theorem toAdd_of_not_adding {pc : RunnerPc n N} (h : pc.adding = false) :
    pc.toAdd = pc.later.frames.flatten := by
  cases pc with
  | addJob jobs later =>
    have none : jobs = [] := by simpa [RunnerPc.adding] using h
    subst none
    rfl
  | addLock i jobs later | addNotify i jobs later | addUnlock i jobs later => cases h
  | _ => rfl

/-- Between two `AddJob` loops a job was added with all its prerequisites. -/
theorem added_prerequisite (h : (machine c).Reach ok s)
    (idle : RunnerPc.adding (s.pc .runner) = false) {i j : Fin n}
    (before : c.graph.Prerequisite i j)
    (added : added s j) : System.added s i := by
  obtain ⟨inside, gone⟩ := added
  rw [toAdd_of_not_adding idle] at gone
  obtain ⟨frame, hframe, hj⟩ := List.mem_flatten.mp inside
  have hi := c.together frame hframe j hj i before
  refine ⟨List.mem_flatten.mpr ⟨frame, hframe, hi⟩, fun left => ?_⟩
  rw [toAdd_of_not_adding idle] at left
  obtain ⟨other, hother, hi'⟩ := List.mem_flatten.mp left
  -- a job is in one frame only
  have same : other = frame := by
    by_contra apart
    have symm : Std.Symm (@List.Disjoint (Fin n)) := ⟨fun _ _ h => h.symm⟩
    have disjoint := (List.nodup_flatten.mp c.once).2.forall (later_subset h hother) hframe apart
    exact disjoint hi' hi
  rw [same] at hother
  exact gone (List.mem_flatten.mpr ⟨frame, hother, hj⟩)

/-- When nobody executes anything, a job that was not executed although all its
prerequisites are finished can be. -/
theorem canExecute_of_prerequisites (h : (machine c).Reach ok s) (idle : ∀ t, calls s t = .idle)
    {job : Fin n} (unstarted : s.shared.jobs.log.count (.started job) = 0)
    (before : ∀ i, c.graph.Prerequisite i job → .finished i ∈ s.shared.jobs.log) :
    s.shared.jobs.canExecute job = true := by
  have inv := Execution.reachable_inv (executes h)
  have released : pending s.shared.jobs.log job = 0 := by
    apply pending_zero_iff.mpr
    intro e target
    have finished := before e.1 (target ▸ c.graph.prerequisite_target e)
    obtain ⟨past, sub, _, subtracted⟩ := inv.history.follows finished
    exact released_of_subtracted h idle (sub subtracted)
  have subtracted := Execution.started_subtracted (executes h) job
  have counter := inv.counter job
  apply (Counters.canExecute_iff _ _).mpr
  dsimp only at counter subtracted
  omega

/-- A job nobody holds is in a deque until it is finished. -/
theorem queued_of_unfinished (h : (machine c).Reach noShutDown s)
    (free : ∀ w, WorkerPc.hand (s.pc (.worker w)) = []) {job : Fin n} (here : added s job)
    (unfinished : s.shared.jobs.log.count (.finished job) = 0) :
    ∃ w, job ∈ (s.shared.mJobDeque w).mJobDeque := by
  have place := placed h here
  simp only [free, List.count_nil, Finset.sum_const_zero, add_zero, unfinished] at place
  by_contra nowhere
  have none (w : Fin N) : (s.shared.mJobDeque w).mJobDeque.count job = 0 :=
    List.count_eq_zero.mpr fun inside => nowhere ⟨w, inside⟩
  simp [none] at place

/-- With `HTL_WAIT_FOR_AVAILABLE_JOBS`, and no `ShutDown`: when all `AddJob` calls
of the frame have returned and every worker is blocked in its wait without a
notification, every job added is finished. -/
theorem no_global_sleep (waits : c.waitForAvailableJobs = true)
    (h : (machine c).Reach noShutDown s) (returned : RunnerPc.adding (s.pc .runner) = false)
    (asleep : ∀ w, s.pc (.worker w) = .waitBlocked ∧ s.shared.mAwakeCondition w = .asleep)
    (job : Fin n) (here : added s job) : .finished job ∈ s.shared.jobs.log := by
  have idle (t : Thread N) : calls s t = .idle := by
    cases t with
    | worker w =>
      rw [calls, (asleep w).1]
      rfl
    | runner | main => rfl
  have free (w : Fin N) : WorkerPc.hand (s.pc (.worker w)) = [] := by
    rw [(asleep w).1]
    rfl
  have unowed (w : Fin N) : ¬ ∃ t, owesOf w t (s.pc t) = true := by
    rintro ⟨t, owed⟩
    cases t with
    | worker v =>
      rw [(asleep v).1] at owed
      cases owed
    | runner =>
      change RunnerPc.owes w (s.pc .runner) = true at owed
      generalize s.pc .runner = pc at owed returned
      cases pc with
      | addLock i jobs later | addNotify i jobs later => cases returned
      | _ => cases owed
    | main => cases owed
  induction job using c.graph.prerequisite_wellFounded.induction with
  | _ job ih =>
    by_contra unfinished
    have unfinished := List.count_eq_zero.mpr unfinished
    have can := canExecute_of_prerequisites h idle
      ((started_iff_finished h idle job).trans unfinished)
      fun i before => ih i before (added_prerequisite h returned before here)
    obtain ⟨w, inside⟩ := queued_of_unfinished h free here unfinished
    refine unowed w (watched waits h w ?_ (List.any_eq_true.mpr ⟨job, inside, can⟩))
    simp [asleep w, WorkerPc.dozing]

theorem no_global_sleep_pair : ∃ s, (machine pairConfig).Reach noShutDown s ∧
    (∀ w, s.pc (.worker w) = .waitBlocked ∧ s.shared.mAwakeCondition w = .asleep) ∧
    added s 0 ∧ .finished 0 ∈ s.shared.jobs.log := by
  have run : ((machine pairConfig).exec noShutDown
      (steps 3 .main ++ steps 11 .runner ++ steps 13 (.worker 1) ++ steps 12 (.worker 0) ++
        steps 10 (.worker 0) ++ steps 10 (.worker 1))
      (machine pairConfig).start).map (fun s => (s.pc .runner,
        s.pc (.worker 0), s.pc (.worker 1), s.shared.mAwakeCondition 0,
        s.shared.mAwakeCondition 1)) =
      some (.scanSize 0 ⟨0, []⟩, .waitBlocked, .waitBlocked, .asleep, .asleep) := by
    decide +kernel
  obtain ⟨s, hs, same⟩ := Option.map_eq_some_iff.mp run
  simp only [Prod.mk.injEq] at same
  obtain ⟨runner, worker0, worker1, waiter0, waiter1⟩ := same
  have reach := Machine.exec_start _ hs
  have asleep (w : Fin 2) :
      s.pc (.worker w) = .waitBlocked ∧ s.shared.mAwakeCondition w = .asleep := by
    match w with
    | 0 => exact ⟨worker0, waiter0⟩
    | 1 => exact ⟨worker1, waiter1⟩
  have here : added s 0 := by
    rw [added, runner]
    decide
  have returned : RunnerPc.adding (s.pc .runner) = false := by
    rw [runner]
    rfl
  exact ⟨s, reach, asleep, here, no_global_sleep rfl reach returned asleep 0 here⟩

end System
end JobStealer
