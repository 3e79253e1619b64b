import JobStealer.Progress
import JobStealer.Shutdown
import JobStealer.Wakeup
import Mathlib.Data.Finset.Lattice.Fold
import Mathlib.Order.Lattice.Nat

/-!
# Whom `AddJob` and `Shutdown` wake

Both change what the wait condition of a worker depends on without its mutex, and
notify it under the mutex afterwards. A worker that tested the condition before
the change is either at its wait already, and gets the notification, or still
holds the mutex, and the notification comes after its `wait`.

* `heard`: once `AddJob` has returned, the worker does not doze over the job;
* `unblocked`: once `Shutdown` has notified it, it is not blocked any more;
* `Worker.step_remaining`: once `mRunning` is false, every step it takes brings
  it nearer to the end of `Run`, and it starts one job at most.
-/

namespace JobStealer
open Interleaving

variable {n N : Nat}

namespace MainPc

/-- `ShutDown` has stored `false` to `mRunning` of worker `w`. -/
def stopped (w : Fin N) : MainPc N → Bool
  | shutDown i => w < i
  | lowerFlag i | clear i | lock i | notify i | unlock i | join i => w ≤ i
  | joinRunner | left => true
  | _ => false

/-- `ShutDown` has notified worker `w`. -/
def notified (w : Fin N) : MainPc N → Bool
  | shutDown i => w < i
  | lowerFlag i | clear i | lock i | notify i => w < i
  | unlock i | join i => w ≤ i
  | joinRunner | left => true
  | _ => false

/-- `ShutDown` has stored `false` to `mRunning` of worker `w` and is about to notify it. -/
def notifying (w : Fin N) : MainPc N → Bool
  | lowerFlag i | clear i | lock i | notify i => i = w
  | _ => false

theorem notifying_of_stopped {w : Fin N} {pc : MainPc N} (passed : pc.stopped w = true)
    (early : pc.notified w = false) : pc.notifying w = true := by
  cases pc with
  | lowerFlag i | clear i | lock i | notify i =>
    have le : w ≤ i := of_decide_eq_true passed
    have not_lt : ¬ w < i := of_decide_eq_false early
    exact decide_eq_true (le_antisymm (le_of_not_gt not_lt) le)
  | _ => exact absurd (passed.symm.trans early) (by simp)

theorem stopped_of_notified {w : Fin N} {pc : MainPc N} (h : pc.notified w = true) :
    pc.stopped w = true := by
  cases pc <;> grind [notified, stopped]

end MainPc

namespace WorkerPc

/-- At the wait, or blocked there without a notification. -/
def blocking (waiter : Waiter) : WorkerPc n N → Bool
  | waitBlock => true
  | waitBlocked => waiter = .asleep
  | _ => false

theorem dozing_of_blocking {waiter : Waiter} {pc : WorkerPc n N}
    (h : pc.blocking waiter = true) : pc.dozing waiter = true := by
  cases pc with
  | waitBlock => rfl
  | waitBlocked => exact h
  | _ => cases h

/-- For a worker that does not move. -/
theorem blocking_of_dozing {now before : Waiter} {pc : WorkerPc n N}
    (h : pc.blocking now = true) (dozed : pc.dozing before = true) :
    pc.blocking before = true := by
  cases pc with
  | waitBlock => rfl
  | waitBlocked => exact dozed
  | _ => cases h

/-- The next step starts a job. -/
def starting : WorkerPc n N → Bool
  | execute _ => true
  | _ => false

/-- How many jobs a worker may still start that will not run its loop again. -/
def startsLeft : WorkerPc n N → Nat
  | executing _ _ | checkFinished _ | lowerFlag | whileRunning | leave | left => 0
  | _ => 1

end WorkerPc

/-- The steps an `Execute` still takes. -/
def Call.remaining (g : Graph n) : Call n → Nat
  | .idle => 0
  | .running j => (g.dependants j).length + 3
  | .finishing j => (g.dependants j).length + 2
  | .releasing i k => (g.dependants i).length - k + 1

/-- The longest list of dependants. -/
def Graph.longest (g : Graph n) : Nat := Finset.univ.sup fun j => (g.dependants j).length

/-- A bound on the steps worker `w` still takes when `mRunning` is false. -/
def WorkerPc.remaining (c : Config n N) : WorkerPc n N → Nat
  | left => 0
  | leave => 1
  | whileRunning => 2
  | lowerFlag => 3
  | checkFinished _ => 4
  | executing _ call => 4 + call.remaining c.graph
  | execute _ => c.graph.longest + 8
  | stealPop _ => c.graph.longest + 9
  | stealRandom => c.graph.longest + 10
  | steal => c.graph.longest + 11
  | ownPopAgain => c.graph.longest + 12
  | ownSizeAgain => c.graph.longest + 13
  | ownPushBack _ => c.graph.longest + 14
  | ownCheck _ => c.graph.longest + 15
  | ownPop _ => c.graph.longest + 16
  | ownSize => c.graph.longest + 17
  | raiseFlag => c.graph.longest + 18
  | waitUnlock => c.graph.longest + 19
  | waitRunning _ => c.graph.longest + 20
  | waitJobs => c.graph.longest + 21
  | waitLock => c.graph.longest + 22
  | waitBlocked => c.graph.longest + 23
  | waitBlock => c.graph.longest + 24
  | wakeThreads i => c.graph.longest + 23 + 4 * (N - i)
  | wakeLock i => c.graph.longest + 22 + 4 * (N - i)
  | wakeNotify i => c.graph.longest + 21 + 4 * (N - i)
  | wakeUnlock i => c.graph.longest + 20 + 4 * (N - i)
  | checkJobSystem => c.graph.longest + 24 + 4 * N
  | checkJobs => c.graph.longest + 25 + 4 * N

/-! ## What the code does -/

section Code
variable (c : Config n N)

theorem Main.code_stopped (w : Fin N) (pc : MainPc N) :
    (Main.code pc : Instr n N _).Tracks (.mRunning w) (fun pc => !pc.stopped w)
      (!pc.stopped w) := by
  cases pc <;> grind [Main.code, Instr.Tracks, Instr.All, MainPc.stopped]

/-- Only a notification gets `ShutDown` past it. -/
theorem Main.code_notified (w : Fin N) (pc : MainPc N) : pc = .notify w ∨
    (Main.code pc : Instr n N _).All fun next => next.notified w = true → pc.notified w = true := by
  cases pc with
  | notify i =>
    by_cases here : i = w
    · exact .inl (by rw [here])
    · right
      intro passed
      have le : w ≤ i := by simpa [MainPc.notified] using passed
      simpa [MainPc.notified] using lt_of_le_of_ne le (Ne.symm here)
  | _ => grind [Main.code, Instr.All, MainPc.notified]

theorem Runner.code_toAdd (pc : RunnerPc n N) :
    (Runner.code c pc).All fun next => next.toAdd ⊆ pc.toAdd := by
  cases pc with
  | whileRunning later =>
    intro b
    obtain ⟨i, frames⟩ := later
    cases b <;> cases frames <;> simp [RunnerPc.toAdd, nextFrame]
  | addJob jobs later =>
    cases jobs <;> grind [Runner.code, Runner.push, Instr.All, RunnerPc.toAdd]
  | _ => grind [Runner.code, Instr.All, RunnerPc.toAdd]

theorem Runner.code_pushesJob {w : Fin N} {job : Fin n} {pc : RunnerPc n N}
    (h : (Runner.code c pc).pushesJob w job = true) : job ∈ pc.toAdd := by
  cases pc with
  | addJob jobs later =>
    cases jobs <;> grind [Runner.code, Runner.push, Instr.pushesJob, RunnerPc.toAdd]
  | _ => grind [Runner.code, Instr.pushesJob]

/-- `ShutDown` only lowers `mRunning`. -/
theorem Main.code_stops {w : Fin N} {b : Bool} {pc next : MainPc N}
    (h : (Main.code pc : Instr n N _) = .store (.mRunning w) b next) : b = false := by
  cases pc <;> grind [Main.code]

/-- An `Execute` that is over is left at once. -/
theorem Worker.code_busy (w : Fin N) (pc : WorkerPc n N) :
    (Worker.code c w pc).All fun next => ∀ job, next ≠ .executing job .idle := by
  cases pc <;> grind [Worker.code, Instr.All]

/-- A worker that finds `mRunning` false does not come to its wait. -/
theorem Worker.blocking_step {g : Graph n} {w : Fin N} {pc pc' : WorkerPc n N} {t : Thread N}
    {random : Nat} {s s' : Shared g N} (stopped : s.flag (.mRunning w) = false)
    (took : (Worker.code c w pc).exec t random s = some (pc', s'))
    (blocks : pc'.blocking (s'.mAwakeCondition w) = true) :
    pc.blocking (s.mAwakeCondition w) = true := by
  cases pc with
  | waitRunning available =>
    cases took
    rw [stopped] at blocks
    simp [WorkerPc.blocking] at blocks
  | waitBlock => rfl
  | _ =>
    have moves : pc'.blocking (s'.mAwakeCondition w) = false := by
      refine Instr.All.exec (P := fun pc => pc.blocking (s'.mAwakeCondition w) = false) ?_ took
      grind [Worker.code, Instr.All, WorkerPc.blocking]
    rw [moves] at blocks
    cases blocks

theorem WorkerPc.startsLeft_le (pc : WorkerPc n N) : pc.startsLeft ≤ 1 := by
  cases pc <;> simp [WorkerPc.startsLeft]

theorem Worker.step_startsLeft {g : Graph n} {w : Fin N} {pc pc' : WorkerPc n N} {t : Thread N}
    {random : Nat} {s s' : Shared g N} (stopped : s.flag (.mRunning w) = false)
    (took : (Worker.code c w pc).exec t random s = some (pc', s')) :
    (if pc.starting then 1 else 0) + pc'.startsLeft ≤ pc.startsLeft := by
  have none (h : (Worker.code c w pc).All fun pc => pc.startsLeft = 0) : pc'.startsLeft = 0 :=
    h.exec took
  cases pc with
  | whileRunning =>
    cases took
    rw [stopped]
    exact Nat.le_refl _
  | execute job | executing job call | checkFinished job | lowerFlag | leave | left =>
    rw [none (by grind [Worker.code, Instr.All, WorkerPc.startsLeft])]
    simp [WorkerPc.starting, WorkerPc.startsLeft]
  | _ => simpa [WorkerPc.starting, WorkerPc.startsLeft] using WorkerPc.startsLeft_le pc'

theorem advance_remaining {g : Graph n} {m m' : Jobs g} {call next : Call n}
    (move : Execution.advance m call = some (m', next)) :
    next.remaining g < call.remaining g := by
  cases call with
  | idle => cases move
  | running j =>
    cases move
    exact Nat.lt_succ_self _
  | finishing j =>
    cases move
    unfold Call.afterFetchSub
    split <;> simp [Call.remaining]
  | releasing i k =>
    simp only [Execution.advance] at move
    split at move <;> cases move <;> simp only [Call.remaining] <;> omega

theorem length_le_longest (g : Graph n) (j : Fin n) : (g.dependants j).length ≤ g.longest :=
  Finset.le_sup (f := fun j => (g.dependants j).length) (Finset.mem_univ j)

/-- Without `mRunning` the loop is not entered again, so every step leads further
down the code. -/
theorem Worker.step_remaining {w : Fin N} {pc pc' : WorkerPc n N} {t : Thread N}
    {random : Nat} {s s' : Shared c.graph N} (stopped : s.flag (.mRunning w) = false)
    (took : (Worker.code c w pc).exec t random s = some (pc', s')) :
    pc'.remaining c < pc.remaining c := by
  have all (h : (Worker.code c w pc).All fun next => next.remaining c < pc.remaining c) :
      pc'.remaining c < pc.remaining c := h.exec took
  cases pc with
  | whileRunning =>
    cases took
    rw [stopped]
    exact Nat.lt_succ_self _
  | waitRunning available =>
    cases took
    rw [stopped]
    simp [WorkerPc.remaining]
  | wakeThreads i =>
    simp only [Worker.code] at took
    split at took
    · rename_i hi
      cases took
      dsimp only
      split <;> simp only [WorkerPc.remaining] <;> omega
    · cases took
      simp only [WorkerPc.remaining]
      omega
  | wakeLock i | wakeNotify i | wakeUnlock i =>
    have := i.isLt
    apply all
    simp only [Worker.code, Instr.All, WorkerPc.remaining]
    omega
  | executing job call =>
    simp only [Worker.code] at took
    obtain ⟨m, next, advanced, rfl, rfl⟩ := Instr.exec_call took
    have less := advance_remaining advanced
    split <;> simp only [WorkerPc.remaining, Call.remaining] at less ⊢ <;> omega
  | execute job =>
    have := length_le_longest c.graph job
    apply all
    simp only [Worker.code, Instr.All, WorkerPc.remaining, Call.remaining]
    omega
  | _ =>
    apply all
    grind [Worker.code, Instr.All, WorkerPc.remaining]

end Code

namespace System
variable {c : Config n N} {ok : State c → Action N → Prop} {s t u : State c} {w : Fin N}

/-- The worker is blocked in its wait, and no notification is on its way. -/
def Blocked (s : State c) (w : Fin N) : Prop :=
  s.pc (.worker w) = .waitBlocked ∧ s.shared.mAwakeCondition w = .asleep

instance (s : State c) (w : Fin N) : Decidable (Blocked s w) := inferInstanceAs (Decidable (_ ∧ _))

theorem Blocked.blocking (h : Blocked s w) :
    WorkerPc.blocking (s.shared.mAwakeCondition w) (s.pc (.worker w)) = true := by
  rw [h.1]
  exact decide_eq_true h.2

theorem mRunning_stopped (h : (machine c).Reach ok s) (w : Fin N) :
    s.shared.flag (.mRunning w) = !MainPc.stopped w (s.pc .main) := by
  refine tracked (t := .main) (a := fun pc => !MainPc.stopped w pc) rfl (Main.code_stopped w) ?_ h
  intro s run u other
  cases u with
  | worker v => exact Worker.code_leaves c (by simp) (by simp) _
  | runner => exact Runner.code_leaves c (by simp) _
  | main => exact absurd rfl other

theorem step_of_exec {v : Thread N} {random : Nat}
    (took : ∃ r, (code c v (s.pc v)).exec v random s.shared = some r) :
    ∃ t, (machine c).step (v, random) s = some t := by
  obtain ⟨r, took⟩ := took
  exact ⟨_, by simp only [machine, Threads.machine, threads, took]; rfl⟩

/-- Whoever notifies a worker holds its mutex, and finds it blocked if it dozes. -/
theorem not_dozing_of_notify (run : (machine c).Reach ok s) {v : Thread N} {random : Nat}
    {pc next : Pc n N v} {shared : Shared c.graph N} (other : v ≠ .worker w)
    (notify : code c v (s.pc v) = .notify w next) (held : locksOf v (s.pc v) = some w)
    (took : (code c v (s.pc v)).exec v random s.shared = some (pc, shared)) :
    WorkerPc.dozing (shared.mAwakeCondition w) (s.pc (.worker w)) = false := by
  by_contra dozes
  rw [notify] at took
  exact not_asleep_of_notify took
    (asleep_of_locked run other held ((Bool.not_eq_false _).mp dozes))

/-! ## `Shutdown` -/

theorem unblocked (h : (machine c).Reach ok s) (w : Fin N)
    (notified : MainPc.notified w (s.pc .main) = true) :
    WorkerPc.blocking (s.shared.mAwakeCondition w) (s.pc (.worker w)) = false := by
  induction h with
  | start => cases notified
  | @next s s' a run _ move ih =>
    obtain ⟨pc, shared, took, rfl⟩ := step_cases move
    obtain ⟨v, random⟩ := a
    by_contra blocks
    have blocks := (Bool.not_eq_false _).mp blocks
    by_cases own : v = .worker w
    · subst own
      rw [s.move_self] at blocks
      rw [s.move_other pc shared (by simp)] at notified
      have stopped := mRunning_stopped run w
      rw [MainPc.stopped_of_notified notified] at stopped
      have before := Worker.blocking_step c stopped took blocks
      exact absurd ((ih notified).symm.trans before) (by simp)
    · rw [s.move_other pc shared (Ne.symm own)] at blocks
      have dozed := dozing_of_other own took (WorkerPc.dozing_of_blocking blocks)
      have before := WorkerPc.blocking_of_dozing blocks dozed
      have old (passed : MainPc.notified w (s.pc .main) = true) : False :=
        absurd ((ih passed).symm.trans before) (by simp)
      cases v with
      | worker v | runner =>
        rw [s.move_other pc shared (by simp)] at notified
        exact old notified
      | main =>
        rw [s.move_self] at notified
        cases Main.code_notified (n := n) w (s.pc .main) with
        | inl here =>
          have wakes := not_dozing_of_notify run own (by rw [here]; rfl) (by rw [here]; rfl) took
          exact absurd (wakes.symm.trans (WorkerPc.dozing_of_blocking blocks)) (by simp)
        | inr all => exact old (all.exec took notified)

/-! ## `AddJob` -/

theorem log_grows (rest : ((machine c).after s).Reachable t) :
    s.shared.jobs.log ⊆ t.shared.jobs.log := by
  apply rest.invariant (I := fun t => s.shared.jobs.log ⊆ t.shared.jobs.log) (List.Subset.refl _)
  intro u v a _ ih _ move
  obtain ⟨pc, shared, took, rfl⟩ := step_cases move
  exact List.Subset.trans ih (Instr.exec_log took)

/-- A job that was executable still is while it lies in a deque. -/
theorem canExecute_of_queued (h : (machine c).Reachable s) {job : Fin n}
    (can : s.shared.jobs.canExecute job = true) (rest : ((machine c).after s).Reachable t)
    (inside : job ∈ (t.shared.mJobDeque w).mJobDeque) :
    t.shared.jobs.canExecute job = true := by
  have now := h.trans rest
  have clear := (Execution.reachable_inv (executes h)).pending_of_canExecute can
  have fewer := pending_mono (log_grows rest) job
  have history := (Execution.reachable_inv (executes now)).history
  apply (Execution.canExecute_iff (executes now) job).mpr
  refine ⟨Nat.le_zero.mp (clear ▸ fewer), ?_⟩
  intro subtracted
  exact (queued now inside).1 (history.started (history.ended subtracted))

/-- A worker that dozes over an executable job that is not being pushed did so before. -/
theorem dozed (waits : c.waitForAvailableJobs = true) {v : Thread N} {random : Nat}
    {pc : Pc n N v} {shared : Shared c.graph N} {job : Fin n}
    (took : (code c v (s.pc v)).exec v random s.shared = some (pc, shared))
    (gone : job ∉ RunnerPc.toAdd (s.pc .runner))
    (inside : job ∈ (shared.mJobDeque w).mJobDeque) (can : shared.jobs.canExecute job = true)
    (dozes : WorkerPc.dozing (shared.mAwakeCondition w)
      ((s.move v pc shared).pc (.worker w)) = true) :
    job ∈ (s.shared.mJobDeque w).mJobDeque ∧
      WorkerPc.dozing (s.shared.mAwakeCondition w) (s.pc (.worker w)) = true := by
  constructor
  · apply (Instr.exec_mem took inside).resolve_right
    intro pushed
    cases v with
    | worker v =>
      have pushes : (Worker.code c v (s.pc (.worker v))).pushes w = true :=
        Instr.pushes_of_job pushed
      obtain ⟨rfl, other, here⟩ := Worker.code_pushes c pushes
      rw [code, here] at took
      cases took
      rw [s.move_self] at dozes
      cases dozes
    | runner => exact gone (Runner.code_pushesJob c pushed)
    | main =>
      have idle := Main.code_pushes (n := n) w (s.pc .main)
      exact absurd (idle.symm.trans (Instr.pushes_of_job pushed)) (by simp)
  · by_cases own : v = .worker w
    · subst own
      rw [s.move_self] at dozes
      apply (Worker.dozing_step c waits took dozes).resolve_right
      intro none
      exact absurd (none.symm.trans (List.any_eq_true.mpr ⟨job, inside, can⟩)) (by simp)
    · rw [s.move_other pc shared (Ne.symm own)] at dozes
      exact dozing_of_other own took dozes

/-- The job was pushed, and the runner still has to notify the worker if it dozes
over it. -/
def Posted (w : Fin N) (job : Fin n) (s : State c) : Prop :=
  job ∉ RunnerPc.toAdd (s.pc .runner) ∧ (job ∈ (s.shared.mJobDeque w).mJobDeque →
    WorkerPc.dozing (s.shared.mAwakeCondition w) (s.pc (.worker w)) = true →
    RunnerPc.owes w (s.pc .runner) = true)

/-- The job was pushed, and the worker does not doze over it. -/
def Heard (w : Fin N) (job : Fin n) (s : State c) : Prop :=
  job ∉ RunnerPc.toAdd (s.pc .runner) ∧ (job ∈ (s.shared.mJobDeque w).mJobDeque →
    WorkerPc.dozing (s.shared.mAwakeCondition w) (s.pc (.worker w)) = false)

theorem step_toAdd {job : Fin n} {a : Action N} (gone : job ∉ RunnerPc.toAdd (s.pc .runner))
    (move : (machine c).step a s = some t) : job ∉ RunnerPc.toAdd (t.pc .runner) := by
  obtain ⟨pc, shared, took, rfl⟩ := step_cases move
  obtain ⟨v, random⟩ := a
  cases v with
  | runner =>
    rw [s.move_self]
    exact fun inside => gone ((Runner.code_toAdd c (s.pc .runner)).exec took inside)
  | worker v | main => rwa [s.move_other pc shared (by simp)]

theorem step_heard (waits : c.waitForAvailableJobs = true) {job : Fin n} {a : Action N}
    (h : Heard w job s) (can : job ∈ (t.shared.mJobDeque w).mJobDeque →
      t.shared.jobs.canExecute job = true)
    (move : (machine c).step a s = some t) : Heard w job t := by
  refine ⟨step_toAdd h.1 move, ?_⟩
  intro inside
  obtain ⟨pc, shared, took, rfl⟩ := step_cases move
  by_contra dozes
  have dozes := (Bool.not_eq_false _).mp dozes
  obtain ⟨before, dozing⟩ := dozed waits took h.1 inside (can inside) dozes
  exact absurd ((h.2 before).symm.trans dozing) (by simp)

theorem step_posted (waits : c.waitForAvailableJobs = true) {job : Fin n} {a : Action N}
    (run : (machine c).Reach ok s) (h : Posted w job s)
    (can : job ∈ (t.shared.mJobDeque w).mJobDeque → t.shared.jobs.canExecute job = true)
    (move : (machine c).step a s = some t) : Posted w job t := by
  refine ⟨step_toAdd h.1 move, ?_⟩
  intro inside dozes
  obtain ⟨pc, shared, took, rfl⟩ := step_cases move
  obtain ⟨v, random⟩ := a
  obtain ⟨before, dozing⟩ := dozed waits took h.1 inside (can inside) dozes
  have owed := h.2 before dozing
  cases v with
  | worker v | main => rwa [s.move_other pc shared (by simp)]
  | runner =>
    rw [s.move_self]
    rw [s.move_other pc shared (by simp)] at dozes
    cases Runner.owes_step c owed with
    | inl here =>
      obtain ⟨jobs, later, notify⟩ := here
      have wakes := not_dozing_of_notify run (w := w) (by simp) (by rw [notify]; rfl)
        (by rw [notify]; rfl) took
      exact absurd (wakes.symm.trans dozes) (by simp)
    | inr all => exact all.exec took

/-- From the push of an executable job on it is posted. -/
theorem posted (waits : c.waitForAvailableJobs = true) (h : (machine c).Reachable s)
    {job : Fin n} {jobs : List (Fin n)} {later : Later n N}
    (adds : s.pc .runner = .addJob (job :: jobs) later) (target : later.mCurrentWorkerId = w)
    (can : s.shared.jobs.canExecute job = true) (rest : ((machine c).after s).Reachable t) :
    t.pc .runner = .addJob (job :: jobs) later ∨ Posted w job t := by
  apply rest.invariant (I := fun t =>
    t.pc .runner = .addJob (job :: jobs) later ∨ Posted w job t) (.inl adds)
  intro x y a way ih _ move
  have run := h.trans way
  cases ih with
  | inr posted =>
    right
    exact step_posted waits run posted (canExecute_of_queued h can (way.next trivial move)) move
  | inl still =>
    have once := List.nodup_iff_count_le_one.mp c.once job
    have total := conserved_le run job
    obtain ⟨pc, shared, took, rfl⟩ := step_cases move
    obtain ⟨v, random⟩ := a
    cases v with
    | worker v | main =>
      left
      rwa [x.move_other pc shared (by simp)]
    | runner =>
      right
      rw [sum_heldBy, still] at total
      have one : (job :: (jobs ++ later.frames.flatten)).count job ≤ 1 := by
        simp only [RunnerPc.toAdd, List.cons_append] at total
        omega
      have gone : job ∉ jobs ++ later.frames.flatten := by
        intro again
        have := List.count_pos_iff.mpr again
        rw [List.count_cons_self] at one
        omega
      have next : pc = .addLock w jobs { later with mCurrentWorkerId := Runner.advance w } := by
        rw [code, still] at took
        simp only [Runner.code, Runner.push] at took
        split at took <;> cases took <;> rw [target]
      refine ⟨?_, fun _ _ => ?_⟩
      · rw [x.move_self, next]
        exact gone
      · rw [x.move_self, next]
        simp [RunnerPc.owes]

theorem heard (waits : c.waitForAvailableJobs = true) (h : (machine c).Reachable s)
    {job : Fin n} {jobs : List (Fin n)} {later after : Later n N}
    (adds : s.pc .runner = .addJob (job :: jobs) later) (target : later.mCurrentWorkerId = w)
    (can : s.shared.jobs.canExecute job = true) (way : ((machine c).after s).Reachable u)
    (returned : u.pc .runner = .addJob jobs after) (rest : ((machine c).after u).Reachable t) :
    Heard w job t := by
  have posted := (posted waits h adds target can way).resolve_left (by simp [returned])
  have start : Heard w job u := by
    refine ⟨posted.1, ?_⟩
    intro inside
    by_contra dozes
    have owed := posted.2 inside ((Bool.not_eq_false _).mp dozes)
    rw [returned] at owed
    cases owed
  apply rest.invariant (I := Heard w job) start
  intro x y a path ih _ move
  exact step_heard waits ih (canExecute_of_queued h can (way.trans (path.next trivial move))) move

/-! ## The end of `Run` -/

/-- Whoever holds a mutex stands where it is held. -/
theorem own_locks (h : (machine c).Reach ok s) {v : Thread N} {i : Fin N}
    (owner : s.shared.mAwakeMutex i = some v) : locksOf v (s.pc v) = some i := by
  induction h generalizing v i with
  | start => cases owner
  | @next s s' a run _ move ih =>
    obtain ⟨pc, shared, took, rfl⟩ := step_cases move
    rw [congrFun (s.move_map pc shared locksOf) v]
    exact Instr.Locks.exec_owner (code_locks c a.1 (s.pc a.1)) (fun _ _ => ih) took v i owner

/-- And does not stop there. -/
theorem holder_moves {v : Thread N} {i : Fin N} (held : locksOf v (s.pc v) = some i) :
    ∃ t, (machine c).step (v, 0) s = some t := by
  apply step_of_exec
  cases v with
  | worker v =>
    change WorkerPc.locks v (s.pc (.worker v)) = some i at held
    generalize s.pc (.worker v) = pc at held
    cases pc with
    | wakeNotify i | wakeUnlock i | waitRunning available | waitBlock | waitUnlock => exact ⟨_, rfl⟩
    | waitJobs =>
      simp only [code, Worker.code]
      split <;> exact ⟨_, rfl⟩
    | _ => cases held
  | runner =>
    change RunnerPc.locks (s.pc .runner) = some i at held
    generalize s.pc .runner = pc at held
    cases pc with
    | addNotify i jobs later | addUnlock i jobs later => exact ⟨_, rfl⟩
    | _ => cases held
  | main =>
    change MainPc.locks (s.pc .main) = some i at held
    generalize s.pc .main = pc at held
    cases pc with
    | notify i | unlock i => exact ⟨_, rfl⟩
    | _ => cases held

theorem executing_busy (h : (machine c).Reach ok s) (w : Fin N) (job : Fin n) :
    s.pc (.worker w) ≠ .executing job .idle := by
  refine Threads.local_invariant (P := threads c) (t := .worker w)
    (Q := fun pc => pc ≠ .executing job .idle) (by simp [threads]) ?_ h
  intro s _ pc shared _ _ took
  exact (Worker.code_busy c w (s.pc (.worker w))).exec took job

/-- The thread can take a step, or waits for a mutex whose holder can. -/
def Moves (s : State c) (v : Thread N) : Prop :=
  (∃ t, (machine c).step (v, 0) s = some t) ∨
  ∃ i u, u ≠ v ∧ s.shared.mAwakeMutex i = some u ∧ ∃ t, (machine c).step (u, 0) s = some t

/-- A thread at a `lock` does not hold a mutex itself. -/
theorem moves_of_lock (h : (machine c).Reach ok s) {v : Thread N} {i : Fin N} {next : Pc n N v}
    (here : code c v (s.pc v) = .lock i next) (free : locksOf v (s.pc v) = none) : Moves s v := by
  cases owner : s.shared.mAwakeMutex i with
  | none =>
    left
    apply step_of_exec
    exact ⟨_, by rw [here]; exact if_pos owner⟩
  | some u =>
    right
    have held := own_locks h owner
    refine ⟨i, u, ?_, owner, holder_moves held⟩
    rintro rfl
    exact absurd (free.symm.trans held) (by simp)

theorem worker_moves (h : (machine c).Reach ok s) (w : Fin N)
    (busy : s.pc (.worker w) ≠ .left) : Moves s (.worker w) := by
  have locks {i : Fin N} {next : WorkerPc n N} := @moves_of_lock n N c ok s h (.worker w) i next
  have steps (r)
      (took : (Worker.code c w (s.pc (.worker w))).exec (.worker w) 0 s.shared = some r) :
      Moves s (.worker w) := .inl (step_of_exec ⟨r, took⟩)
  have executes := executing_busy h w
  simp only [code, locksOf] at locks
  generalize s.pc (.worker w) = pc at locks steps busy executes
  cases pc with
  | left => exact absurd rfl busy
  | wakeLock i | waitLock => exact locks rfl rfl
  | executing job call =>
    have more : ∃ r, Execution.advance s.shared.jobs call = some r := by
      cases call with
      | idle => exact absurd rfl (executes job)
      | running j | finishing j => exact ⟨_, rfl⟩
      | releasing i k =>
        simp only [Execution.advance]
        split <;> exact ⟨_, rfl⟩
    obtain ⟨r, more⟩ := more
    apply steps
    simp only [Worker.code, Instr.exec, more, Option.map_some]
    rfl
  | checkJobs | waitJobs | wakeThreads i =>
    simp only [Worker.code] at steps
    split at steps <;> exact steps _ rfl
  | _ => exact steps _ rfl

/-- `Run` has returned, or the worker is not blocked and can go on, or `ShutDown`
can, which is about to notify it. -/
def GoesOn (s : State c) (w : Fin N) : Prop :=
  (s.pc (.worker w) = .left ∧ s.shared.flag (.ended (.worker w)) = true) ∨
  (¬ Blocked s w ∧ Moves s (.worker w)) ∨
  (MainPc.notifying w (s.pc .main) = true ∧ Moves s .main)

theorem goes_on (h : (machine c).Reach ok s) {w : Fin N}
    (stopped : s.shared.flag (.mRunning w) = false) : GoesOn s w := by
  by_cases gone : s.pc (.worker w) = .left
  · left
    have ended := ended_eq h w
    rw [gone] at ended
    exact ⟨gone, ended⟩
  · right
    by_cases blocked : Blocked s w
    · right
      -- not notified yet, so `ShutDown` is on its way
      have passed : MainPc.stopped w (s.pc .main) = true := by
        rw [mRunning_stopped h] at stopped
        simpa using stopped
      have early : MainPc.notified w (s.pc .main) = false := by
        by_contra notified
        exact absurd ((unblocked h w ((Bool.not_eq_false _).mp notified)).symm.trans
          blocked.blocking) (by simp)
      have here := MainPc.notifying_of_stopped passed early
      refine ⟨here, ?_⟩
      have locks {i : Fin N} {next : MainPc N} := @moves_of_lock n N c ok s h .main i next
      have steps (r) (took : (Main.code (s.pc .main)).exec .main 0 s.shared = some r) :
          Moves s .main := .inl (step_of_exec ⟨r, took⟩)
      simp only [code, locksOf] at locks
      generalize s.pc .main = pc at locks steps here
      cases pc with
      | lock i => exact locks rfl rfl
      | lowerFlag i | clear i | notify i => exact steps _ rfl
      | _ => cases here
    · exact .inl ⟨blocked, worker_moves h w gone⟩

/-- 1 for a step with which worker `w` starts a job. -/
def starts (w : Fin N) (s : State c) (a : Action N) : Nat :=
  if a.1 = .worker w ∧ WorkerPc.starting (s.pc (.worker w)) = true then 1 else 0

/-- 1 for any step of worker `w`. -/
def stepsOf (w : Fin N) (_ : State c) (a : Action N) : Nat := if a.1 = .worker w then 1 else 0

theorem stopped_stays {a : Action N} (stopped : s.shared.flag (.mRunning w) = false)
    (move : (machine c).step a s = some t) : t.shared.flag (.mRunning w) = false := by
  obtain ⟨pc, shared, took, rfl⟩ := step_cases move
  obtain ⟨v, random⟩ := a
  cases v with
  | worker v =>
    exact ((Worker.code_leaves c (by simp) (by simp) _).exec took).trans stopped
  | runner => exact ((Runner.code_leaves c (by simp) _).exec took).trans stopped
  | main =>
    cases Instr.exec_flag took with
    | inl same => exact (congrFun same _).trans stopped
    | inr stores =>
      obtain ⟨f, b, store, eq⟩ := stores
      by_cases here : f = .mRunning w
      · subst here
        rw [s.move_shared, eq, Function.update_self]
        exact Main.code_stops store
      · rw [s.move_shared, eq, Function.update_of_ne (Ne.symm here)]
        exact stopped

theorem still_stopped {actions : List (Action N)}
    (stopped : s.shared.flag (.mRunning w) = false)
    (run : (machine c).run actions s = some t) : t.shared.flag (.mRunning w) = false := by
  have rest : ((machine c).after s).Reachable t :=
    Machine.exec_start actions ((Machine.exec_after s actions s).trans run)
  apply rest.invariant (I := fun t => t.shared.flag (.mRunning w) = false) stopped
  intro u v a _ ih _ move
  exact stopped_stays ih move

theorem starts_step {a : Action N} (stopped : s.shared.flag (.mRunning w) = false)
    (move : (machine c).step a s = some t) :
    starts w s a + WorkerPc.startsLeft (t.pc (.worker w)) ≤
      WorkerPc.startsLeft (s.pc (.worker w)) := by
  obtain ⟨pc, shared, took, rfl⟩ := step_cases move
  obtain ⟨v, random⟩ := a
  by_cases own : v = .worker w
  · subst own
    rw [s.move_self]
    simpa [starts] using Worker.step_startsLeft c stopped took
  · rw [s.move_other pc shared (Ne.symm own)]
    simp [starts, own]

theorem stepsOf_step {a : Action N} (stopped : s.shared.flag (.mRunning w) = false)
    (move : (machine c).step a s = some t) :
    stepsOf w s a + WorkerPc.remaining c (t.pc (.worker w)) ≤
      WorkerPc.remaining c (s.pc (.worker w)) := by
  obtain ⟨pc, shared, took, rfl⟩ := step_cases move
  obtain ⟨v, random⟩ := a
  by_cases own : v = .worker w
  · subst own
    rw [s.move_self]
    have less : WorkerPc.remaining c pc < WorkerPc.remaining c (s.pc (.worker w)) :=
      Worker.step_remaining c stopped took
    simp only [stepsOf, if_true]
    omega
  · rw [s.move_other pc shared (Ne.symm own)]
    simp [stepsOf, own]

theorem starts_le {actions : List (Action N)} (stopped : s.shared.flag (.mRunning w) = false)
    (run : (machine c).run actions s = some t) : (machine c).tally (starts w) actions s ≤ 1 := by
  have step (s t : State c) (a) (stopped : s.shared.flag (.mRunning w) = false)
      (move : (machine c).step a s = some t) :=
    And.intro (stopped_stays stopped move) (starts_step stopped move)
  have bound := Machine.tally_le step stopped run
  have one : WorkerPc.startsLeft (s.pc (.worker w)) ≤ 1 := WorkerPc.startsLeft_le _
  omega

theorem stepsOf_le {actions : List (Action N)} (stopped : s.shared.flag (.mRunning w) = false)
    (run : (machine c).run actions s = some t) :
    (machine c).tally (stepsOf w) actions s ≤ WorkerPc.remaining c (s.pc (.worker w)) := by
  have step (s t : State c) (a) (stopped : s.shared.flag (.mRunning w) = false)
      (move : (machine c).step a s = some t) :=
    And.intro (stopped_stays stopped move) (stepsOf_step stopped move)
  exact Nat.le_trans (Nat.le_add_right _ _) (Machine.tally_le step stopped run)

/-- With `HTL_WAIT_FOR_AVAILABLE_JOBS`, and with or without a `ShutDown`: after an
`AddJob` of an executable job has returned its worker is not blocked without a
notification while the job lies in its deque, nor is it once `ShutDown` has
notified it. After `mRunning = false` it starts at most one more job, and `Run`
returns within a bounded number of its steps, which nothing blocks for good: not
even a wait that no notification would end, for `ShutDown` then sends one. -/
theorem no_lost_wakeup (waits : c.waitForAvailableJobs = true) (w : Fin N) :
    (∀ (s u t : State c) job jobs later, (machine c).Reachable s →
      s.pc .runner = .addJob (job :: jobs) later → later.mCurrentWorkerId = w →
      s.shared.jobs.canExecute job = true → ((machine c).after s).Reachable u →
      u.pc .runner = .addJob jobs { later with mCurrentWorkerId := Runner.advance w } →
      ((machine c).after u).Reachable t → job ∈ (t.shared.mJobDeque w).mJobDeque →
      ¬ Blocked t w) ∧
    (∀ s : State c, (machine c).Reachable s → MainPc.notified w (s.pc .main) = true →
      ¬ Blocked s w) ∧
    ∀ s : State c, (machine c).Reachable s → s.shared.flag (.mRunning w) = false →
      ∀ actions t, (machine c).run actions s = some t →
        (machine c).tally (starts w) actions s ≤ 1 ∧
        (machine c).tally (stepsOf w) actions s ≤ WorkerPc.remaining c (s.pc (.worker w)) ∧
        GoesOn t w := by
  refine ⟨?_, ?_, ?_⟩
  · intro s u t job jobs later h adds target can way returned rest inside blocked
    have heard := (heard waits h adds target can way returned rest).2 inside
    exact absurd (heard.symm.trans (WorkerPc.dozing_of_blocking blocked.blocking)) (by simp)
  · intro s h notified blocked
    exact absurd ((unblocked h w notified).symm.trans blocked.blocking) (by simp)
  · intro s h stopped actions t run
    have still := still_stopped stopped run
    exact ⟨starts_le stopped run, stepsOf_le stopped run, goes_on (Machine.exec_reach h run) still⟩

/-- A worker is blocked when its job comes, and not blocked when `AddJob` returns; one
that was asleep is not blocked once `ShutDown` has notified it; one that was about to
execute a job when `mRunning` became false executes it, and its `Run` returns. -/
theorem no_lost_wakeup_solo :
    (∃ s u, (machine soloConfig).Reachable s ∧ Blocked s 0 ∧
      ((machine soloConfig).after s).Reachable u ∧ (u.shared.mJobDeque 0).mJobDeque = [0] ∧
      ¬ Blocked u 0) ∧
    (∃ s, (machine soloConfig).Reachable s ∧ s.pc (.worker 0) = .waitBlocked ∧
      s.pc .main = .unlock 0 ∧ ¬ Blocked s 0) ∧
    ∃ s t, (machine soloConfig).Reachable s ∧ s.pc (.worker 0) = .execute 0 ∧
      s.shared.flag (.mRunning 0) = false ∧
      (machine soloConfig).run (steps 8 (.worker 0)) s = some t ∧ t.pc (.worker 0) = .left ∧
      (machine soloConfig).tally (starts 0) (steps 8 (.worker 0)) s ≤ 1 ∧
      (machine soloConfig).tally (stepsOf 0) (steps 8 (.worker 0)) s ≤
        WorkerPc.remaining soloConfig (s.pc (.worker 0)) ∧ GoesOn t 0 := by
  have woken := no_lost_wakeup (c := soloConfig) rfl 0
  refine ⟨?_, ?_, ?_⟩
  · have run : ((machine soloConfig).run (steps 2 .main ++ steps 9 (.worker 0) ++ steps 2 .runner)
        (machine soloConfig).start).bind (fun s =>
          (((machine soloConfig).after s).run (steps 4 .runner) s).map fun u =>
            (decide (Blocked s 0), s.pc .runner, s.shared.jobs.canExecute 0, u.pc .runner,
              (u.shared.mJobDeque 0).mJobDeque)) =
        some (true, .addJob [0] ⟨0, []⟩, true, .addJob [] ⟨0, []⟩, [0]) := by
      decide +kernel
    obtain ⟨s, hs, rest⟩ := Option.bind_eq_some_iff.mp run
    obtain ⟨u, hu, same⟩ := Option.map_eq_some_iff.mp rest
    simp only [Prod.mk.injEq] at same
    obtain ⟨blocked, adds, can, returned, inside⟩ := same
    have reach := Machine.exec_start _ hs
    have way : ((machine soloConfig).after s).Reachable u := Machine.exec_start _ hu
    have heard := woken.1 s u u 0 [] ⟨0, []⟩ reach adds rfl can way
      returned .start (by rw [inside]; exact List.mem_singleton_self 0)
    exact ⟨s, u, reach, of_decide_eq_true blocked, way, inside, heard⟩
  · have run : ((machine soloConfig).run (steps 2 .main ++ steps 9 (.worker 0) ++ steps 7 .main)
        (machine soloConfig).start).map (fun s => (s.pc (.worker 0), s.pc .main)) =
        some (.waitBlocked, .unlock 0) := by
      decide +kernel
    obtain ⟨s, hs, same⟩ := Option.map_eq_some_iff.mp run
    obtain ⟨asleep, notifies⟩ := Prod.mk.inj same
    have reach := Machine.exec_start _ hs
    exact ⟨s, reach, asleep, notifies, woken.2.1 s reach (by rw [notifies]; rfl)⟩
  · have run : ((machine soloConfig).run
        (steps 2 .main ++ steps 6 .runner ++ steps 6 (.worker 0) ++ steps 3 .main)
        (machine soloConfig).start).bind (fun s =>
          ((machine soloConfig).run (steps 8 (.worker 0)) s).map fun t =>
            (s.pc (.worker 0), s.shared.flag (.mRunning 0), t.pc (.worker 0))) =
        some (.execute 0, false, .left) := by
      decide +kernel
    obtain ⟨s, hs, rest⟩ := Option.bind_eq_some_iff.mp run
    obtain ⟨t, ht, same⟩ := Option.map_eq_some_iff.mp rest
    simp only [Prod.mk.injEq] at same
    obtain ⟨executes, stopped, left⟩ := same
    have reach := Machine.exec_start _ hs
    exact ⟨s, t, reach, executes, stopped, ht, left, woken.2.2 s reach stopped _ t ht⟩

end System
end JobStealer
