import JobStealer.System
import Mathlib.Algebra.Order.BigOperators.Group.Finset

/-!
# Every job in one place

The threads' `Execute` calls are a run of `Execution.machine` (`executes`): what
that machine keeps, the job system keeps, with and without `ShutDown`.

Before a `ShutDown` no job appears or disappears (`conserved`): the copies in the
deques, in the hands of the threads and on record as finished are those the
frames add. `one_place` puts the two together.
-/

namespace JobStealer
open Interleaving

variable {n N : Nat}

namespace WorkerPc

def call : WorkerPc n N → Call n
  | executing _ call => call
  | _ => .idle

/-- The job whose `Execute` comes next. -/
def ready : WorkerPc n N → Option (Fin n)
  | execute job => some job
  | _ => none

/-- The job the worker has in its hands, being re-ordered or executed. -/
def hand : WorkerPc n N → List (Fin n)
  | ownCheck job | ownPushBack job | execute job => [job]
  | executing _ call => call.jobs
  | _ => []

end WorkerPc

/-- The jobs whose `AddJob` is still to come. -/
def RunnerPc.toAdd : RunnerPc n N → List (Fin n)
  | addJob jobs later | addLock _ jobs later | addNotify _ jobs later | addUnlock _ jobs later =>
    jobs ++ later.frames.flatten
  | begin later | whileRunning later | scanSize _ later | scanFlag _ later | deleteJobs later
  | leave later | left later => later.frames.flatten

/-- Before `ShutDown`. -/
def MainPc.serving : MainPc N → Bool
  | construct _ | waitForKey => true
  | _ => false

def callOf : (t : Thread N) → Pc n N t → Call n
  | .worker _ => WorkerPc.call
  | .runner | .main => fun _ => .idle

def readyOf : (t : Thread N) → Pc n N t → Option (Fin n)
  | .worker _ => WorkerPc.ready
  | .runner | .main => fun _ => none

def heldBy : (t : Thread N) → Pc n N t → List (Fin n)
  | .worker _ => WorkerPc.hand
  | .runner => RunnerPc.toAdd
  | .main => fun _ => []

/-! ## What the code does with jobs -/

section Code
variable (c : Config n N)

theorem Worker.code_runs (w : Fin N) (pc : WorkerPc n N) :
    (Worker.code c w pc).Runs WorkerPc.call WorkerPc.ready pc.call pc.ready := by
  cases pc with
  | whileRunning | checkJobSystem =>
    intro b
    cases b <;> exact ⟨rfl, rfl⟩
  | checkJobs =>
    simp only [Worker.code]
    split
    · intro b
      cases b <;> exact ⟨rfl, rfl⟩
    · intro k
      dsimp only
      split <;> exact ⟨rfl, rfl⟩
  | wakeThreads i =>
    simp only [Worker.code]
    split
    · intro b
      cases b <;> exact ⟨rfl, rfl⟩
    · exact ⟨rfl, rfl⟩
  | raiseFlag | wakeLock i | wakeNotify i | wakeUnlock i | waitLock | waitBlock | waitBlocked
  | waitUnlock | lowerFlag | leave => exact ⟨rfl, rfl⟩
  | waitJobs =>
    simp only [Worker.code]
    split <;>
    · intro x
      exact ⟨rfl, rfl⟩
  | waitRunning available =>
    intro b
    dsimp only
    split <;> exact ⟨rfl, rfl⟩
  | ownSize | stealRandom | checkFinished job =>
    intro x
    exact ⟨rfl, rfl⟩
  | ownPop allow =>
    intro job
    cases job <;> exact ⟨rfl, fun i hi => by cases hi⟩
  | ownCheck job =>
    intro b
    cases b
    · exact ⟨rfl, fun i hi => by cases hi⟩
    · refine ⟨rfl, fun i hi => ⟨rfl, ?_⟩⟩
      exact (Option.some.inj hi).symm
  | ownPushBack job => exact ⟨rfl, rfl⟩
  | ownSizeAgain =>
    intro k
    dsimp only
    split <;> exact ⟨rfl, rfl⟩
  | ownPopAgain =>
    intro job
    cases job
    · exact ⟨rfl, fun i hi => by cases hi⟩
    · exact ⟨rfl, fun i hi => ⟨rfl, hi⟩⟩
  | steal =>
    intro b
    dsimp only
    split <;> exact ⟨rfl, rfl⟩
  | stealPop i =>
    intro job
    cases job
    · exact ⟨rfl, fun i hi => by cases hi⟩
    · exact ⟨rfl, fun i hi => hi⟩
  | execute job => exact ⟨rfl, rfl, rfl, rfl⟩
  | executing job call =>
    refine ⟨rfl, fun call => ?_⟩
    cases call <;> exact ⟨rfl, rfl⟩
  | left => trivial

theorem Worker.code_moves (w : Fin N) (pc : WorkerPc n N) :
    (Worker.code c w pc).Moves WorkerPc.hand pc.hand := by
  cases pc with
  | whileRunning | checkJobSystem =>
    intro b
    cases b <;> rfl
  | checkJobs =>
    simp only [Worker.code]
    split
    · intro b
      cases b <;> rfl
    · intro k
      dsimp only
      split <;> rfl
  | wakeThreads i =>
    simp only [Worker.code]
    split
    · intro b
      cases b <;> rfl
    · rfl
  | raiseFlag | wakeLock i | wakeNotify i | wakeUnlock i | waitLock | waitBlock | waitBlocked
  | waitUnlock | ownPushBack job | execute job | lowerFlag | leave => rfl
  | waitJobs =>
    simp only [Worker.code]
    split <;>
    · intro x
      rfl
  | waitRunning available =>
    intro b
    dsimp only
    split <;> rfl
  | ownSize | stealRandom | checkFinished job =>
    intro x
    rfl
  | ownPop allow | ownPopAgain | stealPop i =>
    intro job
    cases job <;> rfl
  | ownCheck job =>
    intro b
    cases b <;> rfl
  | ownSizeAgain =>
    intro k
    dsimp only
    split <;> rfl
  | steal =>
    intro b
    dsimp only
    split <;> rfl
  | executing job call =>
    refine ⟨rfl, fun call => ?_⟩
    cases call <;> rfl
  | left => trivial

theorem Runner.code_quiet (pc : RunnerPc n N) :
    (Runner.code c pc).Runs (fun _ => .idle) (fun _ => none) .idle none := by
  cases pc with
  | begin later | addLock i jobs later | addNotify i jobs later | addUnlock i jobs later
  | deleteJobs later | leave later => exact ⟨rfl, rfl⟩
  | whileRunning later | scanFlag i later =>
    intro b
    exact ⟨rfl, rfl⟩
  | addJob jobs later =>
    cases jobs with
    | nil => exact ⟨rfl, rfl⟩
    | cons job jobs =>
      simp only [Runner.code, Runner.push]
      split <;> exact ⟨rfl, rfl⟩
  | scanSize i later =>
    simp only [Runner.code]
    split
    · intro k
      exact ⟨rfl, rfl⟩
    · exact ⟨rfl, rfl⟩
  | left later => trivial

theorem Runner.code_moves (pc : RunnerPc n N) :
    (Runner.code c pc).Moves RunnerPc.toAdd pc.toAdd := by
  cases pc with
  | begin later | addLock i jobs later | addNotify i jobs later | addUnlock i jobs later
  | deleteJobs later | leave later => rfl
  | whileRunning later =>
    intro b
    obtain ⟨i, frames⟩ := later
    cases b <;> cases frames <;> rfl
  | addJob jobs later =>
    cases jobs with
    | nil => rfl
    | cons job jobs =>
      simp only [Runner.code, Runner.push]
      split <;> rfl
  | scanSize i later =>
    simp only [Runner.code]
    split
    · intro k
      dsimp only
      split <;> rfl
    · rfl
  | scanFlag i later =>
    intro b
    cases b <;> rfl
  | left later => trivial

theorem Main.code_quiet (pc : MainPc N) :
    (Main.code pc : Instr n N _).Runs (fun _ => .idle) (fun _ => none) .idle none := by
  cases pc with
  | construct i | shutDown i =>
    simp only [Main.code]
    split <;> exact ⟨rfl, rfl⟩
  | left => trivial
  | _ => exact ⟨rfl, rfl⟩

theorem Main.code_moves {pc : MainPc N} (serving : pc.serving = true) :
    (Main.code pc : Instr n N _).Moves (fun _ => []) [] := by
  cases pc with
  | construct i =>
    simp only [Main.code]
    split <;> rfl
  | waitForKey => rfl
  | _ => cases serving

/-- `ShutDown` throws jobs away and does nothing else to them. -/
theorem Main.code_loses (pc : MainPc N) :
    (∃ i next, (Main.code pc : Instr n N _) = .clear i next) ∨
      (Main.code pc : Instr n N _).Moves (fun _ => []) [] := by
  cases pc with
  | clear i => exact .inl ⟨i, _, rfl⟩
  | construct i | shutDown i =>
    right
    simp only [Main.code]
    split <;> rfl
  | left => exact .inr trivial
  | _ => exact .inr rfl

theorem Main.code_serving {pc : MainPc N} (serving : pc.serving = true) (open_ : pc ≠ .waitForKey) :
    (Main.code pc : Instr n N _).All fun pc => pc.serving = true := by
  cases pc with
  | construct i =>
    simp only [Main.code]
    split <;> rfl
  | waitForKey => exact absurd rfl open_
  | _ => cases serving

theorem Worker.code_pushes {v w : Fin N} {pc : WorkerPc n N}
    (h : (Worker.code c v pc).pushes w = true) : v = w ∧ ∃ job, pc = .ownPushBack job := by
  cases pc <;> grind [Worker.code, Instr.pushes]

theorem Main.code_pushes (w : Fin N) (pc : MainPc N) :
    (Main.code pc : Instr n N _).pushes w = false := by
  cases pc <;> grind [Main.code, Instr.pushes]

theorem code_runs (t : Thread N) (pc : Pc n N t) :
    (code c t pc).Runs (callOf t) (readyOf t) (callOf t pc) (readyOf t pc) := by
  cases t with
  | worker w => exact Worker.code_runs c w pc
  | runner => exact Runner.code_quiet c pc
  | main => exact Main.code_quiet pc

end Code

/-! ## The calls are a run of the abstract machine -/

namespace System
variable {c : Config n N} {ok : State c → Action N → Prop} {s : State c}

def calls (s : State c) (t : Thread N) : Call n := callOf t (s.pc t)

/-- `s` shows the jobs and calls of `e`, and who is about to execute a job has
seen it executable. -/
structure Shows (s : State c) (e : Execution.State c.graph (Thread N)) : Prop where
  same : e = ⟨s.shared.jobs, calls s⟩
  seen : ∀ t, ∀ j ∈ readyOf t (s.pc t), .observed j ∈ s.shared.jobs.log

theorem simulation (c : Config n N) :
    Machine.Simulation (machine c) (Execution.machine c.graph (Thread N)) Shows where
  start := by
    refine ⟨?_, fun t j hj => ?_⟩
    · apply congrArg (Execution.State.mk _)
      funext t
      cases t <;> rfl
    · cases t <;> cases hj
  step s s' a e := by
    rintro ⟨rfl, seen⟩ reached move
    obtain ⟨pc, shared, took, rfl⟩ := step_cases move
    obtain ⟨reached, ready⟩ := (code_runs c a.1 (s.pc a.1)).exec reached (seen a.1) took
    refine ⟨_, reached, ?_, ?_⟩
    · rw [show calls (s.move a.1 pc shared) = _ from s.move_map pc shared callOf]
      rfl
    · refine s.move_forall pc shared
        (Q := fun t pc => ∀ j ∈ readyOf t pc, .observed j ∈ shared.jobs.log) ?_ ready
      intro u _ j hj
      exact Instr.exec_log took (seen u j hj)

theorem executes (h : (machine c).Reach ok s) :
    (Execution.machine c.graph (Thread N)).Reachable ⟨s.shared.jobs, calls s⟩ := by
  obtain ⟨e, reached, shows⟩ := (simulation c).reach h
  rwa [shows.same] at reached

/-! ## No job appears or disappears -/

theorem serving_of_noShutDown (h : (machine c).Reach noShutDown s) :
    (s.pc .main).serving = true := by
  refine Threads.local_invariant (P := threads c) (t := .main)
    (Q := fun pc => MainPc.serving pc = true) rfl ?_ h
  intro s _ pc shared ok serving took
  exact (Main.code_serving serving (ok rfl)).exec took

theorem code_moves (serving : (s.pc .main).serving = true) (t : Thread N) :
    (code c t (s.pc t)).Moves (heldBy t) (heldBy t (s.pc t)) := by
  cases t with
  | worker w => exact Worker.code_moves c w _
  | runner => exact Runner.code_moves c _
  | main => exact Main.code_moves serving

/-- The copies of a job in the deques, on record as finished, and in somebody's
hands are those the frames add. -/
theorem conserved (h : (machine c).Reach noShutDown s) (job : Fin n) :
    s.shared.copies job + ∑ t, (heldBy t (s.pc t)).count job = c.frames.flatten.count job := by
  induction h with
  | start =>
    rw [Thread.sum_eq]
    simp [machine, Threads.machine, threads, Shared.copies, Jobs.built, heldBy, WorkerPc.hand,
      RunnerPc.toAdd]
  | @next s s' a run _ move ih =>
    obtain ⟨pc, shared, took, rfl⟩ := step_cases move
    have moved := (code_moves (serving_of_noShutDown run) a.1).exec took job
    rw [← ih]
    exact s.sum_step pc shared (fun t pc => (heldBy t pc).count job) moved

/-- With a `ShutDown` there may be fewer. -/
theorem conserved_le (h : (machine c).Reach ok s) (job : Fin n) :
    s.shared.copies job + ∑ t, (heldBy t (s.pc t)).count job ≤ c.frames.flatten.count job := by
  induction h with
  | start => exact (conserved .start job).le
  | @next s s' a _ _ move ih =>
    obtain ⟨pc, shared, took, rfl⟩ := step_cases move
    obtain ⟨t, random⟩ := a
    have moves (rule : (code c t (s.pc t)).Moves (heldBy t) (heldBy t (s.pc t))) :
        shared.copies job + ∑ u, (heldBy u ((s.move t pc shared).pc u)).count job ≤
          c.frames.flatten.count job :=
      (s.sum_step pc shared (fun t pc => (heldBy t pc).count job) (rule.exec took job)).trans_le ih
    cases t with
    | worker w => exact moves (Worker.code_moves c w _)
    | runner => exact moves (Runner.code_moves c _)
    | main =>
      cases Main.code_loses (s.pc .main) with
      | inr rule => exact moves rule
      | inl clears =>
        obtain ⟨i, next, clears⟩ := clears
        rw [code, clears] at took
        cases took
        have lost := s.shared.copies_set i (s.shared.mJobDeque i).clear job (m := s.shared.jobs) rfl
        have balanced : 0 + (heldBy .main pc).count job =
            0 + (heldBy .main (s.pc .main)).count job := rfl
        have same := s.sum_step pc s.shared (fun t pc => (heldBy t pc).count job) balanced
        simp only [LockingDeque.clear_mJobDeque, List.count_nil, add_zero] at lost
        simp only [zero_add] at same
        exact le_trans (Nat.add_le_add (Nat.le.intro lost) same.le) ih

/-- `AddJob` was called with the job, and it is in a deque since. -/
def added (s : State c) (job : Fin n) : Prop :=
  job ∈ c.frames.flatten ∧ job ∉ RunnerPc.toAdd (s.pc .runner)

/-- The hands a job can be in, beside those of the runner that still has to add it. -/
theorem sum_heldBy (s : State c) (job : Fin n) :
    ∑ t, (heldBy t (s.pc t)).count job =
      ∑ w, (WorkerPc.hand (s.pc (.worker w))).count job +
        (RunnerPc.toAdd (s.pc .runner)).count job := by
  rw [Thread.sum_eq]
  rfl

theorem calls_le_heldBy (s : State c) (job : Fin n) (t : Thread N) :
    (calls s t).jobs.count job ≤ (heldBy t (s.pc t)).count job := by
  cases t with
  | worker w =>
    change (WorkerPc.call (s.pc (.worker w))).jobs.count job ≤
      (WorkerPc.hand (s.pc (.worker w))).count job
    generalize s.pc (.worker w) = pc
    cases pc with
    | executing j call => exact Nat.le_refl _
    | _ => exact Nat.zero_le _
  | runner | main => exact Nat.zero_le _

/-- A job that lies in a deque was never started, and nobody else has it. -/
theorem queued (h : (machine c).Reach ok s) {w : Fin N} {job : Fin n}
    (inside : job ∈ (s.shared.mJobDeque w).mJobDeque) :
    .started job ∉ s.shared.jobs.log ∧ job ∉ RunnerPc.toAdd (s.pc .runner) := by
  have total := conserved_le h job
  have once := List.nodup_iff_count_le_one.mp c.once job
  have started := Execution.started_finished (executes h) job
  have held : ∑ t, (calls s t).jobs.count job ≤ ∑ t, (heldBy t (s.pc t)).count job :=
    Finset.sum_le_sum fun t _ => calls_le_heldBy s job t
  have here : 0 < (s.shared.mJobDeque w).mJobDeque.count job := List.count_pos_iff.mpr inside
  have le : (s.shared.mJobDeque w).mJobDeque.count job ≤
      ∑ i, (s.shared.mJobDeque i).mJobDeque.count job :=
    Finset.single_le_sum (f := fun i => (s.shared.mJobDeque i).mJobDeque.count job)
      (fun _ _ => Nat.zero_le _) (Finset.mem_univ w)
  rw [Shared.copies] at total
  dsimp only at started
  constructor
  · apply List.count_eq_zero.mp
    omega
  · apply List.count_eq_zero.mp
    rw [sum_heldBy] at total
    omega

theorem started_le (h : (machine c).Reach ok s) (job : Fin n) :
    s.shared.jobs.log.count (.started job) ≤ 1 := by
  have total := conserved_le h job
  have started := Execution.started_finished (executes h) job
  have held : ∑ t, (calls s t).jobs.count job ≤ ∑ t, (heldBy t (s.pc t)).count job :=
    Finset.sum_le_sum fun t _ => calls_le_heldBy s job t
  have once := List.nodup_iff_count_le_one.mp c.once job
  rw [Shared.copies] at total
  dsimp only at started
  omega

/-! While nobody executes anything, every `Finish` is over. -/

section Idle
variable (h : (machine c).Reach ok s) (idle : ∀ t, calls s t = .idle)
include h idle

theorem started_iff_finished (job : Fin n) : s.shared.jobs.log.count (.started job) =
    s.shared.jobs.log.count (.finished job) := by
  have started := Execution.started_finished (executes h) job
  simpa [idle, Call.jobs] using started.symm

theorem started_iff_subtracted (job : Fin n) : s.shared.jobs.log.count (.started job) =
    s.shared.jobs.log.count (.subtracted job) := by
  have started := Execution.started_subtracted (executes h) job
  simpa [idle, Call.unsubtracted] using started.symm

theorem released_of_subtracted {e : c.graph.Entry}
    (subtracted : .subtracted e.1 ∈ s.shared.jobs.log) : .released e ∈ s.shared.jobs.log := by
  rcases (Execution.reachable_inv (executes h)).looped e.1 subtracted with ⟨t, k, inside, _⟩ | all
  · exact absurd ((idle t).symm.trans inside) (by simp)
  · exact all e rfl

end Idle

theorem placed (h : (machine c).Reach noShutDown s) {job : Fin n} (here : added s job) :
    ∑ i, (s.shared.mJobDeque i).mJobDeque.count job +
      ∑ w, (WorkerPc.hand (s.pc (.worker w))).count job +
      s.shared.jobs.log.count (.finished job) = 1 := by
  have total := conserved h job
  rw [sum_heldBy, List.count_eq_one_of_mem c.once here.1, List.count_eq_zero.mpr here.2,
    Shared.copies] at total
  omega

/-- Before a `ShutDown`, every job that was added is in one place, once: in one
position of one deque, in the hands of one worker, or finished. So no job runs
twice, and no counter drops below 0. -/
theorem one_place (h : (machine c).Reach noShutDown s) :
    (∀ job, added s job → ∑ i, (s.shared.mJobDeque i).mJobDeque.count job +
      ∑ w, (WorkerPc.hand (s.pc (.worker w))).count job +
      s.shared.jobs.log.count (.finished job) = 1) ∧
    ∀ job, s.shared.jobs.log.count (.started job) ≤ 1 ∧ 0 ≤ s.shared.jobs.unfinished job := by
  refine ⟨fun job added => placed h added, fun job => ⟨started_le h job, ?_⟩⟩
  have counter := (Execution.reachable_inv (executes h)).counter job
  have started := started_le h job
  have subtracted := Execution.started_subtracted (executes h) job
  dsimp only at counter subtracted
  omega

/-- A prerequisite and its dependant, added the other way round to two workers. -/
def pairConfig : Config 2 2 where
  graph := pair
  frames := [List.finRange 2]
  once := by decide
  together := by decide
  workers := Nat.two_pos
  usingLockless := false
  waitForAvailableJobs := true

/-- Steps of a thread, one after the other. -/
def steps (k : Nat) (t : Thread N) : List (Action N) := .replicate k (t, 0)

theorem one_place_pair : ∃ s, (machine pairConfig).Reach noShutDown s ∧ added s 1 ∧
    ∑ i, (s.shared.mJobDeque i).mJobDeque.count 1 +
      ∑ w, (WorkerPc.hand (s.pc (.worker w))).count 1 +
      s.shared.jobs.log.count (.finished 1) = 1 := by
  have run : ((machine pairConfig).exec noShutDown
      (steps 3 .main ++ steps 11 .runner ++ steps 7 (.worker 1))
      (machine pairConfig).start).map (fun s => s.pc .runner) = some (.scanSize 0 ⟨0, []⟩) := by
    decide +kernel
  obtain ⟨s, hs, runner⟩ := Option.map_eq_some_iff.mp run
  have reach := Machine.exec_start _ hs
  have here : added s 1 := by
    rw [added, runner]
    decide
  exact ⟨s, reach, here, (one_place reach).1 1 here⟩

end System
end JobStealer
