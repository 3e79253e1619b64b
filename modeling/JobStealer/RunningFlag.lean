import JobStealer.Finished
import JobStealer.Notified

/-!
# The flag of a worker while somebody shuts it down

A worker raises `mJobRunning` before it looks for a job, so that it counts as busy
from the pop on, and lowers it when it is done. `ShutDown` lowers the flag as well,
wherever the worker stands (`lowered_early`). As long as it does not hit a pass
that gets a job, and no longer, the flag covers the job (`covers`, `spares_iff`).
`UpdateParallel` then deletes no job that is in a worker's hands, unless a job moves
behind the scan (`flag_covers`).

With one worker none can, since the scan does not find an empty deque while the last
job is out for re-ordering. `keeps` is why: a job is taken in spite of its
dependencies only if another one stays behind, and after `ShutDown` has cleared the
deque the loop is not entered again.
-/

namespace JobStealer
open Interleaving

variable {n N : Nat}

/-- `JobWorker::AllJobsFinished` of worker `w`, if nobody moves in between. -/
def Shared.workerFinished {g : Graph n} (s : Shared g N) (w : Fin N) : Bool :=
  !((s.mJobDeque w).size > 0 || s.flag (.mJobRunning w))

namespace WorkerPc

/-- How many jobs `k` the deque of a worker has left while it takes one from it,
if nobody else takes any. -/
def keeps (can : Fin n → Bool) (k : Nat) : WorkerPc n N → Prop
  | ownPop allow => allow = true → 2 ≤ k
  | ownCheck job => can job = false → 1 ≤ k
  | ownPushBack _ => 1 ≤ k
  | _ => True

theorem keeps_mono {can : Fin n → Bool} {k l : Nat} {pc : WorkerPc n N} (h : pc.keeps can k)
    (le : k ≤ l) : pc.keeps can l := by
  cases pc with
  | ownPop allow => exact fun yes => Nat.le_trans (h yes) le
  | ownCheck job => exact fun no => Nat.le_trans (h no) le
  | ownPushBack job => exact Nat.le_trans h le
  | _ => trivial

/-- The rest of a pass that takes no job any more, and the end of `Run`. -/
def ending : WorkerPc n N → Bool
  | ownSizeAgain | steal | lowerFlag | whileRunning | leave | left => true
  | _ => false

end WorkerPc

section Code
variable (c : Config n N)

theorem Main.code_keeps (pc : MainPc N) :
    (∃ i, pc = .clear i) ∨ (Main.code pc : Instr n N _).Keeps := by
  cases pc <;> grind [Main.code, Instr.Keeps]

/-- A deque that was cleared stays one that was cleared. -/
theorem Main.code_past {w : Fin N} {pc : MainPc N} (h : pc.cleared w = true) :
    (Main.code pc : Instr n N _).All fun next => next.cleared w = true := by
  cases pc <;> grind [Main.code, Instr.All, MainPc.cleared]

theorem MainPc.stopped_of_cleared {w : Fin N} {pc : MainPc N} (h : pc.cleared w = true) :
    pc.stopped w = true := by
  cases pc <;> grind [MainPc.cleared, MainPc.stopped]

theorem Runner.code_keeps (pc : RunnerPc n N) : (Runner.code c pc).Keeps := by
  cases pc with
  | addJob jobs later => cases jobs <;> grind [Runner.code, Runner.push, Instr.Keeps]
  | _ => grind [Runner.code, Instr.Keeps]

theorem RunnerPc.sizeRead_of_flagRead {w : Fin N} {pc : RunnerPc n N} (h : pc.flagRead w = true) :
    pc.sizeRead w = true := by
  cases pc <;> grind [RunnerPc.flagRead, RunnerPc.sizeRead]

theorem Worker.step_keeps {g : Graph n} {w : Fin N} {pc pc' : WorkerPc n N} {t : Thread N}
    {random : Nat} {s s' : Shared g N}
    (h : pc.keeps s.jobs.canExecute (s.mJobDeque w).mJobDeque.length)
    (took : (Worker.code c w pc).exec t random s = some (pc', s')) :
    pc'.keeps s'.jobs.canExecute (s'.mJobDeque w).mJobDeque.length := by
  cases pc with
  | ownSize =>
    cases took
    intro more
    rw [← LockingDeque.size_eq]
    exact of_decide_eq_true more
  | ownPop allow =>
    cases took
    dsimp only
    rcases (s.mJobDeque w).popFront_cases s.jobs.canExecute allow with
      ⟨eq, _⟩ | ⟨job, e, eq, jobs, take⟩
    · rw [eq]
      trivial
    · rw [eq]
      intro blocked
      rw [Function.update_self]
      rw [Jobs.observe_canExecute] at blocked
      rw [blocked, Bool.or_false] at take
      have two := h take
      rw [jobs, List.length_cons] at two
      exact Nat.le_of_succ_le_succ two
  | ownCheck job =>
    cases took
    cases can : s.jobs.canExecute job with
    | true => trivial
    | false => exact h can
  | _ =>
    refine Instr.All.exec (P := fun pc => ∀ can k, WorkerPc.keeps can k pc) ?_ took _ _
    grind [Worker.code, Instr.All, WorkerPc.keeps]

/-- A pop that finds a job puts it in the worker's hands. -/
theorem Worker.step_takes {g : Graph n} {w : Fin N} {pc pc' : WorkerPc n N} {t : Thread N}
    {random : Nat} {s s' : Shared g N} (finds : (Worker.code c w pc).takes s = true)
    (took : (Worker.code c w pc).exec t random s = some (pc', s')) :
    pc'.job ≠ none ∧ s'.flag = s.flag := by
  cases pc with
  | ownPop allow | ownPopAgain | stealPop i =>
    obtain ⟨job, found⟩ := Option.isSome_iff_exists.mp finds
    cases took
    dsimp only
    rw [found]
    exact ⟨Option.some_ne_none job, rfl⟩
  | _ => grind [Worker.code, Instr.takes]

/-- At the end of a pass a deque of one job is left alone, and once `mRunning` is
false no other pass begins. -/
theorem Worker.step_ending {c : Config n 1} {g : Graph n} {w : Fin 1} {pc pc' : WorkerPc n 1}
    {t : Thread 1} {random : Nat} {s s' : Shared g 1} (stopped : s.flag (.mRunning w) = false)
    (short : (s.mJobDeque w).mJobDeque.length ≤ 1) (h : pc.ending = true)
    (took : (Worker.code c w pc).exec t random s = some (pc', s')) :
    pc'.ending = true ∧ s'.mJobDeque w = s.mJobDeque w := by
  cases pc with
  | ownSizeAgain =>
    cases took
    rw [← LockingDeque.size_eq] at short
    dsimp only
    rw [if_neg (Nat.not_lt.mpr short)]
    exact ⟨rfl, rfl⟩
  | steal =>
    cases took
    cases s.flag (.JobSystem w) <;> exact ⟨rfl, rfl⟩
  | whileRunning =>
    cases took
    rw [stopped]
    exact ⟨rfl, rfl⟩
  | lowerFlag | leave =>
    cases took
    exact ⟨rfl, rfl⟩
  | left => cases took
  | _ => cases h

end Code

namespace System

section Any
variable {c : Config n N} {s s' : State c}

/-- `ShutDown` does not lower the flag of a worker that holds a job, and no worker
takes a job in a pass whose flag `ShutDown` has lowered. -/
def spares (s : State c) : Action N → Prop
  | (.main, _) => ∀ w, s.pc .main = .lowerFlag w → WorkerPc.job (s.pc (.worker w)) = none
  | (.worker w, _) => (Worker.code c w (s.pc (.worker w))).takes s.shared = true →
    s.shared.flag (.mJobRunning w) = true
  | (.runner, _) => True

instance (s : State c) : (a : Action N) → Decidable (spares s a)
  | (.main, _) => inferInstanceAs (Decidable (∀ _, _ → _))
  | (.worker _, _) => inferInstanceAs (Decidable (_ → _))
  | (.runner, _) => .isTrue trivial

/-- From the pop on, until the worker is done with the job. -/
theorem covers (h : (machine c).Reach spares s) : Covered s := by
  intro w holds
  induction h with
  | start => exact absurd rfl holds
  | @next s s' a run ok move ih =>
    obtain ⟨pc, shared, took, rfl⟩ := step_cases move
    obtain ⟨u, random⟩ := a
    by_cases here : u = .worker w
    · subst here
      rw [s.move_self] at holds
      rcases (Worker.code_raised c w _).exec took with now | ⟨same, _⟩
      · exact now.trans (raised_of_job holds)
      · rw [s.move_shared, same]
        by_cases held : WorkerPc.job (s.pc (.worker w)) = none
        · apply ok
          by_contra finds
          have rule := Worker.code_takes c w (s.pc (.worker w))
          rw [held] at rule
          exact holds (rule.exec ((Bool.not_eq_true _).mp finds) took)
        · exact ih held
    · rw [s.move_other pc shared (Ne.symm here)] at holds
      rcases exec_mJobRunning here took with same | ⟨rfl, lowers, _⟩
      · exact same.trans (ih holds)
      · exact absurd (ok w lowers) holds

/-- Steps that do not spare the flag so are the ones that leave a worker with a job
and its flag down. -/
theorem spares_iff (h : (machine c).Reach spares s) {a : Action N}
    (move : (machine c).step a s = some s') : spares s a ↔ Covered s' := by
  constructor
  · intro ok
    exact covers (.next h ok move)
  · intro covered
    obtain ⟨pc, shared, took, rfl⟩ := step_cases move
    obtain ⟨t, random⟩ := a
    cases t with
    | main =>
      intro w here
      by_contra holds
      rw [code, here] at took
      cases took
      have up := covered w (by rwa [s.move_other _ _ (by simp)])
      exact absurd ((Function.update_self ..).symm.trans up) (by simp)
    | worker w =>
      intro finds
      obtain ⟨holds, same⟩ := Worker.step_takes c finds took
      have up := covered w (by rwa [s.move_self])
      rwa [s.move_shared, same] at up
    | runner => trivial

end Any

/-! ## The only worker -/

section One
variable {c : Config n 1} {ok : State c → Action 1 → Prop} {s : State c}

/-- What the deque has left while the only worker takes from it, unless it was
cleared. -/
theorem keeps (h : (machine c).Reach ok s) : MainPc.cleared 0 (s.pc .main) = true ∨
    WorkerPc.keeps s.shared.jobs.canExecute (s.shared.mJobDeque 0).mJobDeque.length
      (s.pc (.worker 0)) := by
  induction h with
  | start => exact .inr trivial
  | @next s s' a run _ move ih =>
    obtain ⟨pc, shared, took, rfl⟩ := step_cases move
    obtain ⟨t, random⟩ := a
    -- a thread that leaves the jobs and what lies in the deque alone
    have still (rule : (code c t (s.pc t)).Keeps)
        (here : WorkerPc.keeps s.shared.jobs.canExecute (s.shared.mJobDeque 0).mJobDeque.length
          (s.pc (.worker 0))) :
        WorkerPc.keeps shared.jobs.canExecute (shared.mJobDeque 0).mJobDeque.length
          (s.pc (.worker 0)) := by
      obtain ⟨can, same | ⟨_, more⟩⟩ := rule.exec took 0
      · rwa [can, same]
      · rw [can]
        exact WorkerPc.keeps_mono here more
    cases t with
    | worker w =>
      obtain rfl : w = 0 := Subsingleton.elim w 0
      rw [s.move_other pc shared (by simp), s.move_self]
      exact ih.imp_right fun here => Worker.step_keeps c here took
    | runner =>
      rw [s.move_other pc shared (by simp), s.move_other pc shared (by simp)]
      exact ih.imp_right (still (Runner.code_keeps c _))
    | main =>
      rw [s.move_self, s.move_other pc shared (by simp)]
      cases ih with
      | inl past => exact .inl ((Main.code_past past).exec took)
      | inr here =>
        cases Main.code_keeps (n := n) (s.pc .main) with
        | inr rule => exact .inr (still rule here)
        | inl clears =>
          obtain ⟨i, clears⟩ := clears
          obtain rfl : i = 0 := Subsingleton.elim i 0
          rw [code, clears] at took
          cases took
          exact .inl rfl

/-- The deque the scan found empty is empty still, or the worker has put a job
back into the cleared deque and will not look at it again. -/
def Vacant (s : State c) (w : Fin 1) : Prop :=
  (s.shared.mJobDeque w).mJobDeque = [] ∨
    MainPc.cleared w (s.pc .main) = true ∧ (s.shared.mJobDeque w).mJobDeque.length ≤ 1 ∧
      WorkerPc.ending (s.pc (.worker w)) = true

theorem vacant (h : (machine c).Reach ok s) (read : RunnerPc.sizeRead 0 (s.pc .runner) = true) :
    Vacant s 0 := by
  induction h with
  | start => cases read
  | @next s s' a run _ move ih =>
    obtain ⟨pc, shared, took, rfl⟩ := step_cases move
    obtain ⟨t, random⟩ := a
    cases t with
    | worker w =>
      obtain rfl : w = 0 := Subsingleton.elim w 0
      rw [s.move_other pc shared (by simp)] at read
      unfold Vacant
      rw [s.move_other pc shared (by simp), s.move_self, s.move_shared]
      rcases ih read with empty | ⟨past, short, ending⟩
      · by_cases pushes : (Worker.code c 0 (s.pc (.worker 0))).pushes 0 = true
        · -- the deque was empty while the worker held a job: it has been cleared
          obtain ⟨_, job, here⟩ := Worker.code_pushes c pushes
          have kept := keeps run
          rw [here, empty] at kept
          have past := kept.resolve_right (Nat.not_succ_le_zero 0)
          rw [code, here] at took
          cases took
          refine .inr ⟨past, ?_, rfl⟩
          simp [empty]
        · exact .inl (Instr.exec_empty ((Bool.not_eq_true _).mp pushes) empty took)
      · have stopped := mRunning_stopped run 0
        rw [MainPc.stopped_of_cleared past] at stopped
        obtain ⟨ends, same⟩ := Worker.step_ending stopped short ending took
        exact .inr ⟨past, by rwa [same], ends⟩
    | runner =>
      rw [s.move_self] at read
      unfold Vacant
      rw [s.move_other pc shared (by simp), s.move_other pc shared (by simp), s.move_shared]
      rw [(Runner.code_keeps c _).same (Runner.quiet_of_sizeRead c read took 0) took]
      cases (Runner.scan_step c took 0).1 read with
      | inl old => exact ih old
      | inr empty => exact .inl empty
    | main =>
      rw [s.move_other pc shared (by simp)] at read
      unfold Vacant
      rw [s.move_self, s.move_other pc shared (by simp), s.move_shared]
      rcases ih read with empty | ⟨past, short, ending⟩
      · exact .inl (Instr.exec_empty (Main.code_pushes 0 _) empty took)
      · cases Main.code_keeps (n := n) (s.pc .main) with
        | inl clears =>
          obtain ⟨i, clears⟩ := clears
          obtain rfl : i = 0 := Subsingleton.elim i 0
          rw [code, clears] at took
          cases took
          exact .inl (by simp)
        | inr rule =>
          rw [rule.same (Main.code_pushes 0 _) took]
          exact .inr ⟨(Main.code_past past).exec took, short, ending⟩

/-- There is nothing to take. -/
theorem Vacant.takes (h : Vacant s 0) :
    (Worker.code c 0 (s.pc (.worker 0))).takes s.shared = false := by
  cases h with
  | inl empty =>
    apply Instr.takes_empty
    intro i
    rw [Subsingleton.elim i 0, empty]
  | inr out =>
    have ending := out.2.2
    generalize s.pc (.worker 0) = pc at ending
    cases pc <;> grind [Worker.code, Instr.takes, WorkerPc.ending]

theorem scanned_idle (h : (machine c).Reach spares s)
    (read : RunnerPc.flagRead 0 (s.pc .runner) = true) :
    WorkerPc.job (s.pc (.worker 0)) = none := by
  induction h with
  | start => cases read
  | @next s s' a run _ move ih =>
    obtain ⟨pc, shared, took, rfl⟩ := step_cases move
    obtain ⟨t, random⟩ := a
    cases t with
    | worker w =>
      obtain rfl : w = 0 := Subsingleton.elim w 0
      rw [s.move_other pc shared (by simp)] at read
      rw [s.move_self]
      have rule := Worker.code_takes c 0 (s.pc (.worker 0))
      rw [ih read] at rule
      exact rule.exec (vacant run (RunnerPc.sizeRead_of_flagRead read)).takes took
    | runner =>
      rw [s.move_self] at read
      rw [s.move_other pc shared (by simp)]
      cases (Runner.scan_step c took 0).2 read with
      | inl old => exact ih old
      | inr lowered =>
        by_contra holds
        exact absurd (lowered.symm.trans (covers run 0 holds)) (by simp)
    | main =>
      rw [s.move_other pc shared (by simp)] at read
      rw [s.move_other pc shared (by simp)]
      exact ih read

end One

/-- As long as `ShutDown` spares the flag so, it is up while the worker holds a job,
and the worker is not reported as idle: a scan that comes to its flag starts again.
`UpdateParallel` is not about to delete its job, if it is the only one or no job has
moved behind the scan. -/
theorem flag_covers {c : Config n N} {s : State c} (h : (machine c).Reach spares s) (w : Fin N)
    (holds : WorkerPc.job (s.pc (.worker w)) ≠ none) :
    s.shared.flag (.mJobRunning w) = true ∧ s.shared.workerFinished w = false ∧
    (∀ later random t, s.pc .runner = .scanFlag w later →
      (machine c).step (.runner, random) s = some t → t.pc .runner = .scanSize 0 later) ∧
    (N = 1 ∨ (machine c).Reach (fun s a => spares s a ∧ stays s a = true) s →
      ∀ later, s.pc .runner ≠ .deleteJobs later) := by
  have flag := covers h w holds
  refine ⟨flag, ?_, ?_, ?_⟩
  · simp [Shared.workerFinished, flag]
  · intro later random t here move
    obtain ⟨pc, shared, took, rfl⟩ := step_cases move
    rw [code, here] at took
    cases took
    rw [s.move_self, flag]
    rfl
  · rintro (rfl | still) later here
    · obtain rfl : w = 0 := Subsingleton.elim w 0
      exact holds (scanned_idle h (by rw [here]; rfl))
    · have idle : Scanned s := by
        apply scanned (fun _ _ ok => ok.2) ?_ still
        intro s run
        exact covers (run.mono fun _ _ ok => ok.1)
      exact holds (idle.idle w (by rw [here]; rfl))

/-- `ShutDown` lowers the flag between the worker's check for jobs and the pass. -/
theorem flag_covers_solo : ∃ s, (machine soloConfig).Reach spares s ∧
    s.pc .main = .clear 0 ∧ s.pc (.worker 0) = .executing 0 (.running 0) ∧
    s.shared.flag (.mJobRunning 0) = true ∧ s.shared.workerFinished 0 = false := by
  have run : ((machine soloConfig).exec spares
      (steps 2 .main ++ steps 3 .runner ++ steps 2 (.worker 0) ++ steps 4 .main ++
        steps 5 (.worker 0))
      (machine soloConfig).start).map (fun s => (s.pc .main, s.pc (.worker 0))) =
      some (.clear 0, .executing 0 (.running 0)) := by
    decide +kernel
  obtain ⟨s, hs, same⟩ := Option.map_eq_some_iff.mp run
  simp only [Prod.mk.injEq] at same
  obtain ⟨main, worker⟩ := same
  have reach := Machine.exec_start _ hs
  have covered := flag_covers reach 0 (by rw [worker]; simp [WorkerPc.job])
  exact ⟨s, reach, main, worker, covered.1, covered.2.1⟩

/-- While the worker executes its job `ShutDown` lowers its flag, and
`AllJobsFinished()` answers true. -/
theorem lowered_early : ∃ s, (machine soloConfig).Reachable s ∧
    s.pc (.worker 0) = .executing 0 (.running 0) ∧ s.shared.flag (.mJobRunning 0) = false ∧
    s.shared.workerFinished 0 = true ∧ s.pc .runner = .deleteJobs ⟨0, []⟩ := by
  have run : ((machine soloConfig).run
      (steps 2 .main ++ steps 3 .runner ++ steps 7 (.worker 0) ++ steps 4 .main ++ steps 7 .runner)
      (machine soloConfig).start).map (fun s => (s.pc (.worker 0),
        s.shared.flag (.mJobRunning 0), s.shared.workerFinished 0, s.pc .runner)) =
      some (.executing 0 (.running 0), false, true, .deleteJobs ⟨0, []⟩) := by
    decide +kernel
  obtain ⟨s, hs, same⟩ := Option.map_eq_some_iff.mp run
  simp only [Prod.mk.injEq] at same
  exact ⟨s, Machine.exec_start _ hs, same⟩

end System
end JobStealer
