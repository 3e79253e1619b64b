import JobStealer.Notified

/-!
# Waiting for any job at all

Without `HTL_WAIT_FOR_AVAILABLE_JOBS` a worker waits until its deque is not empty,
whether or not a job in it can be executed. Nobody but the runner pushes for a
worker that waits, so no look at the deques of others is needed: `filled` says that
a worker asleep over a job is about to be notified by the `AddJob` that pushed it.

What such a worker does when it is awake is another matter: see `Rotation` for the
search that turns its deque and finds nothing.
-/

namespace JobStealer
open Interleaving

variable {n N : Nat}

section Code
variable (c : Config n N)

/-- A worker starts dozing where its test of the condition finds no job. -/
theorem Worker.dozing_empty {g : Graph n} (any : c.waitForAvailableJobs = false) {w : Fin N}
    {pc pc' : WorkerPc n N} {t : Thread N} {random : Nat} {s s' : Shared g N}
    (took : (Worker.code c w pc).exec t random s = some (pc', s'))
    (dozes : pc'.dozing (s'.mAwakeCondition w) = true) :
    pc.dozing (s.mAwakeCondition w) = true ∨ (s'.mJobDeque w).mJobDeque = [] := by
  cases pc with
  | waitJobs =>
    simp only [Worker.code, any, Bool.false_eq_true, if_false] at took
    cases took
    by_cases some : (s.mJobDeque w).size > 0
    · simp only [some, decide_true, WorkerPc.dozing] at dozes
      cases dozes
    · right
      rw [LockingDeque.size_eq] at some
      exact List.eq_nil_of_length_eq_zero (by omega)
  | waitRunning available =>
    cases available with
    | true =>
      cases took
      cases dozes
    | false => exact .inl rfl
  | waitBlock => exact .inl rfl
  | waitBlocked =>
    cases took
    cases dozes
  | _ =>
    have awake : pc'.dozing (s'.mAwakeCondition w) = false := by
      refine Instr.All.exec (P := fun pc => pc.dozing (s'.mAwakeCondition w) = false) ?_ took
      grind [Worker.code, Instr.All, WorkerPc.dozing]
    rw [awake] at dozes
    cases dozes

end Code

namespace System
variable {c : Config n N} {ok : State c → Action N → Prop} {s : State c} {w : Fin N}

/-- A worker that sleeps, or is about to, over a job is about to be notified. -/
def Filled (s : State c) : Prop :=
  ∀ w, WorkerPc.dozing (s.shared.mAwakeCondition w) (s.pc (.worker w)) = true →
    (s.shared.mJobDeque w).mJobDeque ≠ [] → RunnerPc.owes w (s.pc .runner) = true

theorem step_filled (any : c.waitForAvailableJobs = false) {a : Action N} {s' : State c}
    (run : (machine c).Reach ok s) (filled : Filled s) (move : (machine c).step a s = some s') :
    Filled s' := by
  intro w dozes jobs
  obtain ⟨pc, shared, took, rfl⟩ := step_cases move
  obtain ⟨t, random⟩ := a
  dsimp only at pc took dozes jobs
  have dozed : WorkerPc.dozing (s.shared.mAwakeCondition w) (s.pc (.worker w)) = true := by
    by_cases own : t = .worker w
    · subst own
      rw [s.move_self] at dozes
      exact (Worker.dozing_empty c any took dozes).resolve_right jobs
    · rw [s.move_other pc shared (Ne.symm own)] at dozes
      exact dozing_of_other own took dozes
  have before : (code c t (s.pc t)).pushes w = true ∨ (s.shared.mJobDeque w).mJobDeque ≠ [] :=
    (Instr.exec_deque took w).imp_right fun less nil =>
      jobs (List.eq_nil_of_subset_nil (nil ▸ less))
  cases t with
  | worker v =>
    rw [s.move_other pc shared (by simp)]
    cases before with
    | inl pushed =>
      obtain ⟨rfl, job, here⟩ := Worker.code_pushes c pushed
      rw [here] at dozed
      cases dozed
    | inr jobs => exact filled w dozed jobs
  | runner =>
    rw [s.move_self]
    cases before with
    | inl pushed => exact (Runner.code_owes c pushed).exec took
    | inr jobs =>
      rw [s.move_other pc shared (by simp)] at dozes
      rcases Runner.owes_step c (filled w dozed jobs) with ⟨jobs, later, here⟩ | all
      · have wakes := not_dozing_of_notify run (w := w) (by simp) (by rw [here]; rfl)
          (by rw [here]; rfl) took
        exact absurd (wakes.symm.trans dozes) (by simp)
      · exact all.exec took
  | main =>
    rw [s.move_other pc shared (by simp)]
    cases before with
    | inl pushed => exact absurd pushed (by simp [code, Main.code_pushes])
    | inr jobs => exact filled w dozed jobs

theorem filled (any : c.waitForAvailableJobs = false) (h : (machine c).Reach ok s) : Filled s := by
  induction h with
  | start =>
    intro w dozes
    cases dozes
  | next run _ move ih => exact step_filled any run ih move

/-- Without `HTL_WAIT_FOR_AVAILABLE_JOBS`, in every run, with or without a `ShutDown`:
a worker blocked without a notification has no job in its deque, unless an `AddJob`
has pushed one and is about to notify it. So as long as nobody shuts down, when all
`AddJob` calls have returned and all workers are blocked, every job is finished. -/
theorem no_sleep_over_jobs (any : c.waitForAvailableJobs = false) :
    (∀ s w, (machine c).Reachable s → Blocked s w → RunnerPc.owes w (s.pc .runner) = false →
      (s.shared.mJobDeque w).mJobDeque = []) ∧
    ∀ s, (machine c).Reach noShutDown s → RunnerPc.adding (s.pc .runner) = false →
      (∀ w, Blocked s w) → ∀ job, added s job → .finished job ∈ s.shared.jobs.log := by
  have empty {ok : State c → Action N → Prop} {s : State c} (h : (machine c).Reach ok s)
      {w : Fin N} (blocked : Blocked s w) (unowed : RunnerPc.owes w (s.pc .runner) = false) :
      (s.shared.mJobDeque w).mJobDeque = [] := by
    by_contra jobs
    have owed := filled any h w (WorkerPc.dozing_of_blocking blocked.blocking) jobs
    exact absurd (unowed.symm.trans owed) (by simp)
  refine ⟨fun s w h => empty h, ?_⟩
  intro s h returned blocked job here
  have unowed (w : Fin N) : RunnerPc.owes w (s.pc .runner) = false := by
    generalize s.pc .runner = pc at returned
    cases pc with
    | addLock i jobs later | addNotify i jobs later => cases returned
    | _ => rfl
  have free (w : Fin N) : WorkerPc.hand (s.pc (.worker w)) = [] := by
    rw [(blocked w).1]
    rfl
  by_contra unfinished
  obtain ⟨w, inside⟩ := queued_of_unfinished h free here (List.count_eq_zero.mpr unfinished)
  rw [empty h (blocked w) (unowed w)] at inside
  cases inside

def anyConfig : Config 2 2 := { pairConfig with waitForAvailableJobs := false }

theorem no_sleep_over_jobs_pair : ∃ s, (machine anyConfig).Reach noShutDown s ∧
    (∀ w, Blocked s w) ∧ added s 0 ∧ .finished 0 ∈ s.shared.jobs.log := by
  have run : ((machine anyConfig).exec noShutDown
      (steps 3 .main ++ steps 11 .runner ++ steps 19 (.worker 1) ++ steps 18 (.worker 0))
      (machine anyConfig).start).map (fun s =>
        (s.pc .runner, decide (Blocked s 0), decide (Blocked s 1))) =
      some (.scanSize 0 ⟨0, []⟩, true, true) := by
    decide +kernel
  obtain ⟨s, hs, same⟩ := Option.map_eq_some_iff.mp run
  simp only [Prod.mk.injEq, decide_eq_true_eq] at same
  obtain ⟨runner, first, second⟩ := same
  have reach := Machine.exec_start _ hs
  have blocked (w : Fin 2) : Blocked s w := by
    match w with
    | 0 => exact first
    | 1 => exact second
  have here : added s 0 := by
    rw [added, runner]
    decide
  have returned : RunnerPc.adding (s.pc .runner) = false := by
    rw [runner]
    rfl
  exact ⟨s, reach, blocked, here,
    (no_sleep_over_jobs (c := anyConfig) rfl).2 s reach returned blocked 0 here⟩

end System
end JobStealer
