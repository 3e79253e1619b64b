import JobStealer.Flags

/-!
# What `AllJobsFinished` sees

The runner reads the size and the flag of one worker after the other. `scanned`
is what it knows when it is done: every deque was empty when it was read, and
every worker had nothing in its hands then. `finished_of_scan` says the answer is
right as long as no job moves behind the scan: no worker whose flag was read
takes a job, and none whose size was read puts one back.

Nothing in the code prevents that. `finished_too_early` is a worker that passed
its check for executable jobs, lost them to a thief, is found idle, and then
steals the last job from a worker the runner has still to look at.
-/

namespace JobStealer
open Interleaving

variable {n N : Nat}

/-- The job pointer the worker holds, from the pop until it is done with it. -/
def WorkerPc.job : WorkerPc n N → Option (Fin n)
  | ownCheck job | ownPushBack job | execute job | executing job _ | checkFinished job => some job
  | _ => none

namespace RunnerPc

/-- The scan has found the deque of worker `w` empty. -/
def sizeRead (w : Fin N) : RunnerPc n N → Bool
  | scanSize i _ => w < i
  | scanFlag i _ => w ≤ i
  | deleteJobs _ => true
  | _ => false

/-- The scan has found the flag of worker `w` down. -/
def flagRead (w : Fin N) : RunnerPc n N → Bool
  | scanSize i _ => w < i
  | scanFlag i _ => w < i
  | deleteJobs _ => true
  | _ => false

end RunnerPc

section Code
variable (c : Config n N)

theorem Worker.code_takes (w : Fin N) (pc : WorkerPc n N) :
    (Worker.code c w pc).Takes WorkerPc.job pc.job := by
  cases pc <;> grind [Worker.code, Instr.Takes, Instr.All, WorkerPc.job]

/-- While the runner adds jobs no scan is going on. -/
theorem Runner.code_pushes {w : Fin N} {pc : RunnerPc n N}
    (h : (Runner.code c pc).pushes w = true) (v : Fin N) :
    (Runner.code c pc).All fun pc => pc.sizeRead v = false := by
  cases pc with
  | addJob jobs later =>
    cases jobs <;> grind [Runner.code, Runner.push, Instr.pushes, Instr.All, RunnerPc.sizeRead]
  | _ => grind [Runner.code, Instr.pushes]

theorem Runner.quiet_of_sizeRead {g : Graph n} {w : Fin N} {pc pc' : RunnerPc n N} {t : Thread N}
    {random : Nat} {s s' : Shared g N} (read : pc'.sizeRead w = true)
    (took : (Runner.code c pc).exec t random s = some (pc', s')) (v : Fin N) :
    (Runner.code c pc).pushes v = false := by
  by_contra pushed
  have unread := (Runner.code_pushes c ((Bool.not_eq_false _).mp pushed) w).exec took
  exact absurd (unread.symm.trans read) (by simp)

/-- What a step of the scan reads before it counts a worker as idle. -/
theorem Runner.scan_step {g : Graph n} {pc pc' : RunnerPc n N} {t : Thread N} {random : Nat}
    {s s' : Shared g N} (took : (Runner.code c pc).exec t random s = some (pc', s')) (w : Fin N) :
    (pc'.sizeRead w = true → pc.sizeRead w = true ∨ (s.mJobDeque w).mJobDeque = []) ∧
    (pc'.flagRead w = true → pc.flagRead w = true ∨ s.flag (.mJobRunning w) = false) := by
  have restart {pc' : RunnerPc n N} (h : pc'.sizeRead w = false ∧ pc'.flagRead w = false) :
      (pc'.sizeRead w = true → pc.sizeRead w = true ∨ (s.mJobDeque w).mJobDeque = []) ∧
      (pc'.flagRead w = true → pc.flagRead w = true ∨ s.flag (.mJobRunning w) = false) := by
    simp [h.1, h.2]
  cases pc with
  | scanSize i later =>
    simp only [Runner.code] at took
    split at took
    · rename_i hi
      cases took
      dsimp only
      by_cases some : 0 < (s.mJobDeque ⟨i, hi⟩).size
      · rw [if_pos some]
        exact restart (by simp [RunnerPc.sizeRead, RunnerPc.flagRead])
      · rw [if_neg some]
        refine ⟨fun read => ?_, fun read => .inl read⟩
        by_cases here : w.val = i
        · subst here
          have none : ¬ 0 < (s.mJobDeque w).size := some
          refine .inr (List.eq_nil_of_length_eq_zero ?_)
          rw [← LockingDeque.size_eq]
          omega
        · have before : w ≤ ⟨i, hi⟩ := by simpa [RunnerPc.sizeRead] using read
          have : w.val ≤ i := before
          exact .inl (by simp only [RunnerPc.sizeRead, decide_eq_true_eq]; omega)
    · rename_i hi
      cases took
      have before : w.val < i := by omega
      exact ⟨fun _ => .inl (by simpa [RunnerPc.sizeRead] using before),
        fun _ => .inl (by simpa [RunnerPc.flagRead] using before)⟩
  | scanFlag i later =>
    cases took
    cases running : s.flag (.mJobRunning i) with
    | true => exact restart (by simp [RunnerPc.sizeRead, RunnerPc.flagRead])
    | false =>
      refine ⟨fun read => .inl ?_, fun read => ?_⟩
      · have before : w.val < i + 1 := by simpa [RunnerPc.sizeRead] using read
        have : w ≤ i := Fin.le_def.mpr (by omega)
        simpa [RunnerPc.sizeRead] using this
      · have before : w.val < i + 1 := by simpa [RunnerPc.flagRead] using read
        by_cases here : w = i
        · subst here
          exact .inr running
        · have : w < i := Fin.lt_def.mpr (by omega)
          exact .inl (by simpa [RunnerPc.flagRead] using this)
  | addJob jobs later =>
    have none : (Runner.code c (.addJob jobs later)).All fun pc =>
        pc.sizeRead w = false ∧ pc.flagRead w = false := by
      cases jobs <;>
        grind [Runner.code, Runner.push, Instr.All, RunnerPc.sizeRead, RunnerPc.flagRead]
    exact restart (none.exec took)
  | _ =>
    refine restart (Instr.All.exec (P := fun pc => pc.sizeRead w = false ∧ pc.flagRead w = false)
      ?_ took)
    grind [Runner.code, Runner.nextFrame, Instr.All, RunnerPc.sizeRead, RunnerPc.flagRead]

end Code

namespace System
variable {c : Config n N} {s : State c}

/-- The worker takes no job once its flag was read, and puts none back once its
size was read. -/
def stays (s : State c) : Action N → Bool
  | (.worker w, _) =>
    !((Worker.code c w (s.pc (.worker w))).takes s.shared && RunnerPc.flagRead w (s.pc .runner)) &&
    !((Worker.code c w (s.pc (.worker w))).pushes w && RunnerPc.sizeRead w (s.pc .runner))
  | _ => true

/-- Nobody shuts down, and no job moves behind a scan. -/
def undisturbed (s : State c) (a : Action N) : Prop := noShutDown s a ∧ stays s a = true

instance (s : State c) (a : Action N) : Decidable (undisturbed s a) :=
  inferInstanceAs (Decidable (_ ∧ _))

/-- The workers the scan has counted as idle are idle. -/
structure Scanned (s : State c) : Prop where
  empty : ∀ w, RunnerPc.sizeRead w (s.pc .runner) = true → (s.shared.mJobDeque w).mJobDeque = []
  idle : ∀ w, RunnerPc.flagRead w (s.pc .runner) = true →
    WorkerPc.job (s.pc (.worker w)) = none

/-- Whoever holds a job has its flag up. -/
def Covered (s : State c) : Prop :=
  ∀ w, WorkerPc.job (s.pc (.worker w)) ≠ none → s.shared.flag (.mJobRunning w) = true

theorem raised_of_job {pc : WorkerPc n N} (h : pc.job ≠ none) : pc.raised = true := by
  cases pc with
  | ownCheck job | ownPushBack job | execute job | executing job call | checkFinished job => rfl
  | _ => exact absurd rfl h

theorem covered_of_noShutDown (h : (machine c).Reach noShutDown s) : Covered s := by
  intro w holds
  rw [raised_eq h w]
  exact raised_of_job holds

theorem step_scanned {a : Action N} {s' : State c} (covered : Covered s) (h : Scanned s)
    (ok : stays s a = true) (move : (machine c).step a s = some s') : Scanned s' := by
  obtain ⟨pc, shared, took, rfl⟩ := step_cases move
  obtain ⟨t, random⟩ := a
  cases t with
  | worker w =>
    simp only [stays, Bool.and_eq_true, Bool.not_eq_true', Bool.and_eq_false_iff] at ok
    obtain ⟨takes, pushes⟩ := ok
    constructor
    case empty =>
      intro v read
      rw [s.move_other pc shared (by simp)] at read
      refine Instr.exec_empty ?_ (h.empty v read) took
      by_contra pushed
      have pushed : (Worker.code c w (s.pc (.worker w))).pushes v = true :=
        (Bool.not_eq_false _).mp pushed
      obtain ⟨rfl, _⟩ := Worker.code_pushes c pushed
      cases pushes with
      | inl no => exact absurd (no.symm.trans pushed) (by simp)
      | inr no => exact absurd (no.symm.trans read) (by simp)
    case idle =>
      intro v read
      rw [s.move_other pc shared (by simp)] at read
      by_cases here : v = w
      · subst here
        rw [s.move_self]
        have idle := h.idle v read
        have rule := Worker.code_takes c v (s.pc (.worker v))
        rw [idle] at rule
        refine rule.exec ?_ took
        cases takes with
        | inl no => exact no
        | inr no => exact absurd (no.symm.trans read) (by simp)
      · rw [s.move_other pc shared (by simpa using here)]
        exact h.idle v read
  | runner =>
    constructor
    case empty =>
      intro v read
      rw [s.move_self] at read
      have still := Runner.quiet_of_sizeRead c read took v
      cases (Runner.scan_step c took v).1 read with
      | inl old => exact Instr.exec_empty still (h.empty v old) took
      | inr empty => exact Instr.exec_empty still empty took
    case idle =>
      intro v read
      rw [s.move_self] at read
      rw [s.move_other pc shared (by simp)]
      cases (Runner.scan_step c took v).2 read with
      | inl old => exact h.idle v old
      | inr down =>
        by_contra holds
        exact absurd (down.symm.trans (covered v holds)) (by simp)
  | main =>
    constructor
    case empty =>
      intro v read
      rw [s.move_other pc shared (by simp)] at read
      exact Instr.exec_empty (Main.code_pushes v _) (h.empty v read) took
    case idle =>
      intro v read
      rw [s.move_other pc shared (by simp)] at read
      rw [s.move_other pc shared (by simp)]
      exact h.idle v read

theorem scanned {ok : State c → Action N → Prop} (quiet : ∀ s a, ok s a → stays s a = true)
    (covered : ∀ s, (machine c).Reach ok s → Covered s) (h : (machine c).Reach ok s) :
    Scanned s := by
  induction h with
  | start =>
    constructor
    case empty =>
      intro w read
      cases read
    case idle =>
      intro w read
      cases read
  | next run allowed move ih => exact step_scanned (covered _ run) ih (quiet _ _ allowed) move

theorem hand_of_job (pc : WorkerPc n N) (h : pc.job = none) : pc.hand = [] := by
  cases pc with
  | ownCheck job | ownPushBack job | execute job | executing job call => cases h
  | _ => rfl

/-- If no job moves behind the scan, then when `AllJobsFinished()` has answered
true every job added so far has been executed and finished, and no deque and no
worker holds one. -/
theorem finished_of_scan (h : (machine c).Reach undisturbed s) {later : Later n N}
    (answered : s.pc .runner = .deleteJobs later) :
    (∀ job, added s job →
      .ended job ∈ s.shared.jobs.log ∧ .finished job ∈ s.shared.jobs.log) ∧
    (∀ w, (s.shared.mJobDeque w).mJobDeque = []) ∧
    ∀ w, WorkerPc.job (s.pc (.worker w)) = none := by
  have idle : Scanned s := by
    apply scanned (fun _ _ ok => ok.2) ?_ h
    intro s run
    exact covered_of_noShutDown (run.mono fun _ _ ok => ok.1)
  have empty (w : Fin N) : (s.shared.mJobDeque w).mJobDeque = [] :=
    idle.empty w (by rw [answered]; rfl)
  have free (w : Fin N) : WorkerPc.job (s.pc (.worker w)) = none :=
    idle.idle w (by rw [answered]; rfl)
  refine ⟨fun job added => ?_, empty, free⟩
  have run : (machine c).Reach noShutDown s := h.mono fun _ _ ok => ok.1
  have place := (one_place run).1 job added
  have hands (w : Fin N) : WorkerPc.hand (s.pc (.worker w)) = [] := hand_of_job _ (free w)
  simp only [empty, hands, List.count_nil, Finset.sum_const_zero, zero_add] at place
  have finished : .finished job ∈ s.shared.jobs.log := List.count_pos_iff.mp (by omega)
  have history := (Execution.reachable_inv (executes run)).history
  obtain ⟨past, sub, _, subtracted⟩ := history.follows finished
  exact ⟨history.ended (sub subtracted), finished⟩

theorem finished_of_scan_pair : ∃ s, (machine pairConfig).Reach undisturbed s ∧
    s.pc .runner = .deleteJobs ⟨0, []⟩ ∧ ∀ job, added s job →
      .ended job ∈ s.shared.jobs.log ∧ .finished job ∈ s.shared.jobs.log := by
  have run : ((machine pairConfig).exec undisturbed
      (steps 3 .main ++ steps 11 .runner ++ steps 13 (.worker 1) ++ steps 12 (.worker 0) ++
        steps 5 .runner)
      (machine pairConfig).start).map (fun s => s.pc .runner) = some (.deleteJobs ⟨0, []⟩) := by
    decide +kernel
  obtain ⟨s, hs, answered⟩ := Option.map_eq_some_iff.mp run
  have reach := Machine.exec_start _ hs
  exact ⟨s, reach, answered, (finished_of_scan reach answered).1⟩

/-- Four jobs, added in the order 2, 1, 3, 0; the last one added has the one
before it as its prerequisite. -/
def thiefConfig : Config 4 2 where
  graph := ⟨![[], [], [], [0]], by decide⟩
  frames := [[2, 1, 3, 0]]
  once := by decide
  together := by decide
  workers := Nat.two_pos
  usingLockless := false
  waitForAvailableJobs := true

/-- Worker `w` runs job 2, finds job 3 executable in its deque and is about to raise
its flag. Worker `v` read a size of 1 before job 0 was pushed in front of job 1, so
it cannot take that one, steals job 3 instead, and goes on with job 0. The runner
counts worker `w` as idle; then worker `w` steals job 1. -/
def thiefRun (w v : Fin N) : List (Action N) :=
  steps 3 .main ++ steps 6 .runner ++ steps 12 (.worker w) ++ steps 8 .runner ++
  steps 2 (.worker w) ++ steps 4 (.worker v) ++ steps 5 .runner ++ steps 24 (.worker v) ++
  steps 2 .runner ++ steps 6 (.worker w) ++ steps 3 .runner

/-- `AllJobsFinished()` answers true while worker 0 is about to execute job 1. -/
theorem finished_too_early : ∃ s, (machine thiefConfig).Reach noShutDown s ∧
    s.pc .runner = .deleteJobs ⟨0, []⟩ ∧ added s 1 ∧ .started 1 ∉ s.shared.jobs.log ∧
    s.pc (.worker 0) = .execute 1 := by
  have run : ((machine thiefConfig).exec noShutDown (thiefRun 0 1) (machine thiefConfig).start).map
      (fun s => (s.pc .runner, decide (.started 1 ∈ s.shared.jobs.log), s.pc (.worker 0))) =
      some (.deleteJobs ⟨0, []⟩, false, .execute 1) := by
    decide +kernel
  obtain ⟨s, hs, same⟩ := Option.map_eq_some_iff.mp run
  obtain ⟨answered, started, worker⟩ : s.pc .runner = .deleteJobs ⟨0, []⟩ ∧
      decide (.started 1 ∈ s.shared.jobs.log) = false ∧ s.pc (.worker 0) = .execute 1 := by
    simpa only [Prod.mk.injEq] using same
  have here : added s 1 := by
    rw [added, answered]
    decide
  exact ⟨s, Machine.exec_start _ hs, answered, here, of_decide_eq_false started, worker⟩

end System
end JobStealer
