import JobStealer.Hunting

/-!
# Every frame can be finished

Wherever a run without `ShutDown` has come to, it can go on until every job of every
frame is finished and the runner has ended (`leads_done`), calmly: no blocked worker
wakes without a notification, and no job moves behind a scan. If none has moved there
before either, nobody looks at a deleted job on the way (`can_finish`).

From rest, either all jobs that were added are finished, and the scan goes through
(`frame_ends`), or a worker can finish one more (`finishes_one`).
-/

namespace JobStealer
open Interleaving

variable {n N : Nat}

namespace System
variable {c : Config n N} {s t u : State c} {v w : Fin N}

/-! ## One more job -/

/-- How many jobs are not finished. -/
def unfinished (s : State c) : Nat :=
  (Finset.univ.filter fun job => .finished job ∉ s.shared.jobs.log).card

/-- How many have not even been started. -/
def unstarted (s : State c) : Nat :=
  (Finset.univ.filter fun job => .started job ∉ s.shared.jobs.log).card

theorem Leads.unfinished (way : Leads s t) : unfinished t ≤ unfinished s := by
  apply Finset.card_le_card
  intro job
  simp only [Finset.mem_filter, Finset.mem_univ, true_and]
  exact fun still old => still (way.log old)

theorem Leads.fewer (way : Leads s t) {job : Fin n} (before : .finished job ∉ s.shared.jobs.log)
    (now : .finished job ∈ t.shared.jobs.log) : System.unfinished t < System.unfinished s := by
  apply Finset.card_lt_card
  refine (Finset.ssubset_iff_of_subset ?_).mpr ⟨job, by simpa using before, by simpa using now⟩
  intro other
  simp only [Finset.mem_filter, Finset.mem_univ, true_and]
  exact fun still old => still (way.log old)

theorem Settled.idle (h : Settled s) (t : Thread N) : calls s t = .idle := by
  cases t with
  | worker v => rcases h.worker v with here | here <;> simp [calls, callOf, here, WorkerPc.call]
  | runner | main => rfl

theorem Settled.free (h : Settled s) (w : Fin N) : WorkerPc.hand (s.pc (.worker w)) = [] := by
  rcases h.worker w with here | here <;>
  · rw [here]
    rfl

theorem Settled.adding (h : Settled s) : RunnerPc.adding (s.pc .runner) = false := by
  rcases h.runner with ⟨later, here⟩ | ⟨later, here⟩ <;>
  · rw [here]
    rfl

/-- A worker about to execute a job finishes it. -/
theorem finishes (run : (machine c).Reach noShutDown s) (clear : Unhindered s w) {job : Fin n}
    (here : s.pc (.worker w) = .execute job) :
    ∃ t, Leads s t ∧ Settled t ∧ System.unfinished t < System.unfinished s := by
  have before : .finished job ∉ s.shared.jobs.log := fun old => by
    apply not_held_of_finished run old (.worker w)
    rw [here]
    exact List.mem_singleton_self job
  have awake : ¬ Blocked s w := fun blocked => by
    rw [blocked.1] at here
    cases here
  have took : (code c (.worker w) (s.pc (.worker w))).exec (.worker w) 0 s.shared =
      some (.executing job (.running job),
        { s.shared with jobs := s.shared.jobs.note (.started job) }) := by
    rw [here]
    rfl
  have first : Leads s _ := .step (calm_worker clear.unscanned awake 0) (step_eq took)
  obtain ⟨t, rest, settled⟩ := settles (first.reach run)
  have started : .started job ∈ t.shared.jobs.log := rest.log (List.mem_cons_self ..)
  have way := first.trans rest
  have same := started_iff_finished (way.reach run) settled.idle job
  have finished : .finished job ∈ t.shared.jobs.log := by
    have := List.count_pos_iff.mpr started
    exact List.count_pos_iff.mp (by omega)
  exact ⟨t, way, settled, way.fewer before finished⟩

/-- Some job that is left can be executed, when nobody executes one and no job is on its
way. -/
theorem executable_left (run : (machine c).Reach noShutDown s) (idle : ∀ t, calls s t = .idle)
    (returned : RunnerPc.adding (s.pc .runner) = false) {job : Fin n}
    (here : added s job) (unfinished : .finished job ∉ s.shared.jobs.log) :
    ∃ w i, s.shared.jobs.canExecute i = true ∧
      (i ∈ (s.shared.mJobDeque w).mJobDeque ∨ i ∈ WorkerPc.hand (s.pc (.worker w))) := by
  induction job using c.graph.prerequisite_wellFounded.induction with
  | _ job ih =>
    by_cases ready : ∀ i, c.graph.Prerequisite i job → .finished i ∈ s.shared.jobs.log
    · have absent := List.count_eq_zero.mpr unfinished
      have can := canExecute_of_prerequisites run idle
        ((started_iff_finished run idle job).trans absent) ready
      have place := placed run here
      rw [absent, add_zero, ← Finset.sum_add_distrib] at place
      obtain ⟨w, _, inside⟩ := Finset.exists_ne_zero_of_sum_ne_zero (place ▸ Nat.one_ne_zero)
      refine ⟨w, job, can, ?_⟩
      rw [← List.count_pos_iff, ← List.count_pos_iff]
      omega
    · push Not at ready
      obtain ⟨i, before, unfinished⟩ := ready
      exact ih i before (added_prerequisite run returned before here) unfinished

/-- In a deque, when nobody has one in hand. -/
theorem has_executable (run : (machine c).Reach noShutDown s) (idle : ∀ t, calls s t = .idle)
    (free : ∀ w, WorkerPc.hand (s.pc (.worker w)) = [])
    (returned : RunnerPc.adding (s.pc .runner) = false) {job : Fin n}
    (here : added s job) (unfinished : .finished job ∉ s.shared.jobs.log) :
    ∃ w, (s.shared.mJobDeque w).mJobDeque.any s.shared.jobs.canExecute = true := by
  obtain ⟨w, i, can, place⟩ := executable_left run idle returned here unfinished
  rw [free w] at place
  exact ⟨w, List.any_eq_true.mpr ⟨i, place.resolve_right List.not_mem_nil, can⟩⟩

/-- Whoever sleeps over an executable job is owed a look by a worker in its loop. -/
theorem waker (waits : c.waitForAvailableJobs = true) (run : (machine c).Reach noShutDown s)
    (settled : Settled s) (asleep : Blocked s w)
    (has : (s.shared.mJobDeque w).mJobDeque.any s.shared.jobs.canExecute = true) :
    ∃ v, s.pc (.worker v) = .whileRunning := by
  obtain ⟨t, owed⟩ := watched waits run w (WorkerPc.dozing_of_blocking asleep.blocking) has
  cases t with
  | worker v =>
    refine ⟨v, (settled.worker v).resolve_right fun here => ?_⟩
    rw [here] at owed
    cases owed
  | runner =>
    rcases settled.runner with ⟨later, here⟩ | ⟨later, here⟩ <;>
    · rw [here] at owed
      cases owed
  | main => cases owed

/-- With an executable job in some deque, a worker comes to hunt for one. -/
theorem somebody_hunts (run : (machine c).Reach noShutDown s) (settled : Settled s)
    (has : (s.shared.mJobDeque w).mJobDeque.any s.shared.jobs.canExecute = true) :
    ∃ t v, Leads s t ∧ Unhindered t v ∧ ¬ Blocked t v ∧
      Worker.Hunts v t.shared (t.pc (.worker v)) := by
  have ready {v : Fin N}
      (own : (s.shared.mJobDeque v).mJobDeque.any s.shared.jobs.canExecute = true)
      (awake : ¬ Blocked s v) : ∃ t v, Leads s t ∧ Unhindered t v ∧ ¬ Blocked t v ∧
        Worker.Hunts v t.shared (t.pc (.worker v)) := by
    refine ⟨s, v, .refl s, settled.unhindered v, awake, own, ?_⟩
    rcases settled.worker v with here | here <;>
    · rw [here]
      rfl
  by_cases asleep : Blocked s w
  · cases waits : c.waitForAvailableJobs with
    | false =>
      have jobs : (s.shared.mJobDeque w).mJobDeque ≠ [] := fun nil => by
        rw [nil] at has
        cases has
      have owed := filled waits run w (WorkerPc.dozing_of_blocking asleep.blocking) jobs
      rcases settled.runner with ⟨later, here⟩ | ⟨later, here⟩ <;>
      · rw [here] at owed
        cases owed
    | true =>
      obtain ⟨v, top⟩ := waker waits run settled asleep has
      cases own : (s.shared.mJobDeque v).mJobDeque.any s.shared.jobs.canExecute with
      | true =>
        apply ready own
        rintro ⟨here, _⟩
        rw [here] at top
        cases top
      | false =>
        obtain ⟨t, way, hunts⟩ := wakes waits run settled top asleep own has
        exact ⟨t, w, way, hunts⟩
  · exact ready has asleep

/-- From rest, one more of the jobs added can be finished. -/
theorem finishes_one (run : (machine c).Reach noShutDown s) (settled : Settled s) {job : Fin n}
    (here : added s job) (left : .finished job ∉ s.shared.jobs.log) :
    ∃ t, Leads s t ∧ Settled t ∧ System.unfinished t < System.unfinished s := by
  obtain ⟨w, has⟩ := has_executable run settled.idle settled.free settled.adding here left
  obtain ⟨t, v, first, clear, awake, hunting⟩ := somebody_hunts run settled has
  obtain ⟨u, job, second, clear, about⟩ := hunts (first.reach run) clear hunting awake
  have way := first.trans second
  obtain ⟨x, last, settled, fewer⟩ := finishes (way.reach run) clear about
  exact ⟨x, way.trans last, settled, fewer.trans_le way.unfinished⟩

end System

/-! ## The next frame -/

/-- The frames still to begin or to be finished, and the end of the runner. -/
def RunnerPc.framesLeft : RunnerPc n N → Nat
  | left _ => 0
  | pc => pc.later.frames.length + 1

theorem Runner.code_framesLeft (c : Config n N) (pc : RunnerPc n N) :
    (Runner.code c pc).All fun next => next.framesLeft ≤ pc.framesLeft := by
  cases pc with
  | whileRunning later =>
    intro b
    obtain ⟨i, frames⟩ := later
    cases b <;> cases frames <;> simp [nextFrame, RunnerPc.framesLeft, RunnerPc.later]
  | addJob jobs later =>
    cases jobs <;>
      grind [Runner.code, Runner.push, Instr.All, RunnerPc.framesLeft, RunnerPc.later]
  | _ => grind [Runner.code, Instr.All, RunnerPc.framesLeft, RunnerPc.later]

namespace System
variable {c : Config n N} {s t : State c}

theorem Leads.framesLeft (way : Leads s t) :
    RunnerPc.framesLeft (t.pc .runner) ≤ RunnerPc.framesLeft (s.pc .runner) := by
  refine way.invariant (I := fun t => RunnerPc.framesLeft (t.pc .runner) ≤
    RunnerPc.framesLeft (s.pc .runner)) (Nat.le_refl _) ?_
  intro t u a _ ih _ move
  obtain ⟨pc, shared, took, rfl⟩ := step_cases move
  obtain ⟨v, random⟩ := a
  by_cases own : v = .runner
  · subst own
    rw [t.move_self]
    exact ((Runner.code_framesLeft c _).exec took).trans ih
  · rwa [t.move_other pc shared (Ne.symm own)]

theorem Leads.runs {q : RunnerPc n N × Shared c.graph N}
    (run : (threads c).Alone .runner (s.pc .runner, s.shared) q) :
    Leads s (s.move .runner q.1 q.2) :=
  Threads.Alone.reach (P := { threads c with shared := s.shared, start := s.pc })
    (fun s random => calm_runner s random) run .start

/-- A scan of idle workers goes through. -/
theorem scan_alone {x : Shared c.graph N} (empty : ∀ w, (x.mJobDeque w).mJobDeque = [])
    (down : ∀ w, x.flag (.mJobRunning w) = false) (i : Nat) (later : Later n N) :
    (threads c).Alone .runner (.scanSize i later, x) (.whileRunning later, x) := by
  generalize rest : N - i = k
  induction k generalizing i with
  | zero =>
    have beyond : ¬ i < N := by omega
    have answered : (threads c).Alone .runner (.scanSize i later, x) (.deleteJobs later, x) :=
      .single ⟨0, by simp [threads, code, Runner.code, beyond, Instr.exec]⟩
    exact answered.tail ⟨0, rfl⟩
  | succ k ih =>
    have inside : i < N := by omega
    have none : (x.mJobDeque ⟨i, inside⟩).size = 0 := by
      rw [LockingDeque.size_eq, empty]
      rfl
    have sized : (threads c).Alone .runner
        (.scanSize i later, x) (.scanFlag ⟨i, inside⟩ later, x) :=
      .single ⟨0, by simp [threads, code, Runner.code, inside, Instr.exec, none]⟩
    have idle : (threads c).Alone .runner (.scanFlag ⟨i, inside⟩ later, x)
        (.scanSize (i + 1) later, x) :=
      .single ⟨0, by simp [threads, code, Runner.code, Instr.exec, down]⟩
    exact (sized.trans idle).trans (ih (i + 1) (by omega))

/-- What is in a deque was added and is not finished. -/
theorem empty_of_finished (run : (machine c).Reach noShutDown s)
    (all : ∀ job, added s job → .finished job ∈ s.shared.jobs.log) (w : Fin N) :
    (s.shared.mJobDeque w).mJobDeque = [] := by
  apply List.eq_nil_iff_forall_not_mem.mpr
  intro job inside
  have gone := (queued run inside).2
  have total := conserved run job
  have copies : 0 < s.shared.copies job := by
    have here : 0 < (s.shared.mJobDeque w).mJobDeque.count job := List.count_pos_iff.mpr inside
    have le : (s.shared.mJobDeque w).mJobDeque.count job ≤
        ∑ i, (s.shared.mJobDeque i).mJobDeque.count job :=
      Finset.single_le_sum (f := fun i => (s.shared.mJobDeque i).mJobDeque.count job)
        (fun _ _ => Nat.zero_le _) (Finset.mem_univ w)
    rw [Shared.copies]
    omega
  have framed : job ∈ c.frames.flatten := List.count_pos_iff.mp (by omega)
  exact not_queued_of_finished run (all job ⟨framed, gone⟩) w inside

/-- When all jobs added are finished, the next frame begins, or the runner ends. -/
theorem frame_ends (run : (machine c).Reach noShutDown s) (settled : Settled s)
    (all : ∀ job, added s job → .finished job ∈ s.shared.jobs.log) {later : Later n N}
    (here : s.pc .runner = .scanSize 0 later) : ∃ t, Leads s t ∧
      RunnerPc.framesLeft (t.pc .runner) < RunnerPc.framesLeft (s.pc .runner) := by
  have down (w : Fin N) : s.shared.flag (.mJobRunning w) = false := by
    rw [raised_eq run]
    rcases settled.worker w with here | here <;>
    · rw [here]
      rfl
  have scan := scan_alone (c := c) (empty_of_finished run all) down 0 later
  have next : (threads c).Alone .runner (.scanSize 0 later, s.shared)
      (Runner.nextFrame later, s.shared) :=
    scan.tail ⟨0, by simp [threads, code, Runner.code, Instr.exec, isRunning_eq run]⟩
  obtain ⟨i, frames⟩ := later
  cases frames with
  | cons frame frames =>
    refine ⟨_, .runs (by rw [here]; exact next), ?_⟩
    rw [s.move_self, here]
    exact Nat.lt_succ_self _
  | nil =>
    refine ⟨_, .runs (by rw [here]; exact next.tail ⟨0, rfl⟩), ?_⟩
    rw [s.move_self, here]
    exact Nat.one_pos

/-- Every job of every frame is finished, and the runner has ended. -/
def Done (s : State c) : Prop :=
  (∃ later, s.pc .runner = .left later) ∧
    ∀ job ∈ c.frames.flatten, .finished job ∈ s.shared.jobs.log

theorem done_nearer (run : (machine c).Reach noShutDown s) (settled : Settled s)
    (undone : ¬ Done s) : ∃ t, Leads s t ∧ Settled t ∧
      unfinished t + RunnerPc.framesLeft (t.pc .runner) <
        unfinished s + RunnerPc.framesLeft (s.pc .runner) := by
  by_cases all : ∀ job, added s job → .finished job ∈ s.shared.jobs.log
  · rcases settled.runner with ⟨later, here⟩ | ⟨later, gone⟩
    · obtain ⟨t, first, fewer⟩ := frame_ends run settled all here
      obtain ⟨u, rest, settled⟩ := settles (first.reach run)
      have := (first.trans rest).unfinished
      have := rest.framesLeft
      exact ⟨u, first.trans rest, settled, by omega⟩
    · refine absurd ⟨⟨later, gone⟩, fun job inside => all job ⟨inside, ?_⟩⟩ undone
      rw [gone, RunnerPc.toAdd, no_frames_of_left run gone]
      exact List.not_mem_nil
  · push Not at all
    obtain ⟨job, here, left⟩ := all
    obtain ⟨t, way, settled, fewer⟩ := finishes_one run settled here left
    have := way.framesLeft
    exact ⟨t, way, settled, by omega⟩

theorem leads_done (h : (machine c).Reach noShutDown s) : ∃ t, Leads s t ∧ Done t := by
  obtain ⟨t, first, settled⟩ := settles h
  have nearer (s : State c) (inside : (machine c).Reach noShutDown s ∧ Settled s)
      (undone : ¬ Done s) : ∃ t, Leads s t ∧ ((machine c).Reach noShutDown t ∧ Settled t) ∧
        unfinished t + RunnerPc.framesLeft (t.pc .runner) <
          unfinished s + RunnerPc.framesLeft (s.pc .runner) := by
    obtain ⟨t, way, settled, less⟩ := done_nearer inside.1 inside.2 undone
    exact ⟨t, way, ⟨way.reach inside.1, settled⟩, less⟩
  obtain ⟨u, rest, _, done⟩ := Machine.exists_reach
    (fun s => unfinished s + RunnerPc.framesLeft (s.pc .runner)) nearer ⟨first.reach h, settled⟩
  exact ⟨u, Leads.trans first rest, done⟩

/-- No run without `ShutDown` comes to a dead end, in either build, as long as no job has
moved behind a scan: wherever it has come to, it can go on until every job of every frame
is finished and the runner has ended, with no worker waking from its wait unless it was
notified, with no job moving behind a scan, and with no look at a deleted job. -/
theorem can_finish (h : (machine c).Reach undisturbed s) :
    ∃ t, ((machine c).after s).Reach (fun s a => calm s a ∧ intact s a) t ∧
      (∃ later, t.pc .runner = .left later) ∧
      ∀ job ∈ c.frames.flatten, .finished job ∈ t.shared.jobs.log := by
  obtain ⟨t, way, done⟩ := leads_done (h.mono fun _ _ ok => ok.1)
  refine ⟨t, way.strengthen ?_, done⟩
  intro u a way _
  exact intact_of_undisturbed (h.trans (way.mono fun _ _ ok => ok.1)) a

/-- The first frame is deleted, and the worker has not heard of the second one yet. -/
theorem can_finish_two : ∃ s, (machine framesConfig).Reach undisturbed s ∧ Blocked s 0 ∧
    RunnerPc.deleted framesConfig (s.pc .runner) = [[0]] ∧
    (s.shared.mJobDeque 0).mJobDeque = [1] ∧
    ∃ t, ((machine framesConfig).after s).Reach (fun s a => calm s a ∧ intact s a) t ∧
      (∃ later, t.pc .runner = .left later) ∧
      ∀ job ∈ framesConfig.frames.flatten, .finished job ∈ t.shared.jobs.log := by
  have run : ((machine framesConfig).exec undisturbed
      (steps 2 .main ++ steps 7 .runner ++ steps 21 (.worker 0) ++ steps 6 .runner)
      (machine framesConfig).start).map
      (fun s => (decide (Blocked s 0), RunnerPc.deleted framesConfig (s.pc .runner),
        (s.shared.mJobDeque 0).mJobDeque)) = some (true, [[0]], [1]) := by
    decide +kernel
  obtain ⟨s, hs, same⟩ := Option.map_eq_some_iff.mp run
  simp only [Prod.mk.injEq, decide_eq_true_eq] at same
  obtain ⟨blocked, gone, jobs⟩ := same
  have reach := Machine.exec_start _ hs
  exact ⟨s, reach, blocked, gone, jobs, can_finish reach⟩

end System
end JobStealer
