import JobStealer.RunningFlag

/-!
# One frame after the other

`UpdateParallel` deletes the jobs of its frame when `AllJobsFinished` has answered
true, and the next frame begins. `Retired` is what is known of a deleted job as long
as no job moves behind a scan (`undisturbed`, as in `Finished`): it is finished, and
no thread has a pointer to it.

So no frame begins to run before the ones in front of it are through
(`frames_apart`), and no thread ever looks at a deleted job (`never_touched`): not at
its counter, not through a deque, and not at the end of a list of dependants: it is
enough that no worker and no deque has one (`Spared`). With one worker nothing can move
behind a scan (`all_finished_solo`).
-/

namespace JobStealer
open Interleaving

variable {n N : Nat}

namespace RunnerPc

/-- Inside `UpdateParallel`. -/
def updating : RunnerPc n N → Bool
  | begin _ | whileRunning _ | leave _ | left _ => false
  | _ => true

/-- The frames whose jobs are deleted. -/
def deleted (c : Config n N) (pc : RunnerPc n N) : List (List (Fin n)) :=
  c.frames.take (c.frames.length - pc.later.frames.length - if pc.updating then 1 else 0)

end RunnerPc

/-- The jobs the next step of an `Execute` looks at or changes. -/
def Call.touches (g : Graph n) : Call n → List (Fin n)
  | .idle => []
  | .running j | .finishing j => [j]
  | .releasing i k => i :: (g.dependants i)[k]?.toList

/-- They are the job being executed and its dependants. -/
theorem Call.touches_cases {g : Graph n} {call : Call n} {job : Fin n}
    (h : job ∈ call.touches g) :
    job ∈ call.jobs ∨ ∃ i ∈ call.jobs, g.Prerequisite i job := by
  cases call with
  | idle => cases h
  | running j | finishing j => exact .inl h
  | releasing i k =>
    rcases List.mem_cons.mp h with rfl | target
    · exact .inl (List.mem_singleton_self _)
    · exact .inr ⟨i, List.mem_singleton_self i, List.mem_of_getElem? (Option.mem_toList.mp target)⟩

theorem Execution.advance_jobs {g : Graph n} {m m' : Jobs g} {call next : Call n}
    (move : Execution.advance m call = some (m', next)) : next.jobs ⊆ call.jobs := by
  cases call with
  | idle => cases move
  | running j =>
    cases move
    exact List.Subset.refl _
  | finishing j =>
    cases move
    rw [Call.afterFetchSub]
    split <;> exact List.Subset.refl _
  | releasing j k =>
    simp only [Execution.advance] at move
    split at move <;> cases move
    · exact List.Subset.refl _
    · exact List.nil_subset _

/-- The jobs the step looks at or changes. -/
def Instr.touches {g : Graph n} {α : Type} (s : Shared g N) : Instr n N α → List (Fin n)
  | .hasExecutableJobs i _ => (s.mJobDeque i).mJobDeque
  | .popFront i _ _ => (s.mJobDeque i).mJobDeque.head?.toList
  | .popBack i _ => (s.mJobDeque i).mJobDeque.getLast?.toList
  | .pushFront _ job _ | .pushBack _ job _ | .canExecute job _ | .isFinished job _
  | .start job _ => [job]
  | .call c _ => c.touches g
  | _ => []

/-! ## What the code does -/

section Code
variable (c : Config n N)

theorem Runner.code_suffix (pc : RunnerPc n N) :
    (Runner.code c pc).All fun next => next.later.frames <:+ pc.later.frames := by
  cases pc with
  | whileRunning later =>
    intro b
    obtain ⟨i, frames⟩ := later
    cases b <;> cases frames <;> simp [RunnerPc.later, nextFrame]
  | addJob jobs later =>
    cases jobs <;> grind [Runner.code, Runner.push, Instr.All, RunnerPc.later]
  | _ => grind [Runner.code, Instr.All, RunnerPc.later]

/-- A frame is deleted in one place only. -/
theorem Runner.code_deleted {pc : RunnerPc n N} (keeps : ∀ later, pc ≠ .deleteJobs later) :
    (Runner.code c pc).All fun next => next.deleted c = pc.deleted c := by
  cases pc with
  | whileRunning later =>
    intro b
    obtain ⟨i, frames⟩ := later
    cases b with
    | false => rfl
    | true =>
      cases frames with
      | nil => rfl
      | cons frame rest =>
        simp only [if_true, nextFrame, RunnerPc.deleted, RunnerPc.later, RunnerPc.updating,
          List.length_cons, Bool.false_eq_true, if_false]
        congr 1
  | addJob jobs later =>
    cases jobs with
    | nil => rfl
    | cons job jobs =>
      simp only [Runner.code, Runner.push]
      split <;> rfl
  | scanSize i later =>
    simp only [Runner.code]
    split
    · intro k
      dsimp only
      split <;> rfl
    · rfl
  | scanFlag i later =>
    intro b
    cases b <;> rfl
  | deleteJobs later => exact absurd rfl (keeps later)
  | left later => trivial
  | begin later | addLock i jobs later | addNotify i jobs later | addUnlock i jobs later
  | leave later => rfl

theorem RunnerPc.later_subset_toAdd (pc : RunnerPc n N) : pc.later.frames.flatten ⊆ pc.toAdd := by
  cases pc with
  | addJob jobs later | addLock i jobs later | addNotify i jobs later | addUnlock i jobs later =>
    exact List.subset_append_right _ _
  | _ => exact List.Subset.refl _

/-- A worker gets a pointer to a job with a pop. -/
theorem Worker.code_gets (w : Fin N) (pc : WorkerPc n N) :
    (Worker.code c w pc).Gets WorkerPc.job pc.job := by
  cases pc <;> grind [Worker.code, Instr.Gets, Instr.All, WorkerPc.job]

/-- The job a worker executes is the one it has a pointer to. -/
theorem Worker.step_call {w : Fin N} {pc pc' : WorkerPc n N} {t : Thread N} {random : Nat}
    {g : Graph n} {s s' : Shared g N} (h : ∀ i ∈ pc.call.jobs, pc.job = some i)
    (took : (Worker.code c w pc).exec t random s = some (pc', s')) :
    ∀ i ∈ pc'.call.jobs, pc'.job = some i := by
  cases pc with
  | execute job =>
    cases took
    intro i here
    obtain rfl := List.mem_singleton.mp here
    rfl
  | executing job call =>
    simp only [Worker.code] at took
    obtain ⟨m, next, advanced, rfl, _⟩ := Instr.exec_call took
    have same := Execution.advance_jobs advanced
    intro i here
    split at here
    · cases here
    · exact h i (same here)
  | _ =>
    refine Instr.All.exec (P := fun pc => ∀ i ∈ pc.call.jobs, pc.job = some i) ?_ took
    grind [Worker.code, Instr.All, WorkerPc.call, Call.jobs]

/-- It touches the jobs in the deques, its own, and those its `Execute` does. -/
theorem Worker.code_touches {g : Graph n} {s : Shared g N} {w : Fin N} {pc : WorkerPc n N}
    {job : Fin n} (h : job ∈ (Worker.code c w pc).touches s) :
    (∃ i, job ∈ (s.mJobDeque i).mJobDeque) ∨ pc.job = some job ∨ job ∈ pc.call.touches g := by
  cases pc with
  | checkJobs | waitJobs =>
    simp only [Worker.code] at h
    split at h
    · exact .inl ⟨w, h⟩
    · cases h
  | wakeThreads i =>
    simp only [Worker.code] at h
    split at h
    · exact .inl ⟨_, h⟩
    · cases h
  | ownPop allow | ownPopAgain =>
    exact .inl ⟨w, List.mem_of_mem_head? (Option.mem_toList.mp h)⟩
  | stealPop i => exact .inl ⟨i, List.mem_of_getLast? (Option.mem_toList.mp h)⟩
  | ownCheck j | ownPushBack j | execute j | checkFinished j =>
    obtain rfl := List.mem_singleton.mp h
    exact .inr (.inl rfl)
  | executing j call => exact .inr (.inr h)
  | _ => cases h

/-- The runner touches what it adds. -/
theorem Runner.code_touches {g : Graph n} (s : Shared g N) (pc : RunnerPc n N) :
    (Runner.code c pc).touches s ⊆ pc.toAdd := by
  cases pc with
  | addJob jobs later =>
    cases jobs with
    | nil => exact List.nil_subset _
    | cons job jobs =>
      have first : [job] ⊆ job :: jobs ++ later.frames.flatten := by simp
      simp only [Runner.code, Runner.push]
      split <;> exact first
  | scanSize i later =>
    simp only [Runner.code]
    split <;> exact List.nil_subset _
  | _ => exact List.nil_subset _

theorem Main.code_touches {g : Graph n} (s : Shared g N) (pc : MainPc N) :
    (Main.code pc : Instr n N _).touches s = [] := by
  cases pc <;> grind [Main.code, Instr.touches]

end Code

/-- A step puts at most one event on record. -/
theorem Instr.exec_log_eq {g : Graph n} {α : Type} {instr : Instr n N α} {t : Thread N}
    {random : Nat} {s s' : Shared g N} {x : α} (move : instr.exec t random s = some (x, s')) :
    s'.jobs.log = s.jobs.log ∨ ∃ ev, s'.jobs.log = ev :: s.jobs.log := by
  have observe (m : Jobs g) (o : Option (Fin n)) :
      (m.observe o).log = m.log ∨ ∃ ev, (m.observe o).log = ev :: m.log := by
    cases o with
    | none => exact .inl rfl
    | some job => exact .inr ⟨_, rfl⟩
  cases instr with
  | halt => cases move
  | await f next =>
    obtain ⟨_, _, rfl⟩ := exec_await move
    exact .inl rfl
  | lock i next =>
    obtain ⟨_, _, rfl⟩ := exec_lock move
    exact .inl rfl
  | call c next =>
    obtain ⟨m, c', advanced, _, rfl⟩ := exec_call move
    cases c with
    | idle => cases advanced
    | running i | finishing i =>
      cases advanced
      exact .inr ⟨_, rfl⟩
    | releasing i k =>
      simp only [Execution.advance] at advanced
      split at advanced <;>
      · cases advanced
        exact .inr ⟨_, rfl⟩
  | start j next =>
    cases move
    exact .inr ⟨_, rfl⟩
  | popFront i allow next | popBack i next | canExecute j next =>
    cases move
    exact observe ..
  | _ =>
    cases move
    exact .inl rfl

namespace System
variable {c : Config n N} {ok : State c → Action N → Prop} {s : State c}

theorem later_suffix (h : (machine c).Reach ok s) :
    (RunnerPc.later (s.pc .runner)).frames <:+ c.frames := by
  refine Threads.local_invariant (P := threads c) (t := .runner)
    (Q := fun pc => (RunnerPc.later pc).frames <:+ c.frames) (List.suffix_refl _) ?_ h
  intro s _ pc shared _ suffix took
  exact ((Runner.code_suffix c _).exec took).trans suffix

theorem deleted_subset (s : State c) : RunnerPc.deleted c (s.pc .runner) ⊆ c.frames :=
  List.take_subset _ _

/-- The frames in front of one that has begun are deleted. -/
theorem subset_deleted (h : (machine c).Reach ok s) {before after : List (List (Fin n))}
    {frame : List (Fin n)} (split : c.frames = before ++ frame :: after)
    (begun : frame ∉ (RunnerPc.later (s.pc .runner)).frames) :
    before ⊆ RunnerPc.deleted c (s.pc .runner) := by
  obtain ⟨past, parts⟩ := later_suffix h
  have shorter : before.length < past.length := by
    by_contra longer
    have all := parts.trans split
    have first : past <+: c.frames := ⟨_, parts⟩
    have both : before <+: c.frames := ⟨_, split.symm⟩
    obtain ⟨gap, rfl⟩ := List.prefix_of_prefix_length_le first both (Nat.le_of_not_lt longer)
    rw [List.append_assoc, List.append_cancel_left_eq] at all
    exact begun (all ▸ by simp)
  have total := congrArg List.length parts
  rw [List.length_append] at total
  have front : before <+: RunnerPc.deleted c (s.pc .runner) := by
    refine List.prefix_take_iff.mpr ⟨⟨_, split.symm⟩, ?_⟩
    split <;> omega
  exact front.subset

/-! ## Deleted jobs -/

/-- Whoever has a job in its hands has it alone. -/
theorem not_held_of_finished (h : (machine c).Reach ok s) {job : Fin n}
    (finished : .finished job ∈ s.shared.jobs.log) (t : Thread N) : job ∉ heldBy t (s.pc t) := by
  have total := conserved_le h job
  have once := List.nodup_iff_count_le_one.mp c.once job
  have done : 0 < s.shared.jobs.log.count (.finished job) := List.count_pos_iff.mpr finished
  have mine : (heldBy t (s.pc t)).count job ≤ ∑ t, (heldBy t (s.pc t)).count job :=
    Finset.single_le_sum (f := fun t => (heldBy t (s.pc t)).count job)
      (fun _ _ => Nat.zero_le _) (Finset.mem_univ t)
  rw [Shared.copies] at total
  apply List.count_eq_zero.mp
  omega

theorem not_queued_of_finished (h : (machine c).Reach ok s) {job : Fin n}
    (finished : .finished job ∈ s.shared.jobs.log) (w : Fin N) :
    job ∉ (s.shared.mJobDeque w).mJobDeque := by
  intro inside
  have history := (Execution.reachable_inv (executes h)).history
  exact (queued h inside).1 (history.started (history.ended (history.finished finished)))

theorem not_toAdd_of_started (h : (machine c).Reach ok s) {job : Fin n}
    (started : .started job ∈ s.shared.jobs.log) : job ∉ RunnerPc.toAdd (s.pc .runner) := by
  have total := conserved_le h job
  have once := List.nodup_iff_count_le_one.mp c.once job
  have places := Execution.started_finished (executes h) job
  have held : ∑ w, (calls s (.worker w)).jobs.count job ≤
      ∑ w, (WorkerPc.hand (s.pc (.worker w))).count job :=
    Finset.sum_le_sum fun w _ => calls_le_heldBy s job (.worker w)
  have begun : 0 < s.shared.jobs.log.count (.started job) := List.count_pos_iff.mpr started
  rw [Thread.sum_eq] at places
  rw [sum_heldBy, Shared.copies] at total
  simp only [calls, callOf, Call.jobs, List.count_nil] at places held
  apply List.count_eq_zero.mp
  omega

/-- The jobs of the deleted frames are finished, and no worker has a pointer to one. -/
def Retired (s : State c) : Prop :=
  ∀ frame ∈ RunnerPc.deleted c (s.pc .runner), ∀ job ∈ frame,
    .finished job ∈ s.shared.jobs.log ∧ ∀ w, WorkerPc.job (s.pc (.worker w)) ≠ some job

/-- When `AllJobsFinished` has answered true, no job is in a deque or in a hand. -/
theorem vacant_of_answered (h : (machine c).Reach undisturbed s) {later : Later n N}
    (answered : s.pc .runner = .deleteJobs later) (w : Fin N) :
    (s.shared.mJobDeque w).mJobDeque = [] ∧ WorkerPc.job (s.pc (.worker w)) = none := by
  have seen : Scanned s := by
    apply scanned (fun _ _ ok => ok.2) ?_ h
    intro s run
    exact covered_of_noShutDown (run.mono fun _ _ ok => ok.1)
  exact ⟨seen.empty w (by rw [answered]; rfl), seen.idle w (by rw [answered]; rfl)⟩

/-- So every job that was added is finished. -/
theorem finished_of_answered (h : (machine c).Reach undisturbed s) {later : Later n N}
    (answered : s.pc .runner = .deleteJobs later) {job : Fin n} (here : added s job) :
    .ended job ∈ s.shared.jobs.log ∧ .finished job ∈ s.shared.jobs.log := by
  have run : (machine c).Reach noShutDown s := h.mono fun _ _ ok => ok.1
  have place := placed run here
  have hands (w : Fin N) : WorkerPc.hand (s.pc (.worker w)) = [] :=
    hand_of_job _ (vacant_of_answered h answered w).2
  have empty (w : Fin N) := (vacant_of_answered h answered w).1
  simp only [empty, hands, List.count_nil, Finset.sum_const_zero, zero_add] at place
  have finished : .finished job ∈ s.shared.jobs.log := List.count_pos_iff.mp (by omega)
  have history := (Execution.reachable_inv (executes run)).history
  obtain ⟨past, sub, _, subtracted⟩ := history.follows finished
  exact ⟨history.ended (sub subtracted), finished⟩

/-- And the jobs of the frame itself are retired. -/
theorem retired_of_scan (h : (machine c).Reach undisturbed s) {later : Later n N}
    (answered : s.pc .runner = .deleteJobs later) {frame : List (Fin n)}
    (inside : frame ∈ RunnerPc.deleted c (.whileRunning later)) {job : Fin n} (hj : job ∈ frame) :
    .finished job ∈ s.shared.jobs.log ∧ ∀ w, WorkerPc.job (s.pc (.worker w)) ≠ some job := by
  obtain ⟨past, parts⟩ := later_suffix h
  rw [answered] at parts
  have begun : frame ∈ past := by
    rw [RunnerPc.deleted, ← parts] at inside
    simpa [RunnerPc.later, RunnerPc.updating] using inside
  have apart : job ∉ later.frames.flatten := by
    have once := c.once
    rw [← parts, List.flatten_append] at once
    intro again
    have old := List.mem_flatten.mpr ⟨frame, begun, hj⟩
    exact (List.nodup_append.mp once).2.2 job old job again rfl
  have here : added s job := by
    rw [added, answered, ← parts]
    exact ⟨List.mem_flatten.mpr ⟨frame, List.mem_append_left _ begun, hj⟩, apart⟩
  refine ⟨(finished_of_answered h answered here).2, fun w mine => ?_⟩
  rw [(vacant_of_answered h answered w).2] at mine
  cases mine

theorem step_retired (run : (machine c).Reach undisturbed s) {a : Action N} {s' : State c}
    (h : Retired s) (move : (machine c).step a s = some s') : Retired s' := by
  obtain ⟨pc, shared, took, rfl⟩ := step_cases move
  obtain ⟨t, random⟩ := a
  have kept {job : Fin n} (finished : .finished job ∈ s.shared.jobs.log) :
      .finished job ∈ shared.jobs.log := Instr.exec_log took finished
  intro frame inside job hj
  cases t with
  | worker w =>
    rw [s.move_other pc shared (by simp)] at inside
    obtain ⟨finished, free⟩ := h frame inside job hj
    refine ⟨kept finished, fun v mine => ?_⟩
    by_cases here : v = w
    · subst here
      rw [s.move_self] at mine
      rcases (Worker.code_gets c v _).exec took mine with old | ⟨u, popped⟩
      · exact free v old
      · exact not_queued_of_finished run finished u popped
    · rw [s.move_other pc shared (by simpa using here)] at mine
      exact free v mine
  | runner =>
    rw [s.move_self] at inside
    have old : .finished job ∈ s.shared.jobs.log ∧
        ∀ w, WorkerPc.job (s.pc (.worker w)) ≠ some job := by
      by_cases answered : ∃ later, s.pc .runner = .deleteJobs later
      · obtain ⟨later, answered⟩ := answered
        rw [code, answered] at took
        cases took
        exact retired_of_scan run answered inside hj
      · have same := (Runner.code_deleted c fun later eq => answered ⟨later, eq⟩).exec took
        rw [same] at inside
        exact h frame inside job hj
    refine ⟨kept old.1, fun w => ?_⟩
    rw [s.move_other pc shared (by simp)]
    exact old.2 w
  | main =>
    rw [s.move_other pc shared (by simp)] at inside
    obtain ⟨finished, free⟩ := h frame inside job hj
    refine ⟨kept finished, fun w => ?_⟩
    rw [s.move_other pc shared (by simp)]
    exact free w

theorem retired (h : (machine c).Reach undisturbed s) : Retired s := by
  refine h.invariant (I := Retired) ?_ fun s t a run ih _ move => step_retired run ih move
  intro frame inside
  simp [machine, Threads.machine, threads, RunnerPc.deleted, RunnerPc.later] at inside

/-- Two frames of one job each, for one worker. -/
def framesConfig : Config 2 1 where
  graph := ⟨![[], []], by decide⟩
  frames := (List.finRange 2).map fun job => [job]
  once := by decide
  together := by decide
  workers := Nat.one_pos
  usingLockless := true
  waitForAvailableJobs := true

/-- The worker starts the second job. -/
def framesRun (w : Fin 1) : List (Action 1) :=
  steps 2 .main ++ steps 7 .runner ++ steps 12 (.worker w) ++ steps 9 .runner ++
  steps 7 (.worker w)

/-- If no job moves behind the scan: when a job starts, every job of every earlier frame
is finished. -/
theorem frames_apart (h : (machine c).Reach undisturbed s) {before after : List (List (Fin n))}
    {frame : List (Fin n)} (split : c.frames = before ++ frame :: after) {job : Fin n}
    (inside : job ∈ frame) {later past : List (Event c.graph)}
    (hlog : s.shared.jobs.log = later ++ .started job :: past) :
    ∀ earlier ∈ before, ∀ i ∈ earlier, .finished i ∈ past := by
  induction h generalizing later with
  | start => simp [machine, Threads.machine, threads, Jobs.built] at hlog
  | @next s s' a run allowed move ih =>
    have reach := run.next allowed move
    obtain ⟨pc, shared, took, rfl⟩ := step_cases move
    rcases Instr.exec_log_eq took with same | ⟨ev, grown⟩
    · exact ih (same.symm.trans hlog)
    · rw [Threads.State.move_shared, grown] at hlog
      cases later with
      | cons _ later => exact ih (List.cons.inj hlog).2
      | nil =>
        obtain ⟨rfl, rfl⟩ := List.cons.inj hlog
        intro earlier earlierMem i hi
        have started : .started job ∈ shared.jobs.log := by simp [grown]
        have begun : frame ∉ (RunnerPc.later ((s.move a.1 pc shared).pc .runner)).frames :=
          fun still => not_toAdd_of_started reach started
            (RunnerPc.later_subset_toAdd _ (List.mem_flatten.mpr ⟨frame, still, inside⟩))
        have gone := subset_deleted reach split begun earlierMem
        have finished := (retired reach earlier gone i hi).1
        rw [Threads.State.move_shared, grown] at finished
        simpa using finished

theorem frames_apart_two : ∃ s past, (machine framesConfig).Reach undisturbed s ∧
    s.shared.jobs.log = .started 1 :: past ∧ .finished 0 ∈ past := by
  have run : ((machine framesConfig).exec undisturbed (framesRun 0)
      (machine framesConfig).start).map (fun s => s.shared.jobs.log.head?) =
        some (some (.started 1)) := by
    decide +kernel
  obtain ⟨s, hs, newest⟩ := Option.map_eq_some_iff.mp run
  obtain ⟨past, hlog⟩ := List.head?_eq_some_iff.mp newest
  have reach := Machine.exec_start _ hs
  have split : framesConfig.frames = [[0]] ++ [1] :: [] := rfl
  exact ⟨s, past, reach, hlog, frames_apart reach split (List.mem_singleton_self 1)
    (show _ = [] ++ _ from hlog) [0] (List.mem_singleton_self _) 0 (List.mem_singleton_self 0)⟩

/-- The step looks at no job whose frame is deleted. -/
def intact (s : State c) (a : Action N) : Prop :=
  ∀ frame ∈ RunnerPc.deleted c (s.pc .runner),
    ∀ job ∈ (code c a.1 (s.pc a.1)).touches s.shared, job ∉ frame

theorem main_intact (s : State c) (random : Nat) : intact s (.main, random) := by
  intro frame _ job touches
  rw [code, Main.code_touches] at touches
  cases touches

/-- No deque and no worker has a job whose frame is deleted. -/
def Spared (s : State c) : Prop :=
  ∀ frame ∈ RunnerPc.deleted c (s.pc .runner), ∀ job ∈ frame,
    (∀ w, job ∉ (s.shared.mJobDeque w).mJobDeque) ∧
    ∀ w, WorkerPc.job (s.pc (.worker w)) ≠ some job

theorem Spared.worker_intact (spared : Spared s) (h : (machine c).Reach ok s) (w : Fin N)
    (random : Nat) : intact s (.worker w, random) := by
  intro frame gone job touches inside
  obtain ⟨absent, free⟩ := spared frame gone job inside
  have mine : ∀ i ∈ (WorkerPc.call (s.pc (.worker w))).jobs,
      WorkerPc.job (s.pc (.worker w)) = some i := by
    refine Threads.local_invariant (P := threads c) (t := .worker w)
      (Q := fun pc => ∀ i ∈ (WorkerPc.call pc).jobs, WorkerPc.job pc = some i) ?_ ?_ h
    · intro i none
      cases none
    · intro s _ pc shared _ ih took
      exact Worker.step_call c ih took
  rcases Worker.code_touches c touches with ⟨i, queuedHere⟩ | own | called
  · exact absent i queuedHere
  · exact free w own
  · rcases Call.touches_cases called with here | ⟨i, here, prerequisite⟩
    · exact free w (mine job here)
    · have known := deleted_subset s gone
      have same := c.together frame known job inside i prerequisite
      exact (spared frame gone i same).2 w (mine i here)

theorem intact_of_undisturbed (h : (machine c).Reach undisturbed s) (a : Action N) :
    intact s a := by
  obtain ⟨t, random⟩ := a
  cases t with
  | worker w =>
    have spared : Spared s := by
      intro frame gone job inside
      obtain ⟨finished, free⟩ := retired h frame gone job inside
      exact ⟨not_queued_of_finished h finished, free⟩
    exact spared.worker_intact h w random
  | main => exact main_intact s random
  | runner =>
    intro frame gone job touches inside
    obtain ⟨finished, _⟩ := retired h frame gone job inside
    exact not_held_of_finished h finished .runner (Runner.code_touches c _ _ touches)

/-- If no job moves behind the scan: no step of any thread looks at a job whose frame is
deleted, or changes its counter. -/
theorem never_touched (h : (machine c).Reach undisturbed s) {t : Thread N} {job : Fin n}
    (touches : job ∈ (code c t (s.pc t)).touches s.shared) {frame : List (Fin n)}
    (gone : frame ∈ RunnerPc.deleted c (s.pc .runner)) : job ∉ frame :=
  intact_of_undisturbed h (t, 0) frame gone job touches

theorem never_touched_two : ∃ s, (machine framesConfig).Reach undisturbed s ∧
    RunnerPc.deleted framesConfig (s.pc .runner) = [[0]] ∧
    (code framesConfig (.worker 0) (s.pc (.worker 0))).touches s.shared = [1] ∧
    (1 : Fin 2) ∉ [(0 : Fin 2)] := by
  have run : ((machine framesConfig).exec undisturbed (framesRun 0)
      (machine framesConfig).start).map
        (fun s => (RunnerPc.deleted framesConfig (s.pc .runner),
          (code framesConfig (.worker 0) (s.pc (.worker 0))).touches s.shared)) =
      some ([[0]], [1]) := by
    decide +kernel
  obtain ⟨s, hs, same⟩ := Option.map_eq_some_iff.mp run
  obtain ⟨gone, touches⟩ := Prod.mk.injEq .. ▸ same
  have reach := Machine.exec_start _ hs
  exact ⟨s, reach, gone, touches, never_touched reach (t := .worker 0)
    (by rw [touches]; exact List.mem_singleton_self _)
    (by rw [gone]; exact List.mem_singleton_self _)⟩

/-- With one worker no job moves behind the scan. -/
theorem undisturbed_solo {c : Config n 1} {s : State c} (h : (machine c).Reach noShutDown s) :
    (machine c).Reach undisturbed s := by
  induction h with
  | start => exact .start
  | @next s s' a run allowed move ih =>
    refine ih.next ⟨allowed, ?_⟩ move
    obtain ⟨t, random⟩ := a
    cases t with
    | runner | main => rfl
    | worker w =>
      obtain rfl : w = 0 := Subsingleton.elim w 0
      have serving : ¬ MainPc.cleared 0 (s.pc .main) = true := by
        have serving := serving_of_noShutDown run
        generalize s.pc .main = pc at serving
        cases pc with
        | construct i | waitForKey => simp [MainPc.cleared]
        | _ => cases serving
      simp only [stays, Bool.and_eq_true, Bool.not_eq_true', Bool.and_eq_false_iff]
      constructor
      · by_cases read : RunnerPc.flagRead 0 (s.pc .runner) = true
        · exact .inl (vacant run (RunnerPc.sizeRead_of_flagRead read)).takes
        · exact .inr ((Bool.not_eq_true _).mp read)
      · by_contra both
        obtain ⟨pushes, read⟩ := not_or.mp both
        obtain ⟨_, job, here⟩ := Worker.code_pushes c ((Bool.not_eq_false _).mp pushes)
        rcases vacant run ((Bool.not_eq_false _).mp read) with empty | out
        · have kept := keeps run
          rw [here, empty] at kept
          exact Nat.not_succ_le_zero 0 (kept.resolve_left serving)
        · exact serving out.1

/-- With one worker `AllJobsFinished` never answers too early. -/
theorem all_finished_solo {c : Config n 1} {s : State c} (h : (machine c).Reach noShutDown s)
    {later : Later n 1} (answered : s.pc .runner = .deleteJobs later) :
    (∀ job, added s job →
      .ended job ∈ s.shared.jobs.log ∧ .finished job ∈ s.shared.jobs.log) ∧
    (∀ w, (s.shared.mJobDeque w).mJobDeque = []) ∧
    ∀ w, WorkerPc.job (s.pc (.worker w)) = none := by
  have run := undisturbed_solo h
  exact ⟨fun _ here => finished_of_answered run answered here,
    fun w => (vacant_of_answered run answered w).1, fun w => (vacant_of_answered run answered w).2⟩

theorem all_finished_solo_two : ∃ s, (machine framesConfig).Reach noShutDown s ∧
    s.pc .runner = .deleteJobs ⟨0, [[1]]⟩ ∧ ∀ job, added s job →
      .ended job ∈ s.shared.jobs.log ∧ .finished job ∈ s.shared.jobs.log := by
  have run : ((machine framesConfig).exec noShutDown
      (steps 2 .main ++ steps 7 .runner ++ steps 12 (.worker 0) ++ steps 3 .runner)
      (machine framesConfig).start).map (fun s => s.pc .runner) =
      some (.deleteJobs ⟨0, [[1]]⟩) := by
    decide +kernel
  obtain ⟨s, hs, answered⟩ := Option.map_eq_some_iff.mp run
  have reach := Machine.exec_start _ hs
  exact ⟨s, reach, answered, (all_finished_solo reach answered).1⟩

end System
end JobStealer
