import JobStealer.Settling

/-!
# The end of the program

After the key `ShutDown` stops one worker after the other and joins it. Whatever the
threads have been doing, it can come to its end (`shut_down_returns`): a worker that was
notified goes on until `Run` returns, and whoever holds a mutex releases it. If no worker
and no deque has a deleted job, nobody looks at one on the way (`step_spared`). No job is
left half executed (`stops_between_jobs`).

Then `main` joins the runner, which nobody stops. It spins in `AllJobsFinished` for ever
if it finds a job in a deque, for no worker is left to take it: `join_returns` says
exactly when it can end.
-/

namespace JobStealer
open Interleaving

variable {n N : Nat}

/-! ## `ShutDown` returns -/

/-- A bound on the steps before a mutex the thread holds is free. -/
def holdOf : (t : Thread N) → Pc n N t → Nat
  | .worker _ => fun
    | .waitJobs => 3
    | .waitRunning _ | .wakeNotify _ => 2
    | .waitBlock | .waitUnlock | .wakeUnlock _ => 1
    | _ => 0
  | .runner => fun
    | .addNotify _ _ _ => 2
    | .addUnlock _ _ _ => 1
    | _ => 0
  | .main => fun
    | .notify _ => 2
    | .unlock _ => 1
    | _ => 0

/-- A bound on the steps of `ShutDown` still to come. -/
def MainPc.closing : MainPc N → Nat
  | quit => 7 * N + 2
  | shutDown i => 7 * (N - i) + 1
  | lowerFlag i => 7 * (N - i)
  | clear i => 7 * (N - i) - 1
  | lock i => 7 * (N - i) - 2
  | notify i => 7 * (N - i) - 3
  | unlock i => 7 * (N - i) - 4
  | join i => 7 * (N - i) - 5
  | _ => 0

section Code
variable (c : Config n N)

theorem holdOf_le (t : Thread N) (pc : Pc n N t) : holdOf t pc ≤ 3 := by
  cases t with
  | worker w | runner | main => cases pc <;> simp [holdOf]

/-- Every step of a thread that holds a mutex brings it nearer to the unlock. -/
theorem code_holds (t : Thread N) (pc : Pc n N t) {i : Fin N} (held : locksOf t pc = some i) :
    (code c t pc).All fun next => holdOf t next < holdOf t pc := by
  cases t with
  | worker w =>
    change WorkerPc.locks w pc = some i at held
    cases pc with
    | waitJobs =>
      simp only [code, Worker.code]
      split <;>
      · intro x
        exact Nat.lt_succ_self _
    | waitRunning available =>
      intro b
      dsimp only
      split <;> exact Nat.lt_succ_self _
    | waitBlock | waitUnlock | wakeNotify i | wakeUnlock i => exact Nat.lt_succ_self _
    | _ => cases held
  | runner =>
    change RunnerPc.locks pc = some i at held
    cases pc with
    | addNotify i jobs later => exact Nat.lt_succ_self _
    | addUnlock i jobs later => cases jobs <;> exact Nat.lt_succ_self _
    | _ => cases held
  | main =>
    change MainPc.locks pc = some i at held
    cases pc with
    | notify i | unlock i => exact Nat.lt_succ_self _
    | _ => cases held

/-- A worker pushes what it has. -/
theorem Worker.code_pushesJob {v w : Fin N} {pc : WorkerPc n N} {job : Fin n}
    (h : (Worker.code c v pc).pushesJob w job = true) : pc.job = some job := by
  cases pc <;> grind [Worker.code, Instr.pushesJob, WorkerPc.job]

/-- While it holds a mutex the runner has nothing to do with jobs. -/
theorem Runner.quiet_of_locks {g : Graph n} {pc : RunnerPc n N} {i : Fin N}
    (held : pc.locks = some i) : (∀ later, pc ≠ .deleteJobs later) ∧
      (∀ w job, (Runner.code c pc).pushesJob w job = false) ∧
      ∀ s : Shared g N, (Runner.code c pc).touches s = [] := by
  cases pc with
  | addNotify k jobs later | addUnlock k jobs later =>
    exact ⟨by simp, fun _ _ => rfl, fun _ => rfl⟩
  | _ => cases held

theorem Main.code_typed {pc : MainPc N} (typed : pc.serving = false) :
    (Main.code pc : Instr n N _).All fun next => next.serving = false := by
  cases pc with
  | construct i | waitForKey => cases typed
  | shutDown i =>
    simp only [Main.code]
    split <;> rfl
  | left => trivial
  | _ => rfl

theorem Main.step_closing {g : Graph n} {pc pc' : MainPc N} {t : Thread N} {random : Nat}
    {s s' : Shared g N} (closing : 0 < pc.closing)
    (took : (Main.code pc : Instr n N _).exec t random s = some (pc', s')) :
    pc'.closing < pc.closing := by
  have all (h : (Main.code pc : Instr n N _).All fun next => next.closing < pc.closing) :
      pc'.closing < pc.closing := h.exec took
  cases pc with
  | construct i | waitForKey | joinRunner | left => exact absurd closing (Nat.lt_irrefl 0)
  | shutDown i =>
    apply all
    simp only [Main.code]
    split <;> simp only [Instr.All, MainPc.closing] <;> omega
  | quit =>
    apply all
    simp only [Main.code, Instr.All, MainPc.closing]
    omega
  | lowerFlag i | clear i | lock i | notify i | unlock i | join i =>
    have := i.isLt
    apply all
    simp only [Main.code, Instr.All, MainPc.closing]
    omega

end Code

namespace System
variable {c : Config n N} {s t : State c} {w : Fin N}

def holding (s : State c) : Nat := ∑ t, holdOf t (s.pc t)

theorem step_holding {v : Thread N} {random : Nat} {i : Fin N}
    (held : locksOf v (s.pc v) = some i) (move : (machine c).step (v, random) s = some t) :
    holding t < holding s := by
  obtain ⟨pc, shared, took, rfl⟩ := step_cases move
  have less := (code_holds c v (s.pc v) held).exec took
  have total := sum_update s.pc v pc holdOf
  simp only [holding, Threads.State.move]
  omega

theorem step_other {v u : Thread N} {random : Nat} (other : u ≠ v)
    (move : (machine c).step (v, random) s = some t) : t.pc u = s.pc u := by
  obtain ⟨pc, shared, took, rfl⟩ := step_cases move
  exact s.move_other pc shared other

/-- No blocked worker wakes without a notification, and the runner only releases a mutex. -/
def helping (s : State c) (a : Action N) : Prop :=
  prompted s a ∧ (a.1 = .runner → ∃ i, RunnerPc.locks (s.pc .runner) = some i)

theorem helping_holder {v : Thread N} {i : Fin N} (held : locksOf v (s.pc v) = some i)
    (random : Nat) : helping s (v, random) := by
  refine ⟨(calm_holder held random).2, ?_⟩
  rintro rfl
  exact ⟨i, held⟩

/-- `main` gets every mutex it waits for. -/
theorem gets_lock (h : (machine c).Reachable s) {i : Fin N} (here : s.pc .main = .lock i) :
    ∃ t, ((machine c).after s).Reach helping t ∧ t.pc .main = .lock i ∧
      t.shared.mAwakeMutex i = none := by
  have nearer (s : State c) (inside : (machine c).Reachable s ∧ s.pc .main = .lock i)
      (taken : s.shared.mAwakeMutex i ≠ none) :
      ∃ t, ((machine c).after s).Reach helping t ∧
        ((machine c).Reachable t ∧ t.pc .main = .lock i) ∧ holding t < holding s := by
    obtain ⟨h, here⟩ := inside
    obtain ⟨u, owner⟩ := Option.ne_none_iff_exists'.mp taken
    have held := own_locks h owner
    obtain ⟨t, move⟩ := holder_moves held
    have other : .main ≠ u := by
      rintro rfl
      rw [here] at held
      cases held
    exact ⟨t, .next .start (helping_holder held 0) move,
      ⟨h.next trivial move, (step_other other move).trans here⟩, step_holding held move⟩
  obtain ⟨t, way, inside, free⟩ := Machine.exists_reach holding nearer ⟨h, here⟩
  exact ⟨t, way, inside.2, free⟩

/-- `Run` returns in a worker that `ShutDown` has notified. -/
theorem run_returns (h : (machine c).Reachable s) {i : Fin N} (here : s.pc .main = .join i) :
    ∃ t, ((machine c).after s).Reach helping t ∧ (machine c).Reachable t ∧
      t.pc .main = .join i ∧ t.pc (.worker i) = .left := by
  have nearer (s : State c) (inside : (machine c).Reachable s ∧ s.pc .main = .join i)
      (runs : s.pc (.worker i) ≠ .left) :
      ∃ t, ((machine c).after s).Reach helping t ∧
        ((machine c).Reachable t ∧ t.pc .main = .join i) ∧
        4 * WorkerPc.remaining c (t.pc (.worker i)) + holding t <
          4 * WorkerPc.remaining c (s.pc (.worker i)) + holding s := by
    obtain ⟨h, here⟩ := inside
    have stopped : s.shared.flag (.mRunning i) = false := by
      rw [mRunning_stopped h, here]
      simp [MainPc.stopped]
    rcases goes_on h stopped with ⟨gone, _⟩ | ⟨awake, moves⟩ | ⟨notifying, _⟩
    · exact absurd gone runs
    · rcases moves with ⟨t, move⟩ | ⟨k, u, other, owner, t, move⟩
      · have ok : helping s (.worker i, 0) := by
          refine ⟨?_, by simp⟩
          rintro w same
          cases same
          exact awake
        refine ⟨t, .next .start ok move,
          ⟨h.next trivial move, (step_other (by simp) move).trans here⟩, ?_⟩
        obtain ⟨pc, shared, took, rfl⟩ := step_cases move
        have less := Worker.step_remaining c stopped took
        have held := holdOf_le (.worker i) pc
        have total := sum_update s.pc (.worker i) pc holdOf
        rw [s.move_self]
        simp only [holding, Threads.State.move]
        dsimp only at less
        omega
      · have held := own_locks h owner
        have apart : .main ≠ u := by
          rintro rfl
          rw [here] at held
          cases held
        refine ⟨t, .next .start (helping_holder held 0) move,
          ⟨h.next trivial move, (step_other apart move).trans here⟩, ?_⟩
        rw [step_other (Ne.symm other) move]
        have := step_holding held move
        omega
    · rw [here] at notifying
      cases notifying
  obtain ⟨t, way, inside, gone⟩ := Machine.exists_reach
    (fun s => 4 * WorkerPc.remaining c (s.pc (.worker i)) + holding s) nearer ⟨h, here⟩
  exact ⟨t, way, inside.1, inside.2, gone⟩

/-- A step of `ShutDown`, after the others have moved. -/
theorem closes (way : ((machine c).after s).Reach helping t)
    (same : t.pc .main = s.pc .main) (closing : 0 < MainPc.closing (s.pc .main))
    (took : ∃ r, (Main.code (t.pc .main)).exec .main 0 t.shared = some r) :
    ∃ u, ((machine c).after s).Reach helping u ∧
      MainPc.closing (u.pc .main) < MainPc.closing (s.pc .main) := by
  obtain ⟨⟨pc, shared⟩, took⟩ := took
  have ok : helping t (.main, 0) := ⟨fun w same => (by cases same), by simp⟩
  refine ⟨t.move .main pc shared, way.next ok (step_eq (v := .main) took), ?_⟩
  rw [t.move_self, ← same]
  rw [← same] at closing
  exact Main.step_closing closing took

theorem closes_nearer (h : (machine c).Reachable s)
    (closing : 0 < MainPc.closing (s.pc .main)) :
    ∃ t, ((machine c).after s).Reach helping t ∧
      MainPc.closing (t.pc .main) < MainPc.closing (s.pc .main) := by
  have now {r} (took : (Main.code (s.pc .main)).exec .main 0 s.shared = some r) :
      ∃ t, ((machine c).after s).Reach helping t ∧
        MainPc.closing (t.pc .main) < MainPc.closing (s.pc .main) :=
    closes .start rfl closing ⟨r, took⟩
  cases here : s.pc .main with
  | construct i | waitForKey | joinRunner | left =>
    rw [here] at closing
    exact absurd closing (Nat.lt_irrefl 0)
  | lock i =>
    obtain ⟨t, way, still, free⟩ := gets_lock h here
    rw [← here]
    refine closes way (still.trans here.symm) closing ?_
    rw [still]
    exact ⟨_, if_pos free⟩
  | join i =>
    obtain ⟨t, way, reached, still, gone⟩ := run_returns h here
    have ended := ended_eq reached i
    rw [gone] at ended
    rw [← here]
    refine closes way (still.trans here.symm) closing ?_
    rw [still]
    exact ⟨_, if_pos ended⟩
  | shutDown i =>
    simp only [here, Main.code] at now
    split at now <;> exact now rfl
  | _ =>
    simp only [here, Main.code] at now
    exact now rfl

theorem closes_down (h : (machine c).Reachable s)
    (typed : MainPc.serving (s.pc .main) = false) :
    ∃ t, ((machine c).after s).Reach helping t ∧ MainPc.down (t.pc .main) = true := by
  have nearer (s : State c)
      (inside : (machine c).Reachable s ∧ MainPc.serving (s.pc .main) = false)
      (open_ : ¬ MainPc.down (s.pc .main) = true) : ∃ t, ((machine c).after s).Reach helping t ∧
        ((machine c).Reachable t ∧ MainPc.serving (t.pc .main) = false) ∧
        MainPc.closing (t.pc .main) < MainPc.closing (s.pc .main) := by
    have closing : 0 < MainPc.closing (s.pc .main) := by
      have typed := inside.2
      generalize s.pc .main = pc at typed open_
      cases pc with
      | construct i | waitForKey => cases typed
      | joinRunner | left => exact absurd rfl open_
      | quit | shutDown i => exact Nat.succ_pos _
      | lowerFlag i | clear i | lock i | notify i | unlock i | join i =>
        have := i.isLt
        simp only [MainPc.closing]
        omega
    obtain ⟨t, way, less⟩ := closes_nearer inside.1 closing
    refine ⟨t, way, ⟨inside.1.trans way.reachable, ?_⟩, less⟩
    refine way.invariant (I := fun t => MainPc.serving (t.pc .main) = false) inside.2 ?_
    intro t u a _ typed _ move
    obtain ⟨pc, shared, took, rfl⟩ := step_cases move
    obtain ⟨v, random⟩ := a
    by_cases own : v = .main
    · subst own
      rw [t.move_self]
      exact (Main.code_typed typed).exec took
    · rwa [t.move_other pc shared (Ne.symm own)]
  obtain ⟨t, way, _, down⟩ := Machine.exists_reach
    (fun s : State c => MainPc.closing (s.pc .main)) nearer ⟨h, typed⟩
  exact ⟨t, way, down⟩

theorem step_spared {a : Action N} (spared : Spared s) (ok : helping s a)
    (move : (machine c).step a s = some t) : Spared t := by
  obtain ⟨pc, shared, took, rfl⟩ := step_cases move
  obtain ⟨v, random⟩ := a
  have same : RunnerPc.deleted c ((s.move v pc shared).pc .runner) =
      RunnerPc.deleted c (s.pc .runner) := by
    by_cases own : v = .runner
    · subst own
      obtain ⟨i, held⟩ := ok.2 rfl
      rw [s.move_self]
      exact (Runner.code_deleted c (Runner.quiet_of_locks (g := c.graph) c held).1).exec took
    · rw [s.move_other pc shared (Ne.symm own)]
  intro frame inside job hj
  rw [same] at inside
  obtain ⟨absent, free⟩ := spared frame inside job hj
  constructor
  · intro w now
    rcases Instr.exec_mem took now with old | pushed
    · exact absent w old
    · cases v with
      | worker u => exact free u (Worker.code_pushesJob c pushed)
      | runner =>
        obtain ⟨i, held⟩ := ok.2 rfl
        have quiet := (Runner.quiet_of_locks (g := c.graph) c held).2.1 w job
        exact absurd (quiet.symm.trans pushed) (by simp)
      | main =>
        have quiet := Main.code_pushes (n := n) w (s.pc .main)
        exact absurd (quiet.symm.trans (Instr.pushes_of_job pushed)) (by simp)
  · intro w mine
    by_cases own : v = .worker w
    · subst own
      rw [s.move_self] at mine
      rcases (Worker.code_gets c w _).exec took mine with old | ⟨u, popped⟩
      · exact free w old
      · exact absent u popped
    · rw [s.move_other pc shared (Ne.symm own)] at mine
      exact free w mine

/-- So no step on the way looks at a deleted job. -/
theorem Spared.intact (spared : Spared s) (h : (machine c).Reachable s) {a : Action N}
    (ok : helping s a) : intact s a := by
  obtain ⟨v, random⟩ := a
  cases v with
  | worker w => exact spared.worker_intact h w random
  | main => exact main_intact s random
  | runner =>
    obtain ⟨i, held⟩ := ok.2 rfl
    intro frame _ job touches
    rw [code, (Runner.quiet_of_locks c held).2.2] at touches
    cases touches

/-- Once a key was typed, `ShutDown` can come to its end, whatever the other threads have
been doing, with no worker waking from its wait unless it was notified, and, if none has
a deleted job and none is in a deque, with no look at a deleted job. -/
theorem shut_down_returns (h : (machine c).Reachable s)
    (typed : MainPc.serving (s.pc .main) = false) (spared : Spared s) :
    ∃ t, ((machine c).after s).Reach (fun s a => prompted s a ∧ intact s a) t ∧
      MainPc.down (t.pc .main) = true := by
  obtain ⟨t, way, down⟩ := closes_down h typed
  have all : ((machine c).after s).Reach (fun s a => helping s a ∧ intact s a) t := by
    apply way.strengthen
    intro u a way ok
    have still : Spared u := by
      refine way.invariant (I := Spared) spared ?_
      intro s t a _ spared ok move
      exact step_spared spared ok move
    exact still.intact (h.trans way.reachable) ok
  exact ⟨t, all.mono fun _ _ ok => ⟨ok.1.1, ok.2⟩, down⟩

/-- The first frame is deleted, and the worker sleeps over the job of the second one. -/
theorem shut_down_returns_two : ∃ s, (machine framesConfig).Reachable s ∧ Blocked s 0 ∧
    RunnerPc.deleted framesConfig (s.pc .runner) = [[0]] ∧
    (s.shared.mJobDeque 0).mJobDeque = [1] ∧
    ∃ t, ((machine framesConfig).after s).Reach (fun s a => prompted s a ∧ intact s a) t ∧
      MainPc.down (t.pc .main) = true := by
  have run : ((machine framesConfig).run
      (steps 2 .main ++ steps 7 .runner ++ steps 21 (.worker 0) ++ steps 6 .runner ++
        steps 1 .main) (machine framesConfig).start).map
      (fun s => (decide (Blocked s 0), RunnerPc.deleted framesConfig (s.pc .runner),
        (s.shared.mJobDeque 0).mJobDeque, MainPc.serving (s.pc .main))) =
      some (true, [[0]], [1], false) := by
    decide +kernel
  obtain ⟨s, hs, same⟩ := Option.map_eq_some_iff.mp run
  simp only [Prod.mk.injEq, decide_eq_true_eq] at same
  obtain ⟨blocked, gone, jobs, typed⟩ := same
  have reach := Machine.exec_start _ hs
  have spared : Spared s := by
    intro frame inside job hj
    rw [gone, List.mem_singleton] at inside
    subst inside
    obtain rfl := List.mem_singleton.mp hj
    constructor
    · intro w
      rw [Subsingleton.elim w 0, jobs]
      decide
    · intro w
      rw [Subsingleton.elim w 0, blocked.1]
      simp [WorkerPc.job]
  exact ⟨s, reach, blocked, gone, jobs, shut_down_returns reach typed spared⟩

end System

/-! ## The join of the runner -/

namespace RunnerPc

/-- The jobs of the frame still to be added. -/
def jobsLeft : RunnerPc n N → List (Fin n)
  | addJob jobs _ | addLock _ jobs _ | addNotify _ jobs _ | addUnlock _ jobs _ => jobs
  | _ => []

/-- A bound on the steps of a runner that will not begin another frame. -/
def ending : RunnerPc n N → Nat
  | left _ => 0
  | leave _ => 1
  | whileRunning _ => 2
  | begin _ | deleteJobs _ => 3
  | scanFlag i _ => 2 * (N - i) + 3
  | scanSize i _ => 2 * (N - i) + 4
  | addJob jobs _ => 2 * N + 4 * jobs.length + 5
  | addUnlock _ jobs _ => 2 * N + 4 * jobs.length + 6
  | addNotify _ jobs _ => 2 * N + 4 * jobs.length + 7
  | addLock _ jobs _ => 2 * N + 4 * jobs.length + 8

end RunnerPc

/-- `ShutDown` has not begun. -/
def MainPc.running : MainPc N → Bool
  | construct _ | waitForKey | quit => true
  | _ => false

/-- The runner has no job to add, and the deques it has still to look at are empty. -/
def Runner.Ends {g : Graph n} (s : Shared g N) (pc : RunnerPc n N) : Prop :=
  pc.updating = true → pc.jobsLeft = [] ∧
    ∀ w, pc.sizeRead w = false → (s.mJobDeque w).mJobDeque = []

section Code
variable (c : Config n N)

theorem Main.code_running (pc : MainPc N) :
    (Main.code pc : Instr n N _).Tracks .isRunning MainPc.running pc.running := by
  cases pc <;> grind [Main.code, Instr.Tracks, Instr.All, MainPc.running]

/-- The runner has ended. -/
def RunnerPc.gone : RunnerPc n N → Bool
  | left _ => true
  | _ => false

theorem Runner.code_gone (pc : RunnerPc n N) :
    (Runner.code c pc).Tracks (.ended .runner) RunnerPc.gone pc.gone := by
  cases pc with
  | addJob jobs later =>
    cases jobs <;> grind [Runner.code, Runner.push, Instr.Tracks, Instr.All, RunnerPc.gone]
  | _ => grind [Runner.code, Runner.nextFrame, Instr.Tracks, Instr.All, RunnerPc.gone]

theorem Runner.step_ends {g : Graph n} {pc pc' : RunnerPc n N} {t : Thread N} {random : Nat}
    {s s' : Shared g N} (quit : s.flag .isRunning = false)
    (down : ∀ w, s.flag (.mJobRunning w) = false) (ends : Runner.Ends s pc)
    (took : (Runner.code c pc).exec t random s = some (pc', s')) :
    Runner.Ends s' pc' ∧ pc'.ending < pc.ending := by
  have out {s' : Shared g N} {pc' : RunnerPc n N} (h : pc'.updating = false) :
      Runner.Ends s' pc' := fun inside => absurd (h.symm.trans inside) (by simp)
  cases pc with
  | begin later =>
    obtain ⟨_, rfl, _⟩ := Instr.exec_await took
    exact ⟨out rfl, Nat.lt_succ_self _⟩
  | whileRunning later =>
    cases took
    dsimp only
    rw [quit]
    exact ⟨out rfl, Nat.lt_succ_self _⟩
  | addJob jobs later =>
    obtain ⟨none, empty⟩ := ends rfl
    have none : jobs = [] := none
    subst none
    cases took
    exact ⟨fun _ => ⟨rfl, fun w _ => empty w rfl⟩, Nat.lt_succ_self _⟩
  | addLock i jobs later =>
    obtain ⟨_, rfl, rfl⟩ := Instr.exec_lock took
    exact ⟨fun _ => ends rfl, Nat.lt_succ_self _⟩
  | addNotify i jobs later | addUnlock i jobs later =>
    cases took
    exact ⟨fun _ => ends rfl, Nat.lt_succ_self _⟩
  | scanSize i later =>
    obtain ⟨_, empty⟩ := ends rfl
    simp only [Runner.code] at took
    split at took
    · rename_i inside
      have unread : RunnerPc.sizeRead ⟨i, inside⟩ (.scanSize i later : RunnerPc n N) = false := by
        simp [RunnerPc.sizeRead]
      have none : (s.mJobDeque ⟨i, inside⟩).size = 0 := by
        rw [LockingDeque.size_eq, empty _ unread]
        rfl
      cases took
      dsimp only
      rw [if_neg (by omega)]
      refine ⟨fun _ => ⟨rfl, fun w read => empty w ?_⟩, Nat.lt_succ_self _⟩
      simp only [RunnerPc.sizeRead, decide_eq_false_iff_not, Fin.le_def] at read ⊢
      omega
    · cases took
      refine ⟨fun _ => ⟨rfl, fun w read => by cases read⟩, ?_⟩
      simp only [RunnerPc.ending]
      omega
  | scanFlag i later =>
    obtain ⟨_, empty⟩ := ends rfl
    have := i.isLt
    cases took
    dsimp only
    rw [down i]
    refine ⟨fun _ => ⟨rfl, fun w read => empty w ?_⟩, ?_⟩
    · simp only [Bool.false_eq_true, if_false, RunnerPc.sizeRead, decide_eq_false_iff_not,
        Fin.le_def] at read ⊢
      omega
    · simp only [Bool.false_eq_true, if_false, RunnerPc.ending]
      omega
  | deleteJobs later | leave later =>
    cases took
    exact ⟨out rfl, Nat.lt_succ_self _⟩
  | left later => cases took

/-- Once it has a job to add, or one in the way of its scan, it always will. -/
theorem Runner.step_spins {g : Graph n} {pc pc' : RunnerPc n N} {t : Thread N} {random : Nat}
    {s s' : Shared g N} (took : (Runner.code c pc).exec t random s = some (pc', s'))
    (ends : Runner.Ends s' pc') : Runner.Ends s pc := by
  intro inside
  cases pc with
  | begin later | whileRunning later | leave later | left later => cases inside
  | addJob jobs later =>
    cases jobs with
    | nil =>
      cases took
      exact ⟨rfl, fun w _ => (ends rfl).2 w (by simp [RunnerPc.sizeRead])⟩
    | cons job jobs =>
      simp only [Runner.code, Runner.push] at took
      split at took <;>
      · cases took
        have empty := (ends rfl).2 later.mCurrentWorkerId rfl
        simp at empty
  | addLock i jobs later =>
    obtain ⟨_, rfl, rfl⟩ := Instr.exec_lock took
    exact ends rfl
  | addNotify i jobs later | addUnlock i jobs later =>
    cases took
    exact ends rfl
  | scanSize i later =>
    refine ⟨rfl, fun w unread => ?_⟩
    simp only [RunnerPc.sizeRead, decide_eq_false_iff_not] at unread
    simp only [Runner.code] at took
    split at took
    · rename_i hi
      cases took
      dsimp only at ends
      by_cases filled : (s.mJobDeque ⟨i, hi⟩).size > 0
      · rw [if_pos filled] at ends
        exact (ends rfl).2 w (by simp [RunnerPc.sizeRead])
      · rw [if_neg filled] at ends
        by_cases here : w = ⟨i, hi⟩
        · subst here
          rw [LockingDeque.size_eq] at filled
          exact List.eq_nil_of_length_eq_zero (by omega)
        · have apart : w.val ≠ i := fun same => here (Fin.ext same)
          refine (ends rfl).2 w ?_
          simp only [RunnerPc.sizeRead, decide_eq_false_iff_not, Fin.le_def]
          omega
    · omega
  | scanFlag i later =>
    refine ⟨rfl, fun w unread => ?_⟩
    simp only [RunnerPc.sizeRead, decide_eq_false_iff_not, Fin.le_def] at unread
    cases took
    dsimp only at ends
    cases running : s.flag (.mJobRunning i) with
    | true =>
      rw [running] at ends
      exact (ends rfl).2 w (by simp [RunnerPc.sizeRead])
    | false =>
      rw [running] at ends
      refine (ends rfl).2 w ?_
      simp only [Bool.false_eq_true, if_false, RunnerPc.sizeRead, decide_eq_false_iff_not]
      omega
  | deleteJobs later => exact ⟨rfl, fun w read => by cases read⟩

end Code

namespace System
variable {c : Config n N} {ok : State c → Action N → Prop} {s t : State c}

theorem isRunning_main (h : (machine c).Reach ok s) :
    s.shared.flag .isRunning = MainPc.running (s.pc .main) := by
  refine tracked (t := .main) rfl Main.code_running ?_ h
  intro s run u other
  cases u with
  | worker v => exact Worker.code_leaves c (by simp) (by simp) _
  | runner => exact Runner.code_leaves c (by simp) _
  | main => exact absurd rfl other

theorem runner_ended (h : (machine c).Reach ok s) :
    s.shared.flag (.ended .runner) = RunnerPc.gone (s.pc .runner) := by
  refine tracked (t := .runner) rfl (Runner.code_gone c) ?_ h
  intro s run u other
  cases u with
  | worker v => exact Worker.code_leaves c (by simp) (by simp) _
  | runner => exact absurd rfl other
  | main => exact Main.code_leaves_ended _ _

theorem all_left (h : (machine c).Reach ok s) (down : MainPc.down (s.pc .main) = true)
    (w : Fin N) : s.pc (.worker w) = .left :=
  Worker.left_of_gone (joined_gone h w (MainPc.joined_of_down down w))

/-! ## What `ShutDown` leaves behind -/

theorem idle_of_down (h : (machine c).Reach ok s) (down : MainPc.down (s.pc .main) = true)
    (t : Thread N) : calls s t = .idle := by
  cases t with
  | worker w =>
    change WorkerPc.call (s.pc (.worker w)) = .idle
    rw [all_left h down w]
    rfl
  | runner | main => rfl

/-- While nobody executes anything, the decrements still to come are those of the jobs
that were never started. -/
theorem pending_of_idle (h : (machine c).Reach ok s) (idle : ∀ t, calls s t = .idle) (job : Fin n) :
    pending s.shared.jobs.log job =
      ∑ i with .started i ∉ s.shared.jobs.log, (c.graph.dependants i).count job := by
  have history := (Execution.reachable_inv (executes h)).history
  have released (e : c.graph.Entry) :
      .released e ∉ s.shared.jobs.log ↔ .started e.1 ∉ s.shared.jobs.log := by
    refine not_congr ⟨fun here => history.started (history.ended (history.subtracted here)), ?_⟩
    intro started
    apply released_of_subtracted h idle
    have positive := List.count_pos_iff.mpr started
    rw [started_iff_subtracted h idle] at positive
    exact List.count_pos_iff.mp positive
  have nodup := (List.nodup_finRange n).filter fun i => decide (.started i ∉ s.shared.jobs.log)
  have entries := c.graph.card_entries_from job nodup
  rw [← List.sum_toFinset _ nodup] at entries
  simp only [List.mem_filter, List.mem_finRange, true_and, decide_eq_true_eq] at entries
  simp only [pending, released, entries]
  apply Finset.sum_congr _ fun _ _ => rfl
  ext i
  simp

/-- `ShutDown` stops between jobs: a job was executed once, to the end of its `Finish` and
after all of its prerequisites, or it was never started, and the counters tell which. -/
theorem stops_between_jobs (h : (machine c).Reach ok s)
    (down : MainPc.down (s.pc .main) = true) (job : Fin n) :
    (.started job ∈ s.shared.jobs.log → s.shared.jobs.log.count (.finished job) = 1 ∧
      s.shared.jobs.unfinished job = 0 ∧
      ∀ i, Relation.TransGen c.graph.Prerequisite i job → .finished i ∈ s.shared.jobs.log) ∧
    (.started job ∉ s.shared.jobs.log → s.shared.jobs.unfinished job =
      1 + ∑ i with .started i ∉ s.shared.jobs.log, (c.graph.dependants i).count job) := by
  have idle := idle_of_down h down
  have inv := Execution.reachable_inv (executes h)
  have counter := inv.counter job
  dsimp only at counter
  rw [← started_iff_subtracted h idle] at counter
  constructor
  · intro started
    have once : s.shared.jobs.log.count (.started job) = 1 :=
      le_antisymm (started_le h job) (List.count_pos_iff.mpr started)
    have clear : pending s.shared.jobs.log job = 0 :=
      inv.history.cleared (inv.history.observed started)
    refine ⟨(started_iff_finished h idle job).symm.trans once, ?_, fun i before => ?_⟩
    · omega
    · have ended := inv.history.prerequisites_ended before started
      have positive : 0 < s.shared.jobs.log.count (.started i) :=
        List.count_pos_iff.mpr (inv.history.started ended)
      rw [started_iff_finished h idle] at positive
      exact List.count_pos_iff.mp positive
  · intro never
    rw [counter, pending_of_idle h idle, List.count_eq_zero.mpr never]
    simp

/-- The prerequisite was executed before the key, its dependant is left in its deque. -/
theorem stops_between_jobs_pair : ∃ s, (machine pairConfig).Reachable s ∧
    MainPc.down (s.pc .main) = true ∧ s.shared.jobs.unfinished 1 = 0 ∧
    s.shared.jobs.unfinished 0 = 1 + ∑ i with .started i ∉ s.shared.jobs.log,
      (pairConfig.graph.dependants i).count 0 := by
  have run : ((machine pairConfig).run
      (steps 3 .main ++ steps 11 .runner ++ steps 13 (.worker 1) ++ steps 8 .main ++
        steps 2 (.worker 0) ++ steps 7 .main ++ steps 2 (.worker 1) ++ steps 2 .main)
      (machine pairConfig).start).map (fun s => (MainPc.down (s.pc .main),
        decide (.started 1 ∈ s.shared.jobs.log ∧ .started 0 ∉ s.shared.jobs.log))) =
      some (true, true) := by
    decide +kernel
  obtain ⟨s, hs, same⟩ := Option.map_eq_some_iff.mp run
  rw [Prod.mk.injEq, decide_eq_true_eq] at same
  obtain ⟨down, started, never⟩ := same
  have reach := Machine.exec_start _ hs
  exact ⟨s, reach, down, ((stops_between_jobs reach down 1).1 started).2.1,
    (stops_between_jobs reach down 0).2 never⟩

/-- Only the runner moves, and `main` when it has ended. -/
theorem joining_step (h : (machine c).Reach ok s) (down : MainPc.down (s.pc .main) = true)
    {a : Action N} (move : (machine c).step a s = some t) :
    (∃ pc shared, (Runner.code c (s.pc .runner)).exec .runner a.2 s.shared = some (pc, shared) ∧
      t = s.move .runner pc shared) ∨
    (RunnerPc.gone (s.pc .runner) = true ∧ s.pc .main = .joinRunner ∧
      t = s.move .main .left s.shared) := by
  obtain ⟨pc, shared, took, rfl⟩ := step_cases move
  obtain ⟨v, random⟩ := a
  cases v with
  | worker w =>
    rw [code, all_left h down w] at took
    cases took
  | runner => exact .inl ⟨pc, shared, took, rfl⟩
  | main =>
    cases here : s.pc .main with
    | joinRunner =>
      rw [code, here] at took
      obtain ⟨ended, rfl, rfl⟩ := Instr.exec_await took
      exact .inr ⟨(runner_ended h).symm.trans ended, rfl, rfl⟩
    | left =>
      rw [code, here] at took
      cases took
    | _ =>
      rw [here] at down
      cases down

/-- As long as the runner has not ended it can go on. -/
theorem joining_moves (h : (machine c).Reachable s) (joining : s.pc .main = .joinRunner) :
    ∃ a t, (machine c).step a s = some t := by
  have down : MainPc.down (s.pc .main) = true := by
    rw [joining]
    rfl
  by_cases gone : RunnerPc.gone (s.pc .runner) = true
  · have ended := (runner_ended h).trans gone
    have took : ∃ r, (code c .main (s.pc .main)).exec .main 0 s.shared = some r := by
      rw [joining]
      exact ⟨_, if_pos ended⟩
    obtain ⟨t, move⟩ := step_of_exec took
    exact ⟨_, t, move⟩
  · have created : s.shared.flag .created = true := by
      rw [created_eq h, joining]
      rfl
    rcases runner_moves h created (fun later here => gone (by rw [here]; rfl)) with
      ⟨t, move⟩ | ⟨i, u, other, owner, _⟩
    · exact ⟨_, t, move⟩
    · have held := own_locks h owner
      cases u with
      | worker w =>
        rw [all_left h down w] at held
        cases held
      | runner => exact absurd rfl other
      | main =>
        rw [joining] at held
        cases held

/-- The steps `main` and the runner have still to take. -/
def joinsIn (s : State c) : Nat :=
  RunnerPc.ending (s.pc .runner) + if s.pc .main = .joinRunner then 1 else 0

/-- When `ShutDown` has returned, the runner is all that is left to join. If it has no
job to add, and its scan no job in the way, `main` returns after a bounded number of
steps, which nothing keeps from being taken. Otherwise `main` never returns. -/
theorem join_returns (h : (machine c).Reachable s) (joining : s.pc .main = .joinRunner) :
    (Runner.Ends s.shared (s.pc .runner) →
      ∀ actions t, (machine c).run actions s = some t → actions.length ≤ joinsIn s ∧
        (t.pc .main = .left ∨ ∃ a u, (machine c).step a t = some u)) ∧
    (¬ Runner.Ends s.shared (s.pc .runner) →
      ∀ t, ((machine c).after s).Reachable t → t.pc .main = .joinRunner) := by
  constructor
  · intro ends actions t run
    have step (s t : State c) (a : Action N)
        (inside : (machine c).Reachable s ∧ MainPc.down (s.pc .main) = true ∧
          Runner.Ends s.shared (s.pc .runner)) (move : (machine c).step a s = some t) :
        ((machine c).Reachable t ∧ MainPc.down (t.pc .main) = true ∧
          Runner.Ends t.shared (t.pc .runner)) ∧ joinsIn t < joinsIn s := by
      obtain ⟨h, down, ends⟩ := inside
      have reached := h.next trivial move
      have quit : s.shared.flag .isRunning = false := by
        rw [isRunning_main h]
        generalize s.pc .main = pc at down
        cases pc with
        | joinRunner | left => rfl
        | _ => cases down
      have lowered (w : Fin N) : s.shared.flag (.mJobRunning w) = false := by
        by_contra up
        have raised := raised_of_flag h w ((Bool.not_eq_false _).mp up)
        rw [all_left h down w] at raised
        cases raised
      rcases joining_step h down move with ⟨pc, shared, took, rfl⟩ | ⟨gone, here, rfl⟩
      · have other : Thread.main (N := N) ≠ .runner := by simp
        obtain ⟨ends, less⟩ := Runner.step_ends c quit lowered ends took
        refine ⟨⟨reached, ?_, ?_⟩, ?_⟩
        · rwa [s.move_other _ _ other]
        · rwa [s.move_self]
        · simp only [joinsIn, s.move_self, s.move_other _ _ other]
          omega
      · have other : Thread.runner (N := N) ≠ .main := by simp
        refine ⟨⟨reached, ?_, ?_⟩, ?_⟩
        · rw [s.move_self]
          rfl
        · rwa [s.move_other _ _ other]
        · simp [joinsIn, s.move_other _ _ other, here]
    have down : MainPc.down (s.pc .main) = true := by
      rw [joining]
      rfl
    obtain ⟨⟨reached, down, _⟩, bound⟩ := Machine.length_le step ⟨h, down, ends⟩ run
    refine ⟨by omega, ?_⟩
    cases here : t.pc .main with
    | joinRunner => exact .inr (joining_moves reached here)
    | left => exact .inl rfl
    | _ =>
      rw [here] at down
      cases down
  · intro spins t rest
    have inside : t.pc .main = .joinRunner ∧ ¬ Runner.Ends t.shared (t.pc .runner) := by
      refine rest.invariant (I := fun t => t.pc .main = .joinRunner ∧
        ¬ Runner.Ends t.shared (t.pc .runner)) ⟨joining, spins⟩ ?_
      rintro t u a way ⟨here, spins⟩ _ move
      have down : MainPc.down (t.pc .main) = true := by
        rw [here]
        rfl
      rcases joining_step (h.trans way) down move with ⟨pc, shared, took, rfl⟩ | ⟨gone, _, _⟩
      · have other : Thread.main (N := N) ≠ .runner := by simp
        rw [t.move_self, t.move_other _ _ other]
        exact ⟨here, fun ends => spins (Runner.step_spins c took ends)⟩
      · refine absurd (fun updating => ?_) spins
        generalize t.pc .runner = pc at gone updating
        cases pc with
        | left later => cases updating
        | _ => cases gone
    exact inside.1

/-- The runner adds its only job before `ShutDown` clears the deque. -/
def clearRun (w : Fin 1) : List (Action 1) :=
  steps 2 .main ++ steps 7 .runner ++ steps 8 .main ++ steps 2 (.worker w) ++ steps 2 .main

/-- It has come to its scan in either run. In the one it is on its last steps, in the
other it will scan for ever. -/
theorem join_returns_solo :
    (∃ s, (machine soloConfig).Reachable s ∧ s.pc .runner = .scanSize 0 ⟨0, []⟩ ∧
      ∀ actions t, (machine soloConfig).run actions s = some t → actions.length ≤ 7 ∧
        (t.pc .main = .left ∨ ∃ a u, (machine soloConfig).step a t = some u)) ∧
    ∃ s, (machine soloConfig).Reachable s ∧ s.pc .runner = .scanSize 0 ⟨0, []⟩ ∧
      ∀ t, ((machine soloConfig).after s).Reachable t → t.pc .main = .joinRunner := by
  have clear : ((machine soloConfig).run (clearRun 0) (machine soloConfig).start).map
      (fun s => (s.pc .main, s.pc .runner, (s.shared.mJobDeque 0).mJobDeque, joinsIn s)) =
      some (.joinRunner, .scanSize 0 ⟨0, []⟩, [], 7) := by
    decide +kernel
  have refill : ((machine soloConfig).run refillRun (machine soloConfig).start).map
      (fun s => (s.pc .main, s.pc .runner, (s.shared.mJobDeque 0).mJobDeque)) =
      some (.joinRunner, .scanSize 0 ⟨0, []⟩, [0]) := by
    decide +kernel
  constructor
  · obtain ⟨s, hs, same⟩ := Option.map_eq_some_iff.mp clear
    simp only [Prod.mk.injEq] at same
    obtain ⟨joining, scans, empty, bound⟩ := same
    have reach := Machine.exec_start _ hs
    have ends : Runner.Ends s.shared (s.pc .runner) := by
      rw [scans]
      exact fun _ => ⟨rfl, fun w _ => by rw [Subsingleton.elim w 0, empty]⟩
    exact ⟨s, reach, scans, bound ▸ (join_returns reach joining).1 ends⟩
  · obtain ⟨s, hs, same⟩ := Option.map_eq_some_iff.mp refill
    simp only [Prod.mk.injEq] at same
    obtain ⟨joining, scans, filled⟩ := same
    have reach := Machine.exec_start _ hs
    have spins : ¬ Runner.Ends s.shared (s.pc .runner) := by
      rw [scans]
      intro ends
      have empty := (ends rfl).2 0 rfl
      rw [filled] at empty
      cases empty
    exact ⟨s, reach, scans, (join_returns reach joining).2 spins⟩

end System
end JobStealer
