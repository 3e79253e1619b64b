import JobStealer.Fairness
import JobStealer.Livelock

/-!
# When the workers come to an end

With `HTL_WAIT_FOR_AVAILABLE_JOBS` the steps of the workers come to an end, for they are
paid for (`waiting_end`), as long as nobody shuts down and spurious wake-ups come to an
end. So do those of the runner that are not a scan (`all_end`).

Once they have, under any schedule that lets every thread go on that can, nobody but a
scanning runner can go on at all, so every worker is blocked, with no job left over which
it would sleep. Then the scan ends, and all jobs of all frames are finished
(`finished_of_still`).
-/

namespace JobStealer
open Interleaving

variable {n N : Nat}

namespace RunnerPc

def scanning : RunnerPc n N → Bool
  | scanSize _ _ | scanFlag _ _ => true
  | _ => false

/-- The steps of the frames still to begin, but for the scans. -/
def behind (frames : List (List (Fin n))) : Nat :=
  (frames.map fun frame => 4 * frame.length + 6).sum

/-- The steps of the runner still to come, but for the scans. -/
def todo : RunnerPc n N → Nat
  | begin later => behind later.frames + 3
  | whileRunning later => behind later.frames + 2
  | addJob jobs later => behind later.frames + 4 * jobs.length + 7
  | addLock _ jobs later => behind later.frames + 4 * jobs.length + 10
  | addNotify _ jobs later => behind later.frames + 4 * jobs.length + 9
  | addUnlock _ jobs later => behind later.frames + 4 * jobs.length + 8
  | scanSize _ later | scanFlag _ later => behind later.frames + 6
  | deleteJobs later => behind later.frames + 5
  | leave _ => 1
  | left _ => 0

/-- The steps of a scan that finds nothing. -/
def scanLeft : RunnerPc n N → Nat
  | scanSize i _ => 2 * (N - i) + 1
  | scanFlag i _ => 2 * (N - i)
  | _ => 0

end RunnerPc

section Code
variable (c : Config n N) {g : Graph n} {s s' : Shared g N}
variable {pc pc' : RunnerPc n N} {t : Thread N} {random : Nat}

/-- Every step of the runner is one less to come, unless it goes on scanning. -/
theorem Runner.step_todo (took : (Runner.code c pc).exec t random s = some (pc', s')) :
    pc'.todo < pc.todo ∨
      pc'.todo = pc.todo ∧ pc.scanning = true ∧ pc'.scanning = true ∧ s' = s := by
  cases pc with
  | begin later =>
    obtain ⟨_, rfl, _⟩ := Instr.exec_await took
    exact .inl (Nat.lt_succ_self _)
  | whileRunning later =>
    cases took
    obtain ⟨i, frames⟩ := later
    left
    dsimp only
    split
    · cases frames <;>
        simp only [Runner.nextFrame, RunnerPc.todo, RunnerPc.behind, List.map_cons,
          List.sum_cons] <;>
        omega
    · simp only [RunnerPc.todo]
      omega
  | addJob jobs later =>
    left
    cases jobs with
    | nil =>
      cases took
      simp only [RunnerPc.todo]
      omega
    | cons job jobs =>
      simp only [Runner.code, Runner.push] at took
      split at took <;>
      · cases took
        simp only [RunnerPc.todo, List.length_cons]
        omega
  | addLock i jobs later =>
    obtain ⟨_, rfl, _⟩ := Instr.exec_lock took
    exact .inl (Nat.lt_succ_self _)
  | scanSize i later =>
    simp only [Runner.code] at took
    split at took <;> cases took
    · right
      dsimp only
      split <;> exact ⟨rfl, rfl, rfl, rfl⟩
    · exact .inl (Nat.lt_succ_self _)
  | scanFlag i later =>
    cases took
    right
    dsimp only
    split <;> exact ⟨rfl, rfl, rfl, rfl⟩
  | deleteJobs later =>
    cases took
    simp only [RunnerPc.todo]
    omega
  | left later => cases took
  | addNotify i jobs later | addUnlock i jobs later | leave later =>
    cases took
    exact .inl (Nat.lt_succ_self _)

/-- A scan that finds the worker idle goes on to the next one. -/
theorem Runner.step_scanLeft (empty : ∀ w, (s.mJobDeque w).mJobDeque = [])
    (down : ∀ w, s.flag (.mJobRunning w) = false) (scans : pc.scanning = true)
    (took : (Runner.code c pc).exec t random s = some (pc', s')) : pc'.scanLeft < pc.scanLeft := by
  cases pc with
  | scanSize i later =>
    simp only [Runner.code] at took
    split at took
    · cases took
      have none : (s.mJobDeque ⟨i, by assumption⟩).size = 0 := by
        rw [LockingDeque.size_eq, empty]
        rfl
      simp [none, RunnerPc.scanLeft]
    · cases took
      exact Nat.succ_pos _
  | scanFlag i later =>
    have := i.isLt
    cases took
    dsimp only
    rw [down i]
    simp only [Bool.false_eq_true, if_false, RunnerPc.scanLeft]
    omega
  | _ => cases scans

end Code

namespace System
variable {c : Config n N} {s t : State c} {v : Thread N} {w : Fin N}

/-- What fairness may ask for: neither a key nor a spurious wake-up. -/
def able (s : State c) (a : Action N) : Prop := noShutDown s a ∧ prompted s a

/-- A step of thread `v`. -/
def stepOf (v : Thread N) (a : Action N) : Prop := a.1 = v

theorem able_same (pc : t.pc v = s.pc v) (shared : t.shared = s.shared)
    (h : (machine c).Able able (stepOf v) s) : (machine c).Able able (stepOf v) t := by
  obtain ⟨⟨u, random⟩, s', rfl, ⟨serves, prompted⟩, move⟩ := h
  obtain ⟨next, after, took, rfl⟩ := step_cases move
  refine ⟨(u, random), t.move u next after, rfl, ⟨?_, ?_⟩, step_eq ?_⟩
  · rintro rfl
    rw [pc]
    exact serves rfl
  · rintro w rfl ⟨here, asleep⟩
    exact prompted w rfl ⟨pc.symm.trans here, by rwa [shared] at asleep⟩
  · rwa [pc, shared]

theorem able_of_moves (serves : noShutDown s (v, 0)) (heard : prompted s (v, 0))
    (moves : ∃ t, (machine c).step (v, 0) s = some t) : (machine c).Able able (stepOf v) s := by
  obtain ⟨t, move⟩ := moves
  exact ⟨(v, 0), t, rfl, ⟨serves, heard⟩, move⟩

/-! ## What comes to an end -/

variable {x : (machine c).Course noShutDown}

/-- Spurious wake-ups come to an end. -/
def Prompted (x : (machine c).Course noShutDown) (k : Nat) : Prop :=
  ∀ u a, k ≤ u → x.action u = some a → prompted (x.state u) a

/-- With `HTL_WAIT_FOR_AVAILABLE_JOBS` the workers move for the last time. -/
theorem waiting_end (waits : c.waitForAvailableJobs = true) {k : Nat} (heard : Prompted x k) :
    ∃ m, k ≤ m ∧ ∀ u a, m ≤ u → x.action u = some a → ∀ w, a.1 ≠ .worker w := by
  have spent (u : Nat) (later : k ≤ u) {a : Action N} (taken : x.action u = some a) :
      takesStep (x.state u) a + funds (x.state (u + 1)) ≤ funds (x.state u) := by
    have paid := step_funds waits (x.reach u) (x.moves taken).2
    have unprompted : wakesUp (x.state u) a = 0 := by
      obtain ⟨v, random⟩ := a
      cases v with
      | worker w => exact if_neg (heard u _ later taken w rfl)
      | runner | main => rfl
    omega
  obtain ⟨m, after, ended⟩ := x.ends funds (fun _ a => ∃ w, a.1 = .worker w) (k := k)
    (fun u a later taken => Nat.le_of_add_left_le (spent u later taken))
    (fun u a later taken mine => by
      have paid := spent u later taken
      obtain ⟨⟨v, random⟩, w, worker⟩ := a, mine
      subst worker
      simp only [takesStep] at paid
      omega)
  exact ⟨m, after, fun u a later taken w mine => ended u a later taken ⟨w, mine⟩⟩

/-- From `s` on only a scanning runner has moved. -/
structure Spins (s t : State c) : Prop where
  shared : t.shared = s.shared
  others : ∀ v, v ≠ .runner → t.pc v = s.pc v
  runner : t.pc .runner = s.pc .runner ∨
    RunnerPc.scanning (s.pc .runner) = true ∧ RunnerPc.scanning (t.pc .runner) = true

/-- The steps of the runner and of `main` still to come, but for the scans. -/
def ahead (s : State c) : Nat := MainPc.restless (s.pc .main) + RunnerPc.todo (s.pc .runner)

theorem step_ahead (h : (machine c).Reach noShutDown s) {a : Action N} (serves : noShutDown s a)
    (move : (machine c).step a s = some t) (other : ∀ w, a.1 ≠ .worker w) :
    ahead t < ahead s ∨ ahead t = ahead s ∧ a.1 = .runner ∧
      RunnerPc.scanning (s.pc .runner) = true ∧ Spins s t := by
  have serving := serving_of_noShutDown h
  obtain ⟨pc, shared, took, rfl⟩ := step_cases move
  obtain ⟨v, random⟩ := a
  cases v with
  | worker w => exact absurd rfl (other w)
  | main =>
    left
    have busy : 0 < MainPc.restless (s.pc .main) := by
      have open_ := serves rfl
      generalize s.pc .main = pc at serving open_
      cases pc with
      | construct i => exact Nat.succ_pos _
      | waitForKey => exact absurd rfl open_
      | _ => cases serving
    have less := Main.step_restless busy took
    simp only [ahead, s.move_self, s.move_other pc shared (show Thread.runner ≠ .main by simp)]
    omega
  | runner =>
    simp only [ahead, s.move_self, s.move_other pc shared (show Thread.main ≠ .runner by simp)]
    rcases Runner.step_todo c took with less | ⟨same, before, after, rfl⟩
    · exact .inl (Nat.add_lt_add_left less _)
    · refine .inr ⟨congrArg _ same, trivial, before, rfl, fun v other => s.move_other pc _ other,
        .inr ?_⟩
      rw [s.move_self]
      exact ⟨before, after⟩

theorem Spins.trans {u : State c} (first : Spins s t) (rest : Spins t u) : Spins s u where
  shared := rest.shared.trans first.shared
  others v other := (rest.others v other).trans (first.others v other)
  runner := by
    rcases first.runner with same | ⟨before, after⟩ <;>
      rcases rest.runner with again | ⟨from_, to_⟩
    · exact .inl (again.trans same)
    · exact .inr ⟨by rwa [← same], to_⟩
    · exact .inr ⟨before, by rwa [again]⟩
    · exact .inr ⟨before, to_⟩

/-- When the workers have stopped, nobody moves in the end but a scanning runner. -/
theorem all_end {k : Nat}
    (still : ∀ u a, k ≤ u → x.action u = some a → ∀ w, a.1 ≠ .worker w) :
    ∃ m, k ≤ m ∧ (∀ u, m ≤ u → Spins (x.state m) (x.state u)) ∧
      ∀ u a, m ≤ u → x.action u = some a →
        a.1 = .runner ∧ RunnerPc.scanning ((x.state u).pc .runner) = true := by
  have step (u : Nat) (later : k ≤ u) {a : Action N} (taken : x.action u = some a) :=
    step_ahead (x.reach u) (x.moves taken).1 (x.moves taken).2 (still u a later taken)
  have falls (u : Nat) (later : k ≤ u) : ahead (x.state (u + 1)) ≤ ahead (x.state u) := by
    cases taken : x.action u with
    | none => rw [x.rests taken]
    | some a =>
      rcases step u later taken with less | ⟨same, _⟩
      · exact less.le
      · exact same.le
  obtain ⟨m, after, same⟩ := x.constant ahead falls
  have spins (u : Nat) (later : m ≤ u) {a : Action N} (taken : x.action u = some a) :
      a.1 = .runner ∧ RunnerPc.scanning ((x.state u).pc .runner) = true ∧
        Spins (x.state u) (x.state (u + 1)) := by
    rcases step u (after.trans later) taken with less | ⟨_, runner⟩
    · have now := same u later
      have next := same (u + 1) (Nat.le_succ_of_le later)
      omega
    · exact runner
  refine ⟨m, after, ?_, fun u a later taken => ?_⟩
  · refine Machine.Course.always (P := Spins (x.state m)) ⟨rfl, fun _ _ => rfl, .inl rfl⟩ ?_
    intro u later ih
    cases taken : x.action u with
    | none => rwa [x.rests taken]
    | some a => exact ih.trans (spins u later taken).2.2
  · obtain ⟨runner, scans, _⟩ := spins u later taken
    exact ⟨runner, scans⟩

/-- Then everybody else is stuck. -/
theorem all_stuck (fair : x.Fair able stepOf) {m : Nat}
    (spins : ∀ u, m ≤ u → Spins (x.state m) (x.state u))
    (taken : ∀ u a, m ≤ u → x.action u = some a →
      a.1 = .runner ∧ RunnerPc.scanning ((x.state u).pc .runner) = true)
    (other : v ≠ .runner ∨ RunnerPc.scanning ((x.state m).pc .runner) = false) :
    ¬ (machine c).Able able (stepOf v) (x.state m) := by
  intro ready
  have same (u : Nat) (later : m ≤ u) : (x.state u).pc v = (x.state m).pc v := by
    by_cases own : v = .runner
    · subst own
      refine (spins u later).runner.resolve_right fun both => ?_
      have rests := other.resolve_left (by simp)
      exact absurd (rests.symm.trans both.1) (by simp)
    · exact (spins u later).others v own
  obtain ⟨u, a, later, took, own⟩ := fair v m fun u later =>
    able_same (same u later) (spins u later).shared ready
  obtain ⟨runner, scans⟩ := taken u a later took
  obtain rfl : .runner = v := runner.symm.trans own
  rw [same u later] at scans
  exact absurd ((other.resolve_left (by simp)).symm.trans scans) (by simp)

/-! ## Where it ends -/

/-- With every worker blocked, and nothing on its way to them, no job is left. -/
theorem finished_of_blocked (h : (machine c).Reach noShutDown s) (blocked : ∀ w, Blocked s w)
    (returned : RunnerPc.adding (s.pc .runner) = false) {job : Fin n} (here : added s job) :
    .finished job ∈ s.shared.jobs.log := by
  by_contra left
  have idle (t : Thread N) : calls s t = .idle := by
    cases t with
    | worker w => simp [calls, callOf, (blocked w).1, WorkerPc.call]
    | runner | main => rfl
  have free (w : Fin N) : WorkerPc.hand (s.pc (.worker w)) = [] := by
    rw [(blocked w).1]
    rfl
  obtain ⟨w, has⟩ := has_executable h idle free returned here left
  have dozes := WorkerPc.dozing_of_blocking (blocked w).blocking
  have owed : RunnerPc.owes w (s.pc .runner) = true := by
    cases waits : c.waitForAvailableJobs with
    | true =>
      obtain ⟨t, owed⟩ := watched waits h w dozes has
      cases t with
      | worker v =>
        rw [(blocked v).1] at owed
        cases owed
      | runner => exact owed
      | main => cases owed
    | false =>
      refine filled waits h w dozes fun empty => ?_
      rw [empty] at has
      cases has
  generalize s.pc .runner = pc at owed returned
  cases pc with
  | addLock i jobs later | addNotify i jobs later => cases returned
  | _ => cases owed

/-- Nobody but a scanning runner can go on. -/
def Stuck (s : State c) : Prop :=
  ∀ v, v ≠ .runner ∨ RunnerPc.scanning (s.pc .runner) = false →
    ¬ (machine c).Able able (stepOf v) s

/-- Whoever could go on waits for somebody who can. -/
theorem Stuck.moves (stuck : Stuck s) (h : (machine c).Reach noShutDown s) (ready : able s (v, 0))
    (other : v ≠ .runner ∨ RunnerPc.scanning (s.pc .runner) = false) : ¬ Moves s v := by
  rintro (moves | ⟨i, u, _, owner, moves⟩)
  · exact stuck v other (able_of_moves ready.1 ready.2 moves)
  · have held := own_locks h owner
    have calm := calm_holder held 0
    refine stuck u ?_ (able_of_moves calm.1.1 calm.2 moves)
    by_cases runner : u = .runner
    · subst runner
      right
      change RunnerPc.locks (s.pc .runner) = some i at held
      generalize s.pc .runner = pc at held
      cases pc <;> first | rfl | cases held
    · exact .inl runner

/-- So every worker is blocked, and the runner scans or has ended. -/
theorem Stuck.resting (stuck : Stuck s) (h : (machine c).Reach noShutDown s) :
    (∀ w, Blocked s w) ∧
      (RunnerPc.scanning (s.pc .runner) = true ∨ ∃ later, s.pc .runner = .left later) := by
  have rest : MainPc.restless (s.pc .main) = 0 := by
    by_contra busy
    have open_ : s.pc .main ≠ .waitForKey := fun here => by
      rw [here] at busy
      exact busy rfl
    have calm := calm_main open_ 0
    exact stuck.moves h (v := .main) ⟨calm.1.1, calm.2⟩ (.inl (by simp))
      (busy_moves h (v := .main) (Nat.pos_of_ne_zero busy) (.inr rfl))
  constructor
  · intro w
    by_contra awake
    refine stuck.moves h (v := .worker w) ⟨fun main => (by cases main), ?_⟩ (.inl (by simp))
      (worker_moves h w (not_left h w).2)
    rintro v same
    cases same
    exact awake
  · by_cases scans : RunnerPc.scanning (s.pc .runner) = true
    · exact .inl scans
    · right
      by_contra left
      have busy : 0 < RunnerPc.restless (s.pc .runner) := by
        generalize s.pc .runner = pc at scans left
        cases pc with
        | scanSize i later | scanFlag i later => exact absurd rfl scans
        | left later => exact absurd ⟨later, rfl⟩ left
        | _ => exact Nat.succ_pos _
      have calm := calm_runner s 0
      exact stuck.moves h (v := .runner) ⟨calm.1.1, calm.2⟩ (.inr ((Bool.not_eq_true _).mp scans))
        (busy_moves h (v := .runner) busy (.inl rest))

/-- A runner that scans for ever would come to the end of its scan. -/
theorem scan_ends (fair : x.Fair able stepOf) {m : Nat}
    (spins : ∀ u, m ≤ u → Spins (x.state m) (x.state u))
    (taken : ∀ u a, m ≤ u → x.action u = some a →
      a.1 = .runner ∧ RunnerPc.scanning ((x.state u).pc .runner) = true)
    (empty : ∀ w, ((x.state m).shared.mJobDeque w).mJobDeque = [])
    (down : ∀ w, (x.state m).shared.flag (.mJobRunning w) = false) :
    RunnerPc.scanning ((x.state m).pc .runner) = false := by
  by_contra scans
  have scans (u : Nat) (later : m ≤ u) : RunnerPc.scanning ((x.state u).pc .runner) = true := by
    rcases (spins u later).runner with same | ⟨_, still⟩
    · rw [same]
      exact (Bool.not_eq_false _).mp scans
    · exact still
  have less (u : Nat) (later : m ≤ u) {a : Action N} (took : x.action u = some a) :
      RunnerPc.scanLeft ((x.state (u + 1)).pc .runner) <
        RunnerPc.scanLeft ((x.state u).pc .runner) := by
    obtain ⟨runner, _⟩ := taken u a later took
    obtain ⟨v, random⟩ := a
    obtain rfl : v = .runner := runner
    have shared := (spins u later).shared
    obtain ⟨pc, next, took, eq⟩ := step_cases (x.moves took).2
    rw [eq, Threads.State.move_self]
    exact Runner.step_scanLeft c (by rwa [shared]) (by rwa [shared]) (scans u later) took
  obtain ⟨m', after, rests⟩ := x.ends (fun s => RunnerPc.scanLeft (s.pc .runner)) (fun _ _ => True)
    (k := m)
    (fun u a later took => (less u later took).le) (fun u a later took _ => less u later took)
  have ready (u : Nat) (later : m' ≤ u) : (machine c).Able able (stepOf .runner) (x.state u) := by
    have calm := calm_runner (x.state u) 0
    have scans := scans u (after.trans later)
    refine able_of_moves calm.1.1 calm.2 (step_of_exec ?_)
    change ∃ r, (Runner.code c ((x.state u).pc .runner)).exec .runner 0 (x.state u).shared = some r
    generalize (x.state u).pc .runner = pc at scans
    cases pc with
    | scanSize i later =>
      simp only [Runner.code]
      split <;> exact ⟨_, rfl⟩
    | scanFlag i later => exact ⟨_, rfl⟩
    | _ => cases scans
  obtain ⟨u, a, later, took, _⟩ := fair .runner m' ready
  exact rests u a later took trivial

/-- A job that waits for a worker was added, and is not finished. -/
theorem left_of_queue (h : (machine c).Reach noShutDown s) {job : Fin n}
    (inside : job ∈ queue s w) : added s job ∧ .finished job ∉ s.shared.jobs.log := by
  have total := conserved_le h job
  have once := List.nodup_iff_count_le_one.mp c.once job
  have here := List.count_pos_iff.mpr inside
  have parts : (queue s w).count job ≤ (s.shared.mJobDeque w).mJobDeque.count job +
      (WorkerPc.hand (s.pc (.worker w))).count job := by
    rw [queue]
    generalize s.pc (.worker w) = pc
    cases pc <;> simp [WorkerPc.queue, WorkerPc.hand, List.count_cons]
  have deque := Finset.single_le_sum (f := fun i => (s.shared.mJobDeque i).mJobDeque.count job)
    (fun _ _ => Nat.zero_le _) (Finset.mem_univ w)
  have hand := Finset.single_le_sum (f := fun i => (WorkerPc.hand (s.pc (.worker i))).count job)
    (fun _ _ => Nat.zero_le _) (Finset.mem_univ w)
  rw [Shared.copies, sum_heldBy] at total
  refine ⟨⟨?_, ?_⟩, ?_⟩
  · apply List.count_pos_iff.mp
    omega
  · apply List.count_eq_zero.mp
    omega
  · apply List.count_eq_zero.mp
    omega

/-- If the workers stop, every job of every frame is finished then. -/
theorem finished_of_still (fair : x.Fair able stepOf) {k : Nat}
    (still : ∀ u a, k ≤ u → x.action u = some a → ∀ w, a.1 ≠ .worker w) :
    ∃ k, (∃ later, (x.state k).pc .runner = .left later) ∧
      ∀ job ∈ c.frames.flatten, .finished job ∈ (x.state k).shared.jobs.log := by
  obtain ⟨m, _, spins, taken⟩ := all_end still
  have h := x.reach m
  have stuck : Stuck (x.state m) := fun v other => all_stuck fair spins taken other
  obtain ⟨blocked, runner⟩ := stuck.resting h
  have returned : RunnerPc.adding ((x.state m).pc .runner) = false := by
    generalize (x.state m).pc .runner = pc at runner
    cases pc <;> simp_all [RunnerPc.scanning, RunnerPc.adding]
  have finished {job : Fin n} (here : added (x.state m) job) :=
    finished_of_blocked h blocked returned here
  have still := scan_ends fair spins taken
    (fun w => List.eq_nil_iff_forall_not_mem.mpr fun job inside => by
      have waiting : job ∈ queue (x.state m) w := by rwa [queue, (blocked w).1]
      have left := left_of_queue h waiting
      exact left.2 (finished left.1))
    (fun w => by rw [raised_eq h w, (blocked w).1]; rfl)
  obtain ⟨later, gone⟩ := runner.resolve_left (by simp [still])
  refine ⟨m, ⟨later, gone⟩, fun job inside => finished ⟨inside, ?_⟩⟩
  rw [gone, RunnerPc.toAdd, no_frames_of_left h gone]
  exact List.not_mem_nil

end System
end JobStealer
