import JobStealer.Searches

/-!
# No livelock

With `HTL_WAIT_FOR_AVAILABLE_JOBS` the workers do not go on for ever: over a whole run
their steps are bounded, but for five for each spurious wake-up (`steps_bounded`).

The search a worker begins pays for the round of its loop, with the notifications of
`WakeThreads` in it (`Config.lap`); a notification pays for what it wakes.
-/

namespace JobStealer
open Interleaving

variable {n N : Nat}

/-- What a notification that has not been heard yet will cost. -/
def Waiter.wakes : Waiter → Nat
  | notified => 5
  | _ => 0

def Shared.woken {g : Graph n} (s : Shared g N) : Nat := ∑ w, (s.mAwakeCondition w).wakes

/-- A bound on the steps of a search and of the round after it, with what they cost
those who are notified. -/
def Config.lap (c : Config n N) : Nat := c.graph.longest + 9 * N + 24

/-- A bound on the steps of the worker before it begins a search or is blocked, with
what they cost those it notifies. -/
def WorkerPc.rank (c : Config n N) : WorkerPc n N → Nat
  | left | waitBlocked => 0
  | leave | waitBlock => 1
  | waitRunning false => 2
  | waitJobs => 3
  | waitLock => 4
  | wakeUnlock i => 9 * (N - i) - 3
  | wakeNotify i => 9 * (N - i) + 3
  | wakeLock i => 9 * (N - i) + 4
  | wakeThreads i => 9 * (N - i) + 5
  | checkJobSystem => 9 * N + 6
  | checkJobs => 9 * N + 7
  | whileRunning => 9 * N + 8
  | pc => pc.remaining c + 9 * N + 6

/-- What the notification of an `AddJob` will cost. -/
def RunnerPc.rank : RunnerPc n N → Nat
  | addLock _ _ _ | addNotify _ _ _ => 5
  | _ => 0

def rankOf (c : Config n N) : (t : Thread N) → Pc n N t → Nat
  | .worker _ => WorkerPc.rank c
  | .runner => RunnerPc.rank
  | .main => fun _ => 0

section Code
variable (c : Config n N) {g : Graph n} {s s' : Shared g N} {w : Fin N}
variable {t : Thread N} {random : Nat}

theorem woken_update (s : Shared g N) (i : Fin N) (waiter : Waiter) :
    ∑ w, (Function.update s.mAwakeCondition i waiter w).wakes + (s.mAwakeCondition i).wakes =
      s.woken + waiter.wakes :=
  sum_update s.mAwakeCondition i waiter fun _ => Waiter.wakes

/-- Only a notification is to be heard by somebody. -/
theorem Instr.exec_woken {α : Type} {instr : Instr n N α} {x : α}
    (silent : ∀ i next, instr ≠ .notify i next) (move : instr.exec t random s = some (x, s')) :
    s'.woken ≤ s.woken := by
  cases instr with
  | halt => cases move
  | await f next =>
    obtain ⟨_, _, rfl⟩ := exec_await move
    exact Nat.le_refl _
  | lock k next =>
    obtain ⟨_, _, rfl⟩ := exec_lock move
    exact Nat.le_refl _
  | call c next =>
    obtain ⟨_, _, _, _, rfl⟩ := exec_call move
    exact Nat.le_refl _
  | notify i next => exact absurd rfl (silent i next)
  | wait i next | wake i next =>
    cases move
    exact Nat.le.intro (woken_update ..)
  | _ =>
    cases move
    exact Nat.le_refl _

theorem woken_notify {α : Type} {i : Fin N} {x next : α}
    (move : (Instr.notify i next : Instr n N α).exec t random s = some (x, s')) :
    s'.woken ≤ s.woken + 5 := by
  cases move
  have total := woken_update s i
    (if s.mAwakeCondition i = .asleep then .notified else s.mAwakeCondition i)
  simp only [Shared.woken] at total ⊢
  split at total <;> simp_all [Waiter.wakes]

/-- Only the end of a `wait` makes a worker awake. -/
theorem Instr.exec_awake {α : Type} {instr : Instr n N α} {x : α}
    (move : instr.exec t random s = some (x, s')) (now : s'.mAwakeCondition w = .awake) :
    s.mAwakeCondition w = .awake ∨ ∃ next, instr = .wake w next := by
  have at_ {i : Fin N} {waiter : Waiter} (other : waiter ≠ .awake ∨ s.mAwakeCondition i = .awake)
      (now : Function.update s.mAwakeCondition i waiter w = .awake) :
      s.mAwakeCondition w = .awake := by
    by_cases here : w = i
    · subst here
      rw [Function.update_self] at now
      exact other.resolve_left (not_not.mpr now)
    · rwa [Function.update_of_ne here] at now
  cases instr with
  | halt => cases move
  | await f next =>
    obtain ⟨_, _, rfl⟩ := exec_await move
    exact .inl now
  | lock k next =>
    obtain ⟨_, _, rfl⟩ := exec_lock move
    exact .inl now
  | call c next =>
    obtain ⟨_, _, _, _, rfl⟩ := exec_call move
    exact .inl now
  | wait i next =>
    cases move
    exact .inl (at_ (.inl (by simp)) now)
  | wake i next =>
    by_cases here : i = w
    · exact .inr ⟨next, by rw [here]⟩
    · cases move
      exact .inl ((Function.update_of_ne (Ne.symm here) ..).symm.trans now)
  | notify i next =>
    cases move
    refine .inl (at_ ?_ now)
    split
    · exact .inl (by simp)
    · exact or_iff_not_imp_left.mpr not_not.mp
  | _ =>
    cases move
    exact .inl now

theorem Worker.code_blocks (pc : WorkerPc n N) : pc = .waitBlock ∨
    (Worker.code c w pc).All fun next => next ≠ .waitBlocked := by
  cases pc <;> grind [Worker.code, Instr.All]

theorem Worker.code_wake {v w : Fin N} {pc next : WorkerPc n N}
    (h : Worker.code c v pc = .wake w next) : v = w := by
  cases pc <;> grind [Worker.code]

theorem Runner.code_wake {pc next : RunnerPc n N} : Runner.code c pc ≠ .wake w next := by
  cases pc with
  | addJob jobs later => cases jobs <;> grind [Runner.code, Runner.push]
  | _ => grind [Runner.code]

theorem Main.code_wake {pc next : MainPc N} : (Main.code pc : Instr n N _) ≠ .wake w next := by
  cases pc <;> grind [Main.code]

/-- Worker `w` wakes though nobody has notified it. -/
def Worker.wakesUp (w : Fin N) (s : Shared g N) (pc : WorkerPc n N) : Nat :=
  if pc = .waitBlocked ∧ s.mAwakeCondition w = .asleep then 1 else 0

theorem Worker.code_silent {pc : WorkerPc n N} (own : ∀ i, pc ≠ .wakeNotify i) (i : Fin N)
    (next : WorkerPc n N) : Worker.code c w pc ≠ .notify i next := by
  cases pc <;> grind [Worker.code]

theorem Runner.code_silent {pc : RunnerPc n N} (own : ∀ i jobs later, pc ≠ .addNotify i jobs later)
    (i : Fin N) (next : RunnerPc n N) : Runner.code c pc ≠ .notify i next := by
  cases pc with
  | addJob jobs later => cases jobs <;> grind [Runner.code, Runner.push]
  | _ => grind [Runner.code]

theorem Main.code_silent {pc : MainPc N} (serving : pc.serving = true) (i : Fin N)
    (next : MainPc N) : (Main.code pc : Instr n N _) ≠ .notify i next := by
  cases pc <;> grind [Main.code, MainPc.serving]

/-- Worker `w` is about to find in its deque what the build lets it wait for. -/
def Worker.finds (w : Fin N) (s : Shared g N) : WorkerPc n N → Nat
  | .checkJobs | .waitJobs =>
    if c.waitForAvailableJobs then begins w s .checkJobs
    else if (s.mJobDeque w).mJobDeque = [] then 0 else 1
  | _ => 0

theorem Worker.finds_eq (waits : c.waitForAvailableJobs = true) (s : Shared g N)
    (pc : WorkerPc n N) : finds c w s pc = begins w s pc := by
  cases pc <;> simp [finds, begins, waits]

/-- Every step of a worker is paid for by the search it began or the notification that
woke it, if anybody did. -/
theorem Worker.step_rank {s s' : Shared c.graph N} {pc pc' : WorkerPc n N}
    (running : s.flag (.mRunning w) = true)
    (waiting : pc = .waitBlocked → s.mAwakeCondition w ≠ .awake)
    (took : (Worker.code c w pc).exec t random s = some (pc', s')) :
    1 + (pc'.rank c + s'.woken) ≤
      pc.rank c + s.woken + c.lap * finds c w s pc + 5 * wakesUp w s pc := by
  have has := LockingDeque.hasExecutableJobs_eq s.jobs.canExecute (s.mJobDeque w)
  have size := LockingDeque.size_eq (s.mJobDeque w)
  have quiet (own : ∀ i, pc ≠ .wakeNotify i) : s'.woken ≤ s.woken :=
    Instr.exec_woken (Worker.code_silent c own) took
  have searches (busy : 0 < pc.restless c) (inside : pc.rank c = pc.restless c + 9 * N + 6)
      (own : ∀ i, pc ≠ .wakeNotify i)
      (all : (Worker.code c w pc).All fun next => next.rank c = next.restless c + 9 * N + 6) :
      1 + (pc'.rank c + s'.woken) ≤
        pc.rank c + s.woken + c.lap * finds c w s pc + 5 * wakesUp w s pc := by
    have down := Worker.step_restless c busy took
    have still := all.exec took
    have := quiet own
    omega
  cases pc with
  | checkJobs =>
    have := quiet (by simp)
    cases waits : c.waitForAvailableJobs with
    | true =>
      simp only [Worker.code, finds, waits, if_true] at took ⊢
      cases took
      rw [has, begins]
      cases (s.mJobDeque w).mJobDeque.any s.jobs.canExecute
      · simp only [Bool.false_eq_true, if_false, WorkerPc.rank]
        omega
      · simp only [if_true, WorkerPc.rank, WorkerPc.remaining, Config.lap]
        omega
    | false =>
      simp only [Worker.code, finds, waits, Bool.false_eq_true, if_false] at took ⊢
      cases took
      rw [size]
      cases (s.mJobDeque w).mJobDeque
      · simp only [List.length_nil, if_true, WorkerPc.rank]
        omega
      · simp only [List.length_cons, Nat.succ_ne_zero, reduceCtorEq, if_false, WorkerPc.rank,
          WorkerPc.remaining, Config.lap]
        omega
  | waitJobs =>
    have := quiet (by simp)
    cases waits : c.waitForAvailableJobs with
    | true =>
      simp only [Worker.code, finds, waits, if_true] at took ⊢
      cases took
      rw [has, begins]
      cases (s.mJobDeque w).mJobDeque.any s.jobs.canExecute
      · simp only [Bool.false_eq_true, if_false, WorkerPc.rank]
        omega
      · simp only [if_true, WorkerPc.rank, WorkerPc.remaining, Config.lap]
        omega
    | false =>
      simp only [Worker.code, finds, waits, Bool.false_eq_true, if_false] at took ⊢
      cases took
      rw [size]
      cases (s.mJobDeque w).mJobDeque
      · simp only [List.length_nil, gt_iff_lt, Nat.lt_irrefl, decide_false, WorkerPc.rank]
        omega
      · simp only [List.length_cons, gt_iff_lt, Nat.zero_lt_succ, decide_true, reduceCtorEq,
          if_false, WorkerPc.rank, WorkerPc.remaining, Config.lap]
        omega
  | waitRunning available =>
    have := quiet (by simp)
    cases took
    rw [running]
    cases available
    · simp only [Bool.or_self, Bool.not_true, Bool.false_eq_true, if_false, WorkerPc.rank]
      omega
    · simp only [Bool.true_or, if_true, WorkerPc.rank, WorkerPc.remaining]
      omega
  | waitBlocked =>
    cases took
    have total := woken_update s w .awake
    have waits := waiting rfl
    simp only [Shared.woken, WorkerPc.rank, wakesUp, true_and] at total ⊢
    cases waiter : s.mAwakeCondition w with
    | awake => exact absurd waiter waits
    | asleep | notified =>
      simp [waiter, Waiter.wakes] at total ⊢
      omega
  | wakeThreads i =>
    have := quiet (by simp)
    simp only [Worker.code] at took
    split at took
    · cases took
      dsimp only
      split <;> simp only [WorkerPc.rank] <;> omega
    · cases took
      simp only [WorkerPc.rank]
      omega
  | wakeNotify i =>
    have := i.isLt
    have heard := woken_notify took
    cases took
    simp only [WorkerPc.rank]
    omega
  | wakeLock i =>
    have := quiet (by simp)
    obtain ⟨_, rfl, rfl⟩ := Instr.exec_lock took
    simp only [WorkerPc.rank]
    omega
  | wakeUnlock i =>
    have := i.isLt
    have := quiet (by simp)
    cases took
    simp only [WorkerPc.rank]
    omega
  | waitLock =>
    have := quiet (by simp)
    obtain ⟨_, rfl, rfl⟩ := Instr.exec_lock took
    simp only [WorkerPc.rank]
    omega
  | whileRunning =>
    cases took
    simp only [running, if_true, WorkerPc.rank]
    omega
  | checkJobSystem =>
    cases took
    dsimp only
    split <;> simp only [WorkerPc.rank] <;> omega
  | waitBlock | lowerFlag | leave =>
    have := quiet (by simp)
    cases took
    simp only [WorkerPc.rank, WorkerPc.remaining]
    omega
  | left => cases took
  | executing job call =>
    have busy : 0 < (WorkerPc.executing job call).restless c := by
      simp only [WorkerPc.restless, WorkerPc.remaining]
      omega
    refine searches busy rfl (by simp) ?_
    intro next
    dsimp only
    split <;> rfl
  | _ =>
    apply searches <;>
      grind [Worker.code, Instr.All, WorkerPc.rank, WorkerPc.restless, WorkerPc.remaining]

/-- An `AddJob` pays for the notification that comes with it. -/
theorem Runner.step_rank {pc pc' : RunnerPc n N}
    (took : (Runner.code c pc).exec t random s = some (pc', s')) :
    pc'.rank + s'.woken + 5 * pc'.toAdd.length ≤ pc.rank + s.woken + 5 * pc.toAdd.length := by
  have quiet (own : ∀ i jobs later, pc ≠ .addNotify i jobs later) : s'.woken ≤ s.woken :=
    Instr.exec_woken (Runner.code_silent c own) took
  cases pc with
  | addJob jobs later =>
    have := quiet (by simp)
    cases jobs with
    | nil =>
      cases took
      simp only [RunnerPc.rank, RunnerPc.toAdd, List.nil_append]
      omega
    | cons job jobs =>
      simp only [Runner.code, Runner.push] at took
      split at took <;>
      · cases took
        simp only [RunnerPc.rank, RunnerPc.toAdd, List.cons_append, List.length_cons]
        omega
  | addLock i jobs later =>
    have := quiet (by simp)
    obtain ⟨_, rfl, rfl⟩ := Instr.exec_lock took
    simp only [RunnerPc.rank, RunnerPc.toAdd]
    omega
  | addNotify i jobs later =>
    have heard := woken_notify took
    cases took
    simp only [RunnerPc.rank, RunnerPc.toAdd]
    omega
  | _ =>
    have := quiet (by simp)
    have none : pc'.rank = 0 := by
      refine Instr.All.exec (P := fun next => next.rank = 0) ?_ took
      grind [Runner.code, Runner.nextFrame, Instr.All, RunnerPc.rank]
    obtain ⟨_, ⟨_, jobs⟩ | ⟨_, job, _, _, jobs, _⟩⟩ := Runner.step_adds c took <;> rw [jobs]
    · omega
    · simp only [List.length_cons]
      omega

end Code

namespace System
variable {c : Config n N} {s t : State c}

def takesStep (_ : State c) : Action N → Nat
  | (.worker _, _) => 1
  | _ => 0

def wakesUp (s : State c) : Action N → Nat
  | (.worker w, _) => Worker.wakesUp w s.shared (s.pc (.worker w))
  | _ => 0

/-- A worker blocked in its wait has not been woken. -/
theorem not_awake (h : (machine c).Reach noShutDown s) (w : Fin N)
    (blocked : s.pc (.worker w) = .waitBlocked) : s.shared.mAwakeCondition w ≠ .awake := by
  induction h with
  | start => cases blocked
  | @next s s' a run _ move ih =>
    obtain ⟨pc, shared, took, rfl⟩ := step_cases move
    obtain ⟨v, random⟩ := a
    intro awake
    by_cases own : v = .worker w
    · subst own
      rw [s.move_self] at blocked
      rcases Worker.code_blocks c (w := w) (s.pc (.worker w)) with here | all
      · rw [code, here] at took
        cases took
        simp at awake
      · exact all.exec took blocked
    · rw [s.move_other pc shared (Ne.symm own)] at blocked
      rcases Instr.exec_awake took awake with before | ⟨next, wakes⟩
      · exact ih blocked before
      · cases v with
        | worker v => exact own (congrArg Thread.worker (Worker.code_wake c wakes))
        | runner => exact Runner.code_wake c wakes
        | main => exact Main.code_wake wakes

/-- What all steps of workers still to come are paid from. -/
def funds (s : State c) : Nat :=
  c.lap * credit s + (s.shared.woken + ∑ v, rankOf c v (s.pc v))

theorem step_funds (waits : c.waitForAvailableJobs = true) (h : (machine c).Reach noShutDown s)
    {a : Action N} (move : (machine c).step a s = some t) :
    takesStep s a + funds t ≤ funds s + 5 * wakesUp s a := by
  have paid := step_credit h move
  have added := length_toAdd_le move
  obtain ⟨pc, shared, took, rfl⟩ := step_cases move
  obtain ⟨v, random⟩ := a
  have total := sum_update s.pc v pc (rankOf c)
  simp only [funds, Threads.State.move] at paid added ⊢
  generalize credit (⟨shared, Function.update s.pc v pc⟩ : State c) = left at paid
  cases v with
  | worker w =>
    have own := Worker.step_rank c (mRunning_eq h w) (not_awake h w) took
    rw [Worker.finds_eq c waits] at own
    have same : (Function.update s.pc (.worker w) pc) .runner = s.pc .runner :=
      Function.update_of_ne (by simp) ..
    rw [same] at paid
    have spent := Nat.mul_le_mul_left c.lap (Nat.le_of_add_le_add_right paid)
    rw [Nat.mul_add] at spent
    simp only [takesStep, wakesUp, begins, rankOf] at own spent total ⊢
    omega
  | runner =>
    have own := Runner.step_rank c took
    rw [Function.update_self] at paid added
    obtain ⟨more, gone⟩ := Nat.exists_eq_add_of_le added
    have five : 5 ≤ c.lap := by
      simp only [Config.lap]
      omega
    have spent := Nat.mul_le_mul_left c.lap (show left + more ≤ credit s by omega)
    have notified := Nat.mul_le_mul_right more five
    rw [Nat.mul_add] at spent
    simp only [takesStep, wakesUp, rankOf] at own total ⊢
    omega
  | main =>
    have quiet := Instr.exec_woken (Main.code_silent (serving_of_noShutDown h)) took
    have same : (Function.update s.pc .main pc) .runner = s.pc .runner :=
      Function.update_of_ne (by simp) ..
    rw [same] at paid
    have spent := Nat.mul_le_mul_left c.lap (show left ≤ credit s by omega)
    simp only [takesStep, wakesUp, rankOf] at total ⊢
    omega

theorem funds_start (c : Config n N) : funds (machine c).start =
    c.lap * (N + (c.frames.flatten.length + 4) * c.frames.flatten.length) + N * (9 * N + 8) := by
  rw [funds, credit_start, Thread.sum_eq]
  simp [machine, Threads.machine, threads, Shared.woken, Waiter.wakes, rankOf, WorkerPc.rank,
    RunnerPc.rank]

/-- Nor do the workers go on for ever: over a whole run without `ShutDown` their steps
are bounded, but for five for each time one wakes spuriously. -/
theorem steps_bounded (waits : c.waitForAvailableJobs = true) {actions : List (Action N)}
    (run : (machine c).exec noShutDown actions (machine c).start = some s) :
    (machine c).tally takesStep actions (machine c).start ≤
      c.lap * (N + (c.frames.flatten.length + 4) * c.frames.flatten.length) + N * (9 * N + 8) +
        5 * (machine c).tally wakesUp actions (machine c).start := by
  have step (s t : State c) (a : Action N) (h : (machine c).Reach noShutDown s)
      (ok : noShutDown s a) (move : (machine c).step a s = some t) :
      (machine c).Reach noShutDown t ∧
        takesStep s a + funds t ≤ funds s + 5 * wakesUp s a :=
    ⟨h.next ok move, step_funds waits h move⟩
  have spent := Machine.tally_le_add step .start run
  rw [Machine.tally_mul, funds_start] at spent
  omega

theorem steps_bounded_pair : ∃ s,
    (machine pairConfig).exec noShutDown (restRun 0 1) (machine pairConfig).start = some s ∧
    (machine pairConfig).tally takesStep (restRun 0 1) (machine pairConfig).start ≤
      43 * 14 + 52 + 5 := by
  have run : ((machine pairConfig).exec noShutDown (restRun 0 1)
      (machine pairConfig).start).isSome = true := by
    decide +kernel
  have wakes : (machine pairConfig).tally wakesUp (restRun 0 1) (machine pairConfig).start = 1 := by
    decide +kernel
  have lap : pairConfig.lap = 43 := by
    decide
  obtain ⟨s, hs⟩ := Option.isSome_iff_exists.mp run
  refine ⟨s, hs, (steps_bounded rfl hs).trans (Nat.le_of_eq ?_)⟩
  rw [wakes, lap]
  rfl

end System
end JobStealer
