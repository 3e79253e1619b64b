import JobStealer.Frames
import JobStealer.Sleeping

/-!
# Everybody can come to rest

A calm continuation is one in which no blocked worker wakes without a notification and
no job moves behind a scan (`calm`, `Leads`). Every run without `ShutDown` has one to a
state at rest (`settles`): the workers are at the top of their loops or at their waits,
and the runner is at the beginning of its scan, or has ended.

Every thread has a bound on the steps before it is at rest (`restlessOf`). A thread that
cannot take one waits for a mutex, and then the holder can.
-/

namespace JobStealer
open Interleaving

variable {n N : Nat}

/-- A bound on the steps before the worker is at the top of its loop or blocked. -/
def WorkerPc.restless (c : Config n N) : WorkerPc n N → Nat
  | whileRunning | waitBlocked | leave | left => 0
  | waitBlock => 1
  | pc => pc.remaining c

namespace RunnerPc

/-- The steps that add the next frame, or that end the runner. -/
def ahead : List (List (Fin n)) → Nat
  | [] => 1
  | frame :: _ => 4 * frame.length + 1

/-- A bound on the steps before the runner begins a scan or ends. -/
def restless : RunnerPc n N → Nat
  | begin later | deleteJobs later => ahead later.frames + 2
  | whileRunning later => ahead later.frames + 1
  | addJob jobs _ => 4 * jobs.length + 1
  | addLock _ jobs _ => 4 * jobs.length + 4
  | addNotify _ jobs _ => 4 * jobs.length + 3
  | addUnlock _ jobs _ => 4 * jobs.length + 2
  | scanSize i later => if i = 0 then 0 else ahead later.frames + 3 + 2 * (N - i)
  | scanFlag i later => ahead later.frames + 2 + 2 * (N - i)
  | leave _ => 1
  | left _ => 0

@[simp] theorem restless_scan (later : Later n N) : (scanSize 0 later).restless = 0 := rfl

end RunnerPc

/-- A bound on the steps before the main thread waits for a key. -/
def MainPc.restless : MainPc N → Nat
  | construct i => N - i + 1
  | _ => 0

def restlessOf (c : Config n N) : (t : Thread N) → Pc n N t → Nat
  | .worker _ => WorkerPc.restless c
  | .runner => RunnerPc.restless
  | .main => MainPc.restless

section Code
variable (c : Config n N)

theorem WorkerPc.restless_le (pc : WorkerPc n N) : pc.restless c ≤ pc.remaining c := by
  cases pc <;> simp [WorkerPc.restless, WorkerPc.remaining]

theorem Worker.step_restless {w : Fin N} {pc pc' : WorkerPc n N} {t : Thread N} {random : Nat}
    {s s' : Shared c.graph N} (busy : 0 < pc.restless c)
    (took : (Worker.code c w pc).exec t random s = some (pc', s')) :
    pc'.restless c < pc.restless c := by
  have all (h : (Worker.code c w pc).All fun next => next.remaining c < pc.restless c) :
      pc'.restless c < pc.restless c := (WorkerPc.restless_le c _).trans_lt (h.exec took)
  cases pc with
  | whileRunning | waitBlocked | leave | left => exact absurd busy (Nat.lt_irrefl 0)
  | waitBlock =>
    cases took
    exact Nat.one_pos
  | waitRunning available =>
    cases took
    dsimp only
    split <;> simp only [WorkerPc.restless, WorkerPc.remaining] <;> omega
  | wakeThreads i =>
    refine (WorkerPc.restless_le c _).trans_lt ?_
    simp only [Worker.code] at took
    split at took
    · rename_i hi
      cases took
      dsimp only
      split <;> simp only [WorkerPc.restless, WorkerPc.remaining] <;> omega
    · cases took
      simp only [WorkerPc.restless, WorkerPc.remaining]
      omega
  | wakeLock i | wakeNotify i | wakeUnlock i =>
    have := i.isLt
    apply all
    simp only [Worker.code, Instr.All, WorkerPc.restless, WorkerPc.remaining]
    omega
  | executing job call =>
    refine (WorkerPc.restless_le c _).trans_lt ?_
    simp only [Worker.code] at took
    obtain ⟨m, next, advanced, rfl, rfl⟩ := Instr.exec_call took
    have less := advance_remaining advanced
    split <;> simp only [WorkerPc.restless, WorkerPc.remaining, Call.remaining] at less ⊢ <;> omega
  | execute job =>
    have := length_le_longest c.graph job
    apply all
    simp only [Worker.code, Instr.All, WorkerPc.restless, WorkerPc.remaining, Call.remaining]
    omega
  | lowerFlag =>
    cases took
    simp only [WorkerPc.restless, WorkerPc.remaining]
    omega
  | _ =>
    apply all
    grind [Worker.code, Instr.All, WorkerPc.restless, WorkerPc.remaining]

theorem Runner.step_restless {g : Graph n} {pc pc' : RunnerPc n N} {t : Thread N} {random : Nat}
    {s s' : Shared g N} (busy : 0 < pc.restless)
    (took : (Runner.code c pc).exec t random s = some (pc', s')) :
    pc'.restless < pc.restless := by
  cases pc with
  | left later => exact absurd busy (Nat.lt_irrefl 0)
  | begin later =>
    obtain ⟨_, rfl, _⟩ := Instr.exec_await took
    exact Nat.lt_succ_self _
  | whileRunning later =>
    cases took
    obtain ⟨i, frames⟩ := later
    dsimp only
    split
    · cases frames <;> simp [Runner.nextFrame, RunnerPc.restless, RunnerPc.ahead]
    · cases frames <;> simp [RunnerPc.restless, RunnerPc.ahead]
  | addJob jobs later =>
    cases jobs with
    | nil =>
      cases took
      exact Nat.lt_succ_self _
    | cons job jobs =>
      simp only [Runner.code, Runner.push] at took
      split at took <;>
      · cases took
        simp only [RunnerPc.restless, List.length_cons]
        omega
  | addLock i jobs later =>
    obtain ⟨_, rfl, _⟩ := Instr.exec_lock took
    exact Nat.lt_succ_self _
  | scanSize i later =>
    have inside : i ≠ 0 := fun none => by simp [RunnerPc.restless, none] at busy
    have value : (RunnerPc.scanSize i later).restless =
        RunnerPc.ahead later.frames + 3 + 2 * (N - i) := if_neg inside
    rw [value]
    simp only [Runner.code] at took
    split at took
    · cases took
      dsimp only
      split
      · rw [RunnerPc.restless_scan]
        omega
      · simp only [RunnerPc.restless]
        omega
    · cases took
      simp only [RunnerPc.restless]
      omega
  | scanFlag i later =>
    have := i.isLt
    cases took
    dsimp only
    split
    · rw [RunnerPc.restless_scan]
      simp only [RunnerPc.restless]
      omega
    · simp only [RunnerPc.restless, Nat.succ_ne_zero, if_false]
      omega
  | _ =>
    cases took
    exact Nat.lt_succ_self _

theorem Main.step_restless {g : Graph n} {pc pc' : MainPc N} {t : Thread N} {random : Nat}
    {s s' : Shared g N} (busy : 0 < pc.restless)
    (took : (Main.code pc : Instr n N _).exec t random s = some (pc', s')) :
    pc'.restless < pc.restless := by
  cases pc with
  | construct i =>
    simp only [Main.code] at took
    split at took <;>
    · cases took
      simp only [MainPc.restless] at busy ⊢
      omega
  | _ => exact absurd busy (Nat.lt_irrefl 0)

/-- A worker leaves its loop where it finds `mRunning` false. -/
theorem Worker.step_stays {g : Graph n} {w : Fin N} {pc pc' : WorkerPc n N} {t : Thread N}
    {random : Nat} {s s' : Shared g N} (running : s.flag (.mRunning w) = true)
    (inside : pc ≠ .leave ∧ pc ≠ .left)
    (took : (Worker.code c w pc).exec t random s = some (pc', s')) :
    pc' ≠ .leave ∧ pc' ≠ .left := by
  cases pc with
  | whileRunning =>
    cases took
    simp [running]
  | leave => exact absurd rfl inside.1
  | _ =>
    refine Instr.All.exec (P := fun pc => pc ≠ .leave ∧ pc ≠ .left) ?_ took
    grind [Worker.code, Instr.All]

/-- And the runner only after the last frame. -/
theorem Runner.step_stays {g : Graph n} {pc pc' : RunnerPc n N} {t : Thread N}
    {random : Nat} {s s' : Shared g N} (running : s.flag .isRunning = true)
    (inside : ∀ later, pc = .leave later ∨ pc = .left later → later.frames = [])
    (took : (Runner.code c pc).exec t random s = some (pc', s')) :
    ∀ later, pc' = .leave later ∨ pc' = .left later → later.frames = [] := by
  cases pc with
  | whileRunning later =>
    cases took
    obtain ⟨i, frames⟩ := later
    cases frames <;> simp [running, Runner.nextFrame]
  | leave later =>
    cases took
    have none := inside later (.inl rfl)
    simpa using none
  | addJob jobs later =>
    refine Instr.All.exec (P := fun pc => ∀ later, pc = .leave later ∨ pc = .left later →
      later.frames = []) ?_ took
    cases jobs <;> grind [Runner.code, Runner.push, Instr.All]
  | _ =>
    refine Instr.All.exec (P := fun pc => ∀ later, pc = .leave later ∨ pc = .left later →
      later.frames = []) ?_ took
    grind [Runner.code, Instr.All]

end Code

namespace System
variable {c : Config n N} {s t u : State c} {w : Fin N}

theorem step_eq {v : Thread N} {random : Nat} {pc : Pc n N v} {shared : Shared c.graph N}
    (took : (code c v (s.pc v)).exec v random s.shared = some (pc, shared)) :
    (machine c).step (v, random) s = some (s.move v pc shared) := by
  simp only [machine, Threads.machine, threads, took]
  rfl

/-- No blocked worker wakes without a notification. -/
def prompted (s : State c) (a : Action N) : Prop := ∀ w, a.1 = .worker w → ¬ Blocked s w

/-- And nobody shuts down, and no job moves behind a scan. -/
def calm (s : State c) (a : Action N) : Prop := undisturbed s a ∧ prompted s a

/-- A calm continuation. -/
abbrev Leads (s t : State c) : Prop := ((machine c).after s).Reach calm t

theorem Leads.refl (s : State c) : Leads s s := .start

theorem Leads.trans (first : Leads s t) (rest : Leads t u) : Leads s u :=
  Machine.Reach.trans (M := (machine c).after s) first rest

theorem Leads.step {a : Action N} (ok : calm s a) (move : (machine c).step a s = some t) :
    Leads s t := Machine.Reach.next .start ok move

theorem Leads.reach (way : Leads s t) (h : (machine c).Reach noShutDown s) :
    (machine c).Reach noShutDown t := h.trans (way.mono fun _ _ ok => ok.1.1)

theorem Leads.log (way : Leads s t) : s.shared.jobs.log ⊆ t.shared.jobs.log :=
  log_grows way.reachable

/-- The scan has not counted any worker yet. -/
def Unscanned (s : State c) : Prop := ∀ w, RunnerPc.sizeRead w (s.pc .runner) = false

theorem unscanned_of_rest (rest : (∃ later, s.pc .runner = .scanSize 0 later) ∨
    ∃ later, s.pc .runner = .left later) : Unscanned s := by
  intro w
  rcases rest with ⟨later, here⟩ | ⟨later, here⟩
  · rw [here]
    simp [RunnerPc.sizeRead]
  · rw [here]
    rfl

theorem calm_worker (unscanned : Unscanned s) (awake : ¬ Blocked s w) (random : Nat) :
    calm s (.worker w, random) := by
  have unread : RunnerPc.flagRead w (s.pc .runner) = false := by
    by_contra read
    have read := RunnerPc.sizeRead_of_flagRead ((Bool.not_eq_false _).mp read)
    exact absurd ((unscanned w).symm.trans read) (by simp)
  refine ⟨⟨fun main => (by cases main), ?_⟩, ?_⟩
  · simp [stays, unread, unscanned w]
  · rintro v same
    cases same
    exact awake

theorem calm_runner (s : State c) (random : Nat) : calm s (.runner, random) :=
  ⟨⟨fun main => (by cases main), rfl⟩, fun _ same => (by cases same)⟩

theorem calm_main (busy : s.pc .main ≠ .waitForKey) (random : Nat) : calm s (.main, random) :=
  ⟨⟨fun _ => busy, rfl⟩, fun _ same => (by cases same)⟩

/-- Whoever holds a mutex neither takes nor pushes a job. -/
theorem calm_holder {t : Thread N} {i : Fin N} (held : locksOf t (s.pc t) = some i)
    (random : Nat) : calm s (t, random) := by
  cases t with
  | runner => exact calm_runner s random
  | main =>
    apply calm_main
    intro here
    rw [here] at held
    cases held
  | worker v =>
    refine ⟨⟨fun main => (by cases main), ?_⟩, ?_⟩
    · change WorkerPc.locks v (s.pc (.worker v)) = some i at held
      simp only [stays]
      generalize s.pc (.worker v) = pc at held
      cases pc <;> grind [Worker.code, WorkerPc.locks, Instr.takes, Instr.pushes]
    · rintro w same ⟨here, _⟩
      cases same
      rw [here] at held
      cases held

theorem isRunning_eq (h : (machine c).Reach noShutDown s) : s.shared.flag .isRunning = true := by
  refine untouched ?_ h
  intro s run t
  cases t with
  | worker v => exact Worker.code_leaves c (by simp) (by simp) _
  | runner => exact Runner.code_leaves c (by simp) _
  | main => exact Main.code_leaves (by simp) (by simp) (serving_of_noShutDown run)

theorem not_left (h : (machine c).Reach noShutDown s) (w : Fin N) :
    s.pc (.worker w) ≠ .leave ∧ s.pc (.worker w) ≠ .left := by
  refine h.invariant (I := fun s => s.pc (.worker w) ≠ .leave ∧ s.pc (.worker w) ≠ .left)
    (by simp [machine, Threads.machine, threads]) ?_
  intro s t a run ih _ move
  obtain ⟨pc, shared, took, rfl⟩ := step_cases move
  obtain ⟨v, random⟩ := a
  by_cases own : v = .worker w
  · subst own
    rw [s.move_self]
    exact Worker.step_stays c (mRunning_eq run w) ih took
  · rwa [s.move_other pc shared (Ne.symm own)]

/-- The runner leaves after the last frame. -/
theorem no_frames_of_left (h : (machine c).Reach noShutDown s) {later : Later n N}
    (gone : s.pc .runner = .left later) : later.frames = [] := by
  have all : ∀ later, s.pc .runner = .leave later ∨ s.pc .runner = .left later →
      later.frames = [] := by
    refine h.invariant (I := fun s => ∀ later, s.pc .runner = .leave later ∨
      s.pc .runner = .left later → later.frames = [])
      (by simp [machine, Threads.machine, threads]) ?_
    intro s t a run ih _ move
    obtain ⟨pc, shared, took, rfl⟩ := step_cases move
    obtain ⟨v, random⟩ := a
    by_cases own : v = .runner
    · subst own
      rw [s.move_self]
      exact Runner.step_stays c (isRunning_eq run) ih took
    · rwa [s.move_other pc shared (Ne.symm own)]
  exact all later (.inr gone)

/-- Everybody is at rest. -/
structure Settled (s : State c) : Prop where
  main : s.pc .main = .waitForKey
  runner : (∃ later, s.pc .runner = .scanSize 0 later) ∨ ∃ later, s.pc .runner = .left later
  worker : ∀ w, s.pc (.worker w) = .whileRunning ∨ s.pc (.worker w) = .waitBlocked

def restlessness (s : State c) : Nat := ∑ t, restlessOf c t (s.pc t)

theorem step_restlessness {a : Action N} (busy : 0 < restlessOf c a.1 (s.pc a.1))
    (move : (machine c).step a s = some t) : restlessness t < restlessness s := by
  obtain ⟨pc, shared, took, rfl⟩ := step_cases move
  obtain ⟨v, random⟩ := a
  have less : restlessOf c v pc < restlessOf c v (s.pc v) := by
    cases v with
    | worker w => exact Worker.step_restless c busy took
    | runner => exact Runner.step_restless c busy took
    | main => exact Main.step_restless busy took
  have total := sum_update s.pc v pc (restlessOf c)
  simp only [restlessness, Threads.State.move]
  omega

theorem runner_moves {ok : State c → Action N → Prop} (h : (machine c).Reach ok s)
    (created : s.shared.flag .created = true) (busy : ∀ later, s.pc .runner ≠ .left later) :
    Moves s .runner := by
  have locks {i : Fin N} {next : RunnerPc n N} := @moves_of_lock n N c ok s h .runner i next
  have steps (r) (took : (Runner.code c (s.pc .runner)).exec .runner 0 s.shared = some r) :
      Moves s .runner := .inl (step_of_exec ⟨r, took⟩)
  simp only [code, locksOf] at locks
  generalize s.pc .runner = pc at busy locks steps
  cases pc with
  | begin later => exact steps _ (if_pos created)
  | addJob jobs later =>
    cases jobs with
    | nil => exact steps _ rfl
    | cons job jobs =>
      simp only [Runner.code, Runner.push] at steps
      split at steps <;> exact steps _ rfl
  | addLock i jobs later => exact locks rfl rfl
  | scanSize i later =>
    simp only [Runner.code] at steps
    split at steps <;> exact steps _ rfl
  | left later => exact absurd rfl (busy later)
  | _ => exact steps _ rfl

/-- Somebody who is not at rest does not hold anybody up for long. -/
theorem busy_moves (h : (machine c).Reach noShutDown s) {v : Thread N}
    (busy : 0 < restlessOf c v (s.pc v)) (ready : MainPc.restless (s.pc .main) = 0 ∨ v = .main) :
    Moves s v := by
  cases v with
  | worker w => exact worker_moves h w (not_left h w).2
  | runner =>
    apply runner_moves h
    · have rest := ready.resolve_right (by simp)
      rw [created_eq h]
      generalize s.pc .main = pc at rest
      cases pc with
      | construct i => cases rest
      | _ => rfl
    · intro later gone
      rw [gone] at busy
      exact Nat.lt_irrefl 0 busy
  | main =>
    have steps (r) (took : (Main.code (s.pc .main)).exec .main 0 s.shared = some r) :
        Moves s .main := .inl (step_of_exec ⟨r, took⟩)
    change 0 < MainPc.restless (s.pc .main) at busy
    generalize s.pc .main = pc at busy steps
    cases pc with
    | construct i =>
      simp only [Main.code] at steps
      split at steps <;> exact steps _ rfl
    | _ => exact absurd busy (Nat.lt_irrefl 0)

theorem holder_restless {v : Thread N} {i : Fin N} (h : (machine c).Reach noShutDown s)
    (held : locksOf v (s.pc v) = some i) : 0 < restlessOf c v (s.pc v) := by
  cases v with
  | worker w =>
    change WorkerPc.locks w (s.pc (.worker w)) = some i at held
    change 0 < WorkerPc.restless c (s.pc (.worker w))
    generalize s.pc (.worker w) = pc at held
    cases pc <;> grind [WorkerPc.locks, WorkerPc.restless, WorkerPc.remaining]
  | runner =>
    change RunnerPc.locks (s.pc .runner) = some i at held
    change 0 < RunnerPc.restless (s.pc .runner)
    generalize s.pc .runner = pc at held
    cases pc <;> grind [RunnerPc.locks, RunnerPc.restless]
  | main =>
    have serving := serving_of_noShutDown h
    change MainPc.locks (s.pc .main) = some i at held
    generalize s.pc .main = pc at held serving
    cases pc with
    | notify i | unlock i => cases serving
    | _ => cases held

/-- A thread that is not at rest, or the one it waits for, comes nearer to it. -/
theorem rests_nearer (h : (machine c).Reach noShutDown s) {v : Thread N}
    (busy : 0 < restlessOf c v (s.pc v)) (ready : MainPc.restless (s.pc .main) = 0 ∨ v = .main)
    (ok : calm s (v, 0)) : ∃ t, Leads s t ∧ restlessness t < restlessness s := by
  rcases busy_moves h busy ready with ⟨t, move⟩ | ⟨i, u, _, owner, t, move⟩
  · exact ⟨t, .step ok move, step_restlessness busy move⟩
  · have held := own_locks h owner
    exact ⟨t, .step (calm_holder held 0) move, step_restlessness (holder_restless h held) move⟩

theorem unsettled_nearer (h : (machine c).Reach noShutDown s) (unsettled : ¬ Settled s) :
    ∃ t, Leads s t ∧ restlessness t < restlessness s := by
  by_cases main : 0 < MainPc.restless (s.pc .main)
  · apply rests_nearer h (v := .main) main (.inr rfl)
    apply calm_main
    intro here
    rw [here] at main
    exact Nat.lt_irrefl 0 main
  have ready := Nat.eq_zero_of_not_pos main
  by_cases runner : 0 < RunnerPc.restless (s.pc .runner)
  · exact rests_nearer h (v := .runner) runner (.inl ready) (calm_runner s 0)
  have scans : (∃ later, s.pc .runner = .scanSize 0 later) ∨
      ∃ later, s.pc .runner = .left later := by
    generalize s.pc .runner = pc at runner
    cases pc with
    | scanSize i later =>
      by_cases first : i = 0
      · exact .inl ⟨later, by rw [first]⟩
      · simp [RunnerPc.restless, first] at runner
    | left later => exact .inr ⟨later, rfl⟩
    | _ => simp [RunnerPc.restless] at runner
  have serving : s.pc .main = .waitForKey := by
    have serving := serving_of_noShutDown h
    generalize s.pc .main = pc at ready serving
    cases pc with
    | construct i => cases ready
    | waitForKey => rfl
    | _ => cases serving
  by_contra stuck
  refine unsettled ⟨serving, scans, fun w => ?_⟩
  have rest : WorkerPc.restless c (s.pc (.worker w)) = 0 := by
    by_contra busy
    apply stuck
    apply rests_nearer h (v := .worker w) (Nat.pos_of_ne_zero busy) (.inl ready)
    apply calm_worker (unscanned_of_rest scans)
    rintro ⟨here, _⟩
    rw [here] at busy
    exact busy rfl
  have inside := not_left h w
  generalize s.pc (.worker w) = pc at rest inside
  cases pc with
  | whileRunning => exact .inl rfl
  | waitBlocked => exact .inr rfl
  | leave => exact absurd rfl inside.1
  | left => exact absurd rfl inside.2
  | _ => simp [WorkerPc.restless, WorkerPc.remaining] at rest

/-- Everybody comes to rest. -/
theorem settles (h : (machine c).Reach noShutDown s) : ∃ t, Leads s t ∧ Settled t := by
  have nearer (s : State c) (h : (machine c).Reach noShutDown s) (unsettled : ¬ Settled s) :
      ∃ t, Leads s t ∧ (machine c).Reach noShutDown t ∧ restlessness t < restlessness s := by
    obtain ⟨t, way, less⟩ := unsettled_nearer h unsettled
    exact ⟨t, way, way.reach h, less⟩
  obtain ⟨t, way, _, settled⟩ := Machine.exists_reach restlessness nearer h
  exact ⟨t, way, settled⟩

end System
end JobStealer
