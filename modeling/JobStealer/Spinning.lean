import JobStealer.FairRuns

/-!
# Workers that spin

Without `HTL_WAIT_FOR_AVAILABLE_JOBS` a worker whose jobs all wait for others goes round
its loop for as long as they do, so its steps are not bounded. Under a fair schedule all
jobs of all frames are finished and the runner ends all the same: `all_finish`, for
either build.

In the end no job is added any more, none is started and no search is begun that would
find one (`Spinning`). Then a worker with an empty deque falls asleep, one with jobs is
done with its mutex, and so the runner gets past its last `AddJob`. A job that is left
would be one that can be executed in the deque of a worker that looks for it.
-/

namespace JobStealer
open Interleaving

variable {n N : Nat}

namespace WorkerPc

/-- On the way through `WakeThreads`. -/
def rouses : WorkerPc n N → Bool
  | checkJobSystem | wakeThreads _ | wakeLock _ | wakeNotify _ | wakeUnlock _ => true
  | _ => false

/-- The steps before a worker with a job in its deque has left `WaitForJob`. -/
def waits : WorkerPc n N → Nat
  | waitRunning false => 7
  | waitBlock => 6
  | waitBlocked => 5
  | waitLock => 4
  | waitJobs => 3
  | waitRunning true => 2
  | waitUnlock => 1
  | _ => 0

/-- The steps before the job the worker executes is finished. -/
def executes (g : Graph n) : WorkerPc n N → Nat
  | executing _ call => call.remaining g + 1
  | _ => 0

end WorkerPc

section Code
variable (c : Config n N) {s s' : Shared c.graph N} {w : Fin N} {pc pc' : WorkerPc n N}
variable {t : Thread N} {random : Nat}

theorem Worker.code_rouses (any : c.waitForAvailableJobs = false) (silent : pc.rouses = false) :
    (Worker.code c w pc).All fun next => next.rouses = false := by
  cases pc with
  | executing job call =>
    intro next
    dsimp only
    split <;> rfl
  | _ => grind [Worker.code, Instr.All, WorkerPc.rouses]

theorem Worker.step_waits (any : c.waitForAvailableJobs = false) (silent : pc.rouses = false)
    (jobs : pc = .checkJobs ∨ pc = .waitJobs → (s.mJobDeque w).mJobDeque ≠ [])
    (took : (Worker.code c w pc).exec t random s = some (pc', s')) :
    pc'.waits < pc.waits ∨ pc.waits = 0 ∧ pc'.waits = 0 := by
  have size := LockingDeque.size_eq (s.mJobDeque w)
  have filled (here : pc = .checkJobs ∨ pc = .waitJobs) : 0 < (s.mJobDeque w).size := by
    rw [size]
    exact List.length_pos_of_ne_nil (jobs here)
  cases pc with
  | checkJobs =>
    have filled := filled (.inl rfl)
    simp only [Worker.code, any, Bool.false_eq_true, if_false] at took
    cases took
    simp [Nat.ne_of_gt filled, WorkerPc.waits]
  | waitJobs =>
    have filled := filled (.inr rfl)
    simp only [Worker.code, any, Bool.false_eq_true, if_false] at took
    cases took
    simp [filled, WorkerPc.waits]
  | waitRunning available =>
    left
    cases took
    cases available <;> cases s.flag (.mRunning w) <;> simp [WorkerPc.waits]
  | waitLock =>
    obtain ⟨_, rfl, _⟩ := Instr.exec_lock took
    exact .inl (Nat.lt_succ_self _)
  | waitBlock | waitBlocked | waitUnlock =>
    cases took
    exact .inl (Nat.lt_succ_self _)
  | executing job call =>
    obtain ⟨_, next, _, rfl, _⟩ := Instr.exec_call took
    right
    split <;> exact ⟨rfl, rfl⟩
  | checkJobSystem | wakeThreads i | wakeLock i | wakeNotify i | wakeUnlock i => cases silent
  | _ =>
    refine .inr ⟨rfl, Instr.All.exec (P := fun next => next.waits = 0) ?_ took⟩
    grind [Worker.code, Instr.All, WorkerPc.waits]

/-- Between its start and its end an `Execute` comes nearer to its end. -/
theorem Worker.step_executes (other : ∀ job, pc ≠ .execute job)
    (took : (Worker.code c w pc).exec t random s = some (pc', s')) :
    pc'.executes c.graph < pc.executes c.graph ∨
      pc.executes c.graph = 0 ∧ pc'.executes c.graph = 0 := by
  cases pc with
  | execute job => exact absurd rfl (other job)
  | executing job call =>
    obtain ⟨_, next, advanced, rfl, _⟩ := Instr.exec_call took
    have less := advance_remaining advanced
    left
    cases next <;> simp only [WorkerPc.executes] at less ⊢ <;> omega
  | _ =>
    refine .inr ⟨rfl, Instr.All.exec (P := fun next => next.executes c.graph = 0) ?_ took⟩
    grind [Worker.code, Instr.All, WorkerPc.executes]

/-- A scan changes nothing. -/
theorem Runner.step_scans {pc pc' : RunnerPc n N} (scans : pc.scanning = true)
    (took : (Runner.code c pc).exec t random s = some (pc', s')) : s' = s := by
  cases pc with
  | scanSize i later =>
    simp only [Runner.code] at took
    split at took <;> cases took <;> rfl
  | scanFlag i later =>
    cases took
    rfl
  | _ => cases scans

/-- A worker that takes no job to execute it keeps those it has. -/
theorem Worker.step_queue (took : (Worker.code c w pc).exec t random s = some (pc', s'))
    (free : ∀ job, pc' ≠ .execute job) :
    (∀ v, v ≠ w → s'.mJobDeque v = s.mJobDeque v) ∧
      (pc'.queue (s'.mJobDeque w).mJobDeque).Perm (pc.queue (s.mJobDeque w).mJobDeque) := by
  cases pc with
  | ownPop allow =>
    rcases (s.mJobDeque w).popFront_cases s.jobs.canExecute allow with
      ⟨popped, _⟩ | ⟨job, e, popped, jobs, _⟩
    · simp only [Worker.code, Instr.exec, popped] at took
      cases took
      exact ⟨fun v other => Function.update_of_ne other .., by simp [WorkerPc.queue]⟩
    · simp only [Worker.code, Instr.exec, popped] at took
      cases took
      exact ⟨fun v other => Function.update_of_ne other .., by simp [WorkerPc.queue, jobs]⟩
  | ownCheck job =>
    cases took
    cases can : s.jobs.canExecute job with
    | true => exact absurd (by simp [can]) (free job)
    | false =>
      refine ⟨fun v _ => rfl, ?_⟩
      exact List.perm_append_singleton job (s.mJobDeque w).mJobDeque
  | ownPushBack job =>
    cases took
    exact ⟨fun v other => Function.update_of_ne other .., by simp [WorkerPc.queue]⟩
  | ownPopAgain =>
    rcases (s.mJobDeque w).popFront_cases s.jobs.canExecute false with
      ⟨popped, _⟩ | ⟨job, e, popped, _⟩
    · simp only [Worker.code, Instr.exec, popped] at took
      cases took
      exact ⟨fun v other => Function.update_of_ne other .., by simp [WorkerPc.queue]⟩
    · simp only [Worker.code, Instr.exec, popped] at took
      cases took
      exact absurd rfl (free job)
  | stealPop i =>
    rcases (s.mJobDeque i).popBack_cases s.jobs.canExecute with
      ⟨popped, _⟩ | ⟨job, e, popped, _⟩
    · simp only [Worker.code, Instr.exec, popped] at took
      cases took
      simp [WorkerPc.queue]
    · simp only [Worker.code, Instr.exec, popped] at took
      cases took
      exact absurd rfl (free job)
  | _ =>
    obtain ⟨still, queue⟩ := Worker.step_unhandled c rfl took
    rw [still, queue]
    exact ⟨fun _ _ => rfl, .refl _⟩

end Code

namespace System
variable {c : Config n N} {ok : State c → Action N → Prop} {s t : State c} {v : Thread N}
variable {w : Fin N}

theorem silent (any : c.waitForAvailableJobs = false) (h : (machine c).Reach ok s) (w : Fin N) :
    WorkerPc.rouses (s.pc (.worker w)) = false := by
  refine Threads.local_invariant (P := threads c) (t := .worker w)
    (Q := fun pc => pc.rouses = false) rfl ?_ h
  intro s _ pc shared _ quiet took
  exact (Worker.code_rouses c any quiet).exec took

/-! ## News -/

/-- The runner and `main` go on, but for the scans, or a search or a job begins. -/
def news (s : State c) (a : Action N) : Prop :=
  a.1 = .main ∨ (a.1 = .runner ∧ RunnerPc.scanning (s.pc .runner) = false) ∨ 0 < begins s a ∨
    ∃ w job, a.1 = .worker w ∧ s.pc (.worker w) = .execute job

theorem step_unstarted (h : (machine c).Reach noShutDown t) {a : Action N}
    (move : (machine c).step a s = some t) : unstarted t ≤ unstarted s ∧
      ∀ w job, a.1 = .worker w → s.pc (.worker w) = .execute job → unstarted t < unstarted s := by
  have once := started_le h
  obtain ⟨pc, shared, took, rfl⟩ := step_cases move
  have grows := Instr.exec_log took
  have fewer : (Finset.univ.filter fun job => Event.started job ∉ shared.jobs.log) ⊆
      Finset.univ.filter fun job => .started job ∉ s.shared.jobs.log := by
    intro job
    simp only [Finset.mem_filter, Finset.mem_univ, true_and]
    exact fun still old => still (grows old)
  refine ⟨Finset.card_le_card fewer, fun w job own here => Finset.card_lt_card ?_⟩
  obtain ⟨v, random⟩ := a
  obtain rfl : v = .worker w := own
  rw [code, here] at took
  cases took
  have once := once job
  rw [Threads.State.move_shared, Jobs.note_log, List.count_cons_self] at once
  have before : .started job ∉ s.shared.jobs.log := List.count_eq_zero.mp (by omega)
  refine (Finset.ssubset_iff_of_subset fewer).mpr ⟨job, by simpa using before, by simp⟩

theorem step_news (h : (machine c).Reach noShutDown s) {a : Action N} (serves : noShutDown s a)
    (move : (machine c).step a s = some t) :
    ahead t + credit t + unstarted t ≤ ahead s + credit s + unstarted s ∧
      (news s a → ahead t + credit t + unstarted t < ahead s + credit s + unstarted s) := by
  have searches := step_credit h move
  have added := length_toAdd_le move
  obtain ⟨jobs, starts⟩ := step_unstarted (h.next serves move) move
  by_cases worker : ∃ w, a.1 = .worker w
  · obtain ⟨w, worker⟩ := worker
    have same : ahead t = ahead s := by
      obtain ⟨pc, shared, took, rfl⟩ := step_cases move
      rw [ahead, ahead, s.move_other pc shared (by simp [worker]),
        s.move_other pc shared (by simp [worker])]
    refine ⟨by omega, ?_⟩
    rintro (main | ⟨runner, _⟩ | begun | ⟨v, job, own, here⟩)
    · exact absurd (main.symm.trans worker) (by simp)
    · exact absurd (runner.symm.trans worker) (by simp)
    · omega
    · have := starts v job own here
      omega
  · rcases step_ahead h serves move fun w own => worker ⟨w, own⟩ with
      less | ⟨same, runner, scans, _⟩
    · exact ⟨by omega, fun _ => by omega⟩
    · refine ⟨by omega, ?_⟩
      rintro (main | ⟨_, rests⟩ | begun | ⟨v, job, own, _⟩)
      · exact absurd (main.symm.trans runner) (by simp)
      · exact absurd (rests.symm.trans scans) (by simp)
      · omega
      · exact absurd ⟨v, own⟩ worker

/-! ## When there are no more news -/

variable {x : (machine c).Course noShutDown} {m : Nat}

/-- From `m` on no blocked worker wakes unless it was notified, and there are no news. -/
structure Spinning (x : (machine c).Course noShutDown) (m : Nat) : Prop where
  heard : Prompted x m
  old : ∀ u a, m ≤ u → x.action u = some a → ¬ news (x.state u) a

theorem spinning {k : Nat} (heard : Prompted x k) : ∃ m, Spinning x m := by
  obtain ⟨m, after, old⟩ := x.ends (fun s => ahead s + credit s + unstarted s) news (k := k)
    (fun u a _ taken => (step_news (x.reach u) (x.moves taken).1 (x.moves taken).2).1)
    (fun u a _ taken => (step_news (x.reach u) (x.moves taken).1 (x.moves taken).2).2)
  exact ⟨m, fun u a later => heard u a (after.trans later), old⟩

theorem pc_kept {u : Nat} {a : Action N} (taken : x.action u = some a) (other : ¬ stepOf v a) :
    (x.state (u + 1)).pc v = (x.state u).pc v := by
  obtain ⟨pc, shared, _, eq⟩ := step_cases (x.moves taken).2
  rw [eq]
  exact (x.state u).move_other pc shared fun same => other same.symm

theorem worker_able (awake : ¬ Blocked s w)
    (moves : ∃ t, (machine c).step (.worker w, 0) s = some t) :
    (machine c).Able able (stepOf (.worker w)) s := by
  refine able_of_moves (fun main => by cases main) ?_ moves
  rintro v same
  cases same
  exact awake

theorem own_step {u : Nat} {a : Action N} (taken : x.action u = some a) (own : a.1 = .worker w) :
    (Worker.code c w ((x.state u).pc (.worker w))).exec (.worker w) a.2 (x.state u).shared =
      some ((x.state (u + 1)).pc (.worker w), (x.state (u + 1)).shared) := by
  obtain ⟨pc, shared, took, eq⟩ := step_cases (x.moves taken).2
  obtain ⟨v, random⟩ := a
  obtain rfl : v = .worker w := own
  rw [eq, Threads.State.move_self]
  exact took

theorem executing_moves (run : (machine c).Reach ok s) {job : Fin n} {call : Call n}
    (here : s.pc (.worker w) = .executing job call) :
    ∃ t, (machine c).step (.worker w, 0) s = some t := by
  have busy := executing_busy run w job
  have more : ∃ r, Execution.advance s.shared.jobs call = some r := by
    cases call with
    | idle => exact absurd here busy
    | running j | finishing j => exact ⟨_, rfl⟩
    | releasing i k =>
      simp only [Execution.advance]
      split <;> exact ⟨_, rfl⟩
  obtain ⟨r, more⟩ := more
  apply step_of_exec
  rw [code, here]
  simp only [Worker.code, Instr.exec, more, Option.map_some]
  exact ⟨_, rfl⟩

namespace Spinning
variable (h : Spinning x m)
include h

theorem step_runner {u : Nat} {a : Action N} (later : m ≤ u) (taken : x.action u = some a)
    (own : a.1 = .runner) : RunnerPc.scanning ((x.state u).pc .runner) = true := by
  by_contra rests
  exact h.old u a later taken (.inr (.inl ⟨own, (Bool.not_eq_true _).mp rests⟩))

/-- Nobody is notified any more. -/
theorem woken_le (any : c.waitForAvailableJobs = false) {u : Nat} {a : Action N} (later : m ≤ u)
    (taken : x.action u = some a) : (x.state (u + 1)).shared.woken ≤ (x.state u).shared.woken := by
  have quiet := silent any (x.reach u)
  obtain ⟨pc, shared, took, eq⟩ := step_cases (x.moves taken).2
  rw [eq]
  obtain ⟨v, random⟩ := a
  cases v with
  | worker w =>
    refine Instr.exec_woken (Worker.code_silent c fun i here => ?_) took
    have quiet := quiet w
    rw [here] at quiet
    cases quiet
  | runner =>
    have same := Runner.step_scans c (h.step_runner later taken rfl) took
    exact (congrArg Shared.woken same).le
  | main => exact absurd (.inl rfl) (h.old u _ later taken)

/-- A worker that finds nothing any more falls asleep. -/
theorem stops (any : c.waitForAvailableJobs = false) {k : Nat} (beyond : m ≤ k)
    (unseen : ∀ u a, k ≤ u → x.action u = some a → a.1 = .worker w →
      Worker.finds c w (x.state u).shared ((x.state u).pc (.worker w)) = 0) :
    ∃ k', k ≤ k' ∧ ∀ u a, k' ≤ u → x.action u = some a → ¬ a.1 = .worker w := by
  have step (u : Nat) (a : Action N) (later : k ≤ u) (taken : x.action u = some a)
      (own : a.1 = .worker w) :
      WorkerPc.rank c ((x.state (u + 1)).pc (.worker w)) + (x.state (u + 1)).shared.woken <
        WorkerPc.rank c ((x.state u).pc (.worker w)) + (x.state u).shared.woken := by
    have run := x.reach u
    have paid := Worker.step_rank c (mRunning_eq run w) (not_awake run w) (own_step taken own)
    have unprompted : Worker.wakesUp w (x.state u).shared ((x.state u).pc (.worker w)) = 0 :=
      if_neg (h.heard u a (beyond.trans later) taken w own)
    rw [unseen u a later taken own, unprompted] at paid
    omega
  exact x.ends (fun s => WorkerPc.rank c (s.pc (.worker w)) + s.shared.woken)
    (fun _ a => a.1 = .worker w)
    (fun u a later taken => by
      by_cases own : a.1 = .worker w
      · exact (step u a later taken own).le
      · rw [pc_kept taken own]
        exact Nat.add_le_add_left (h.woken_le any (beyond.trans later) taken) _)
    step

variable (fair : x.Fair able stepOf)
include fair

/-- A job about to be executed would be started. -/
theorem not_ready {u : Nat} (later : m ≤ u) (w : Fin N) (job : Fin n) :
    (x.state u).pc (.worker w) ≠ .execute job := by
  intro here
  obtain ⟨v, a, after, there, taken, own⟩ :=
    fair.moves (P := fun s => s.pc (.worker w) = .execute job) (v := .worker w) here
      (fun v a _ there taken other => (pc_kept taken other).trans there)
      (fun v _ there => by
        refine worker_able (fun blocked => by rw [blocked.1] at there; cases there)
          (step_of_exec ?_)
        rw [code, there]
        exact ⟨_, rfl⟩)
  exact h.old v a (later.trans after) taken (.inr (.inr (.inr ⟨w, job, own, there⟩)))

/-- The workers keep their jobs. -/
theorem queue_perm {u : Nat} (later : m ≤ u) (w : Fin N) :
    (queue (x.state (u + 1)) w).Perm (queue (x.state u) w) := by
  refine Machine.Course.next (R := fun s t => x.state (u + 1) = t → (queue t w).Perm (queue s w)) u
    (fun _ => .refl _) ?_ rfl
  rintro ⟨v, random⟩ t taken _ move rfl
  obtain ⟨pc, shared, took, eq⟩ := step_cases move
  have free := h.not_ready fair (Nat.le_succ_of_le later)
  rw [eq] at free ⊢
  cases v with
  | worker v =>
    obtain ⟨others, own⟩ := Worker.step_queue c took fun job => by
      have free := free v job
      rwa [Threads.State.move_self] at free
    by_cases same : w = v
    · subst same
      rwa [queue, queue, Threads.State.move_self]
    · rw [queue, queue, (x.state u).move_other pc shared (by simpa using same),
        Threads.State.move_shared, others w same]
  | runner =>
    rw [queue, queue, (x.state u).move_other pc shared (by simp), Threads.State.move_shared,
      Runner.step_scans c (h.step_runner later taken rfl) took]
  | main => exact absurd (.inl rfl) (h.old u _ later taken)

/-- Every `Execute` comes to its end. -/
theorem idle : ∃ k, m ≤ k ∧ ∀ u, k ≤ u → ∀ v, calls (x.state u) v = .idle := by
  have each (w : Fin N) : ∃ k, ∀ u, k ≤ u → m ≤ u →
      WorkerPc.executes c.graph ((x.state u).pc (.worker w)) = 0 := by
    have step (u : Nat) (a : Action N) (later : m ≤ u) (taken : x.action u = some a)
        (own : a.1 = .worker w) :=
      Worker.step_executes c (h.not_ready fair later w) (own_step taken own)
    obtain ⟨k, _, ended⟩ := x.ends (fun s => WorkerPc.executes c.graph (s.pc (.worker w)))
      (fun s a => a.1 = .worker w ∧ 0 < WorkerPc.executes c.graph (s.pc (.worker w))) (k := m)
      (fun u a later taken => by
        by_cases own : a.1 = .worker w
        · rcases step u a later taken own with less | ⟨before, after⟩
          · exact less.le
          · exact (after.trans before.symm).le
        · rw [pc_kept taken own])
      (fun u a later taken mine => by
        obtain ⟨own, busy⟩ := mine
        exact (step u a later taken own).resolve_right fun none => Nat.ne_of_gt busy none.1)
    refine ⟨k, fun u later after => ?_⟩
    by_contra busy
    obtain ⟨v, a, beyond, there, taken, own⟩ :=
      fair.moves (P := fun s => WorkerPc.executes c.graph (s.pc (.worker w)) ≠ 0)
        (v := .worker w) busy
        (fun v a _ there taken other => by rwa [pc_kept taken other])
        (fun v _ there => by
          have run := x.reach v
          have moves {job call} := @executing_moves n N c _ (x.state v) w run job call
          have awake : ¬ Blocked (x.state v) w := fun blocked => by
            rw [blocked.1] at there
            exact there rfl
          refine worker_able awake ?_
          generalize (x.state v).pc (.worker w) = pc at there moves
          cases pc with
          | executing job call => exact moves rfl
          | _ => exact absurd rfl there)
    exact ended v a (later.trans beyond) taken ⟨own, Nat.pos_of_ne_zero there⟩
  obtain ⟨k, all⟩ := Machine.Course.together each
  refine ⟨max k m, Nat.le_max_right .., fun u later v => ?_⟩
  cases v with
  | worker w =>
    have none := all u ((Nat.le_max_left ..).trans later) w ((Nat.le_max_right ..).trans later)
    change WorkerPc.call ((x.state u).pc (.worker w)) = .idle
    generalize (x.state u).pc (.worker w) = pc at none
    cases pc with
    | executing job call => cases none
    | _ => rfl
  | runner | main => rfl

theorem queue_kept {k : Nat} (beyond : m ≤ k) (w : Fin N) {u : Nat} (later : k ≤ u) :
    (queue (x.state u) w).Perm (queue (x.state k) w) :=
  Machine.Course.always (P := fun s => (queue s w).Perm (queue (x.state k) w)) (.refl _)
    (fun _ after ih => (h.queue_perm fair (beyond.trans after) w).trans ih) u later

omit h fair in
theorem queue_of_looking {pc : WorkerPc n N} (looks : pc = .checkJobs ∨ pc = .waitJobs)
    (q : List (Fin n)) : pc.queue q = q := by
  rcases looks with rfl | rfl <;> rfl

/-- A worker is done with its mutex. -/
theorem unlocks (any : c.waitForAvailableJobs = false) (w : Fin N) :
    ∃ k, ∀ u, k ≤ u → ∀ a, x.action u = some a → a.1 = .worker w →
      WorkerPc.waits ((x.state u).pc (.worker w)) = 0 := by
  have deque {u : Nat} (later : m ≤ u) (looks : (x.state u).pc (.worker w) = .checkJobs ∨
      (x.state u).pc (.worker w) = .waitJobs) :
      ((x.state u).shared.mJobDeque w).mJobDeque.Perm (queue (x.state m) w) := by
    have kept := h.queue_kept fair (Nat.le_refl m) w later
    rwa [queue, queue_of_looking looks] at kept
  by_cases empty : queue (x.state m) w = []
  · obtain ⟨k, _, rests⟩ := h.stops (w := w) any (Nat.le_refl m) fun u a later taken own => by
      have deque := deque later
      rw [empty] at deque
      generalize (x.state u).pc (.worker w) = pc at deque
      cases pc with
      | checkJobs => simp [Worker.finds, any, (deque (.inl rfl)).eq_nil]
      | waitJobs => simp [Worker.finds, any, (deque (.inr rfl)).eq_nil]
      | _ => rfl
    exact ⟨k, fun u later a taken own => absurd own (rests u a later taken)⟩
  · have step (u : Nat) (a : Action N) (later : m ≤ u) (taken : x.action u = some a)
        (own : a.1 = .worker w) :=
      Worker.step_waits c any (silent any (x.reach u) w)
        (fun looks none => empty (by simpa [none] using deque later looks)) (own_step taken own)
    obtain ⟨k, _, ended⟩ := x.ends (fun s => WorkerPc.waits (s.pc (.worker w)))
      (fun s a => a.1 = .worker w ∧ 0 < WorkerPc.waits (s.pc (.worker w))) (k := m)
      (fun u a later taken => by
        by_cases own : a.1 = .worker w
        · rcases step u a later taken own with less | ⟨before, after⟩
          · exact less.le
          · exact (after.trans before.symm).le
        · rw [pc_kept taken own])
      (fun u a later taken mine => by
        obtain ⟨own, busy⟩ := mine
        exact (step u a later taken own).resolve_right fun none => Nat.ne_of_gt busy none.1)
    refine ⟨k, fun u later a taken own => Nat.eq_zero_of_not_pos fun busy => ?_⟩
    exact ended u a later taken ⟨own, busy⟩

/-- In the end nobody holds a mutex any more. -/
theorem free (any : c.waitForAvailableJobs = false) : ∃ k, m ≤ k ∧ ∀ u, k ≤ u → ∀ i,
    (x.state u).shared.mAwakeMutex i = none := by
  obtain ⟨k, done⟩ := Machine.Course.together fun w => h.unlocks fair any w
  refine ⟨max k m, Nat.le_max_right .., fun u later i => ?_⟩
  have old := (Nat.le_max_right ..).trans later
  cases owner : (x.state u).shared.mAwakeMutex i with
  | none => rfl
  | some v =>
    -- the holder would go on
    obtain ⟨v', a, after, held, taken, own⟩ :=
      fair.moves (P := fun s => locksOf v (s.pc v) = some i) (own_locks (x.reach u) owner)
        (fun v a _ held taken other => by rwa [pc_kept taken other])
        (fun v _ held =>
          able_of_moves (calm_holder held 0).1.1 (calm_holder held 0).2 (holder_moves held))
    cases v with
    | worker w =>
      have silent := silent any (x.reach v') w
      have done := done v' (((Nat.le_max_left ..).trans later).trans after) w a taken own
      change WorkerPc.locks w ((x.state v').pc (.worker w)) = some i at held
      generalize (x.state v').pc (.worker w) = pc at held silent done
      cases pc with
      | waitRunning available => cases available <;> cases done
      | waitJobs | waitBlock | waitUnlock => cases done
      | wakeNotify i | wakeUnlock i => cases silent
      | _ => cases held
    | runner =>
      have scans := h.step_runner (old.trans after) taken own
      change RunnerPc.locks ((x.state v').pc .runner) = some i at held
      generalize (x.state v').pc .runner = pc at held scans
      cases pc with
      | addNotify i jobs later | addUnlock i jobs later => cases scans
      | _ => cases held
    | main => exact absurd (.inl own) (h.old v' a (old.trans after) taken)

omit h fair in
theorem able_of_free (free : ∀ i, s.shared.mAwakeMutex i = none) (ready : able s (v, 0))
    (moves : Moves s v) : (machine c).Able able (stepOf v) s := by
  rcases moves with moves | ⟨i, _, _, owner, _⟩
  · exact able_of_moves ready.1 ready.2 moves
  · exact absurd ((free i).symm.trans owner) (by simp)

variable {k : Nat} (beyond : m ≤ k)
  (unheld : ∀ u, k ≤ u → ∀ i, (x.state u).shared.mAwakeMutex i = none)
include beyond unheld

/-- The runner has added all jobs of its frame. -/
theorem returned {u : Nat} (later : k ≤ u) :
    RunnerPc.adding ((x.state u).pc .runner) = false := by
  have constructed {u : Nat} (later : k ≤ u) : MainPc.restless ((x.state u).pc .main) = 0 := by
    by_contra busy
    obtain ⟨v, a, after, _, taken, own⟩ :=
      fair.moves (P := fun s => MainPc.restless (s.pc .main) ≠ 0) (v := .main) busy
        (fun v a _ busy taken other => by rwa [pc_kept taken other])
        (fun v after busy => by
          have open_ : (x.state v).pc .main ≠ .waitForKey := fun here => by
            rw [here] at busy
            exact busy rfl
          have calm := calm_main open_ 0
          exact able_of_free (unheld v (later.trans after)) ⟨calm.1.1, calm.2⟩
            (busy_moves (x.reach v) (v := .main) (Nat.pos_of_ne_zero busy) (.inr rfl)))
    exact h.old v a ((beyond.trans later).trans after) taken (.inl own)
  by_contra adds
  obtain ⟨v, a, after, adds, taken, own⟩ :=
    fair.moves (P := fun s => RunnerPc.adding (s.pc .runner) ≠ false) (v := .runner) adds
      (fun v a _ adds taken other => by rwa [pc_kept taken other])
      (fun v after adds => by
        have calm := calm_runner (x.state v) 0
        have busy : 0 < RunnerPc.restless ((x.state v).pc .runner) := by
          generalize (x.state v).pc .runner = pc at adds
          cases pc <;> simp_all [RunnerPc.adding, RunnerPc.restless]
        exact able_of_free (unheld v (later.trans after)) ⟨calm.1.1, calm.2⟩
          (busy_moves (x.reach v) (v := .runner) busy
            (.inl (constructed (later.trans after)))))
  have scans := h.step_runner ((beyond.trans later).trans after) taken own
  generalize (x.state v).pc .runner = pc at adds scans
  cases pc <;> simp_all [RunnerPc.adding, RunnerPc.scanning]

/-- A worker with a job that can be executed would look for it. -/
theorem none_executable (any : c.waitForAvailableJobs = false) {u : Nat} (later : k ≤ u)
    {job : Fin n} (inside : job ∈ queue (x.state u) w) :
    (x.state u).shared.jobs.canExecute job = false := by
  by_contra can
  have lasts : ∀ v, u ≤ v → job ∈ queue (x.state v) w ∧
      (x.state v).shared.jobs.canExecute job = true := by
    refine Machine.Course.always (P := fun s => job ∈ queue s w ∧
      s.shared.jobs.canExecute job = true) ⟨inside, (Bool.not_eq_false _).mp can⟩ ?_
    intro v after ⟨inside, can⟩
    have still := (h.queue_perm fair ((beyond.trans later).trans after) w).mem_iff.mpr inside
    refine ⟨still, ?_⟩
    cases taken : x.action v with
    | none => rwa [x.rests taken]
    | some a => exact step_executable (x.reach v) (x.moves taken).2 inside can
  obtain ⟨u', after, rests⟩ := h.stops (w := w) any (beyond.trans later)
    fun v a after taken own => by
      obtain ⟨inside, can⟩ := lasts v after
      have old := h.old v a ((beyond.trans later).trans after) taken
      have found : Worker.begins w (x.state v).shared ((x.state v).pc (.worker w)) = 0 := by
        by_contra begins
        refine old (.inr (.inr (.inl ?_)))
        obtain ⟨v', random⟩ := a
        obtain rfl : v' = .worker w := own
        exact Nat.pos_of_ne_zero begins
      rw [queue] at inside
      generalize (x.state v).pc (.worker w) = pc at inside found
      cases pc with
      | checkJobs | waitJobs =>
        have some : ((x.state v).shared.mJobDeque w).mJobDeque.any
            (x.state v).shared.jobs.canExecute = true := List.any_eq_true.mpr ⟨job, inside, can⟩
        simp [Worker.begins, some] at found
      | _ => rfl
  obtain ⟨v, a, after', taken, own⟩ := fair (.worker w) u' fun v after' => by
    have run := x.reach v
    have now := (later.trans after).trans after'
    refine able_of_free (unheld v now) ⟨fun main => (by cases main), ?_⟩
      (worker_moves run w (not_left run w).2)
    rintro _ same blocked
    cases same
    have owed := filled any run w (WorkerPc.dozing_of_blocking blocked.blocking) fun empty => by
      have inside := (lasts v (after.trans after')).1
      rw [queue, blocked.1] at inside
      change job ∈ ((x.state v).shared.mJobDeque w).mJobDeque at inside
      rw [empty] at inside
      cases inside
    have returned := h.returned fair beyond unheld now
    generalize (x.state v).pc .runner = pc at owed returned
    cases pc with
    | addLock i jobs later | addNotify i jobs later => cases returned
    | _ => cases owed
  exact rests v a after' taken own

/-- No job is left for any worker. -/
theorem queue_empty (any : c.waitForAvailableJobs = false)
    (idle : ∀ u, k ≤ u → ∀ v, calls (x.state u) v = .idle) {u : Nat} (later : k ≤ u) :
    queue (x.state u) w = [] := by
  apply List.eq_nil_iff_forall_not_mem.mpr
  intro job inside
  have run := x.reach u
  obtain ⟨here, left⟩ := left_of_queue run inside
  obtain ⟨v, i, can, place⟩ := executable_left run (idle u later)
    (h.returned fair beyond unheld later) here left
  have waits : i ∈ queue (x.state u) v := by
    have idle := idle u later (.worker v)
    have ready := h.not_ready fair (beyond.trans later) v
    rw [queue]
    change WorkerPc.call ((x.state u).pc (.worker v)) = .idle at idle
    generalize (x.state u).pc (.worker v) = pc at place idle ready
    cases pc with
    | ownCheck j | ownPushBack j => simpa [WorkerPc.queue, WorkerPc.hand, or_comm] using place
    | execute j => exact absurd rfl (ready j)
    | executing j call =>
      obtain rfl : call = .idle := idle
      exact place.resolve_right List.not_mem_nil
    | _ => exact place.resolve_right List.not_mem_nil
  have blocked := h.none_executable fair beyond unheld any later waits
  exact absurd (blocked.symm.trans can) (by simp)

end Spinning

/-- Without `HTL_WAIT_FOR_AVAILABLE_JOBS` too, the workers move for the last time. -/
theorem spinning_end (any : c.waitForAvailableJobs = false) (fair : x.Fair able stepOf) {k : Nat}
    (heard : Prompted x k) :
    ∃ m, ∀ u a, m ≤ u → x.action u = some a → ∀ w, a.1 ≠ .worker w := by
  obtain ⟨m, h⟩ := spinning heard
  obtain ⟨k₁, after₁, idle⟩ := h.idle fair
  obtain ⟨k₂, after₂, unheld⟩ := h.free fair any
  have beyond : m ≤ max k₁ k₂ := after₁.trans (Nat.le_max_left ..)
  have none {u : Nat} (later : max k₁ k₂ ≤ u) (w : Fin N) : queue (x.state u) w = [] :=
    h.queue_empty fair beyond (fun v after => unheld v ((Nat.le_max_right ..).trans after)) any
      (fun v after => idle v ((Nat.le_max_left ..).trans after)) later
  obtain ⟨m', rest⟩ := Machine.Course.together (P := fun w u => ∀ a, x.action u = some a →
      ¬ a.1 = .worker w) fun w => by
    obtain ⟨m', _, rests⟩ := h.stops (w := w) any beyond fun u a later taken own => by
      have none := none later w
      rw [queue] at none
      generalize (x.state u).pc (.worker w) = pc at none
      cases pc with
      | checkJobs | waitJobs =>
        change ((x.state u).shared.mJobDeque w).mJobDeque = [] at none
        simp [Worker.finds, any, none]
      | _ => rfl
    exact ⟨m', fun u later a taken => rests u a later taken⟩
  exact ⟨m', fun u a later taken w => rest u later w a taken⟩

/-- Under a fair schedule in which nobody shuts down and spurious wake-ups come to an
end, every job of every frame is finished, and the runner ends. -/
theorem all_finish (x : (machine c).Course noShutDown) (fair : x.Fair able stepOf)
    (heard : ∃ k, Prompted x k) :
    ∃ k, (∃ later, (x.state k).pc .runner = .left later) ∧
      ∀ job ∈ c.frames.flatten, .finished job ∈ (x.state k).shared.jobs.log := by
  obtain ⟨k, heard⟩ := heard
  cases waits : c.waitForAvailableJobs with
  | true =>
    obtain ⟨m, _, still⟩ := waiting_end waits heard
    exact finished_of_still fair still
  | false =>
    obtain ⟨m, still⟩ := spinning_end waits fair heard
    exact finished_of_still fair still

/-- Two workers and a spurious wake-up; then the scan of the runner. -/
theorem all_finish_pair : ∃ x : (machine pairConfig).Course noShutDown,
    ∃ k, (∃ later, (x.state k).pc .runner = .left later) ∧
      ∀ job ∈ pairConfig.frames.flatten, .finished job ∈ (x.state k).shared.jobs.log := by
  have run : ((machine pairConfig).exec noShutDown (restRun 0 1 ++ steps 8 .runner)
      (machine pairConfig).start).map (fun s => (decide (Blocked s 0), decide (Blocked s 1),
        s.pc .runner, s.pc .main)) = some (true, true, .left ⟨0, []⟩, .waitForKey) := by
    decide +kernel
  obtain ⟨s, hs, same⟩ := Option.map_eq_some_iff.mp run
  simp only [Prod.mk.injEq, decide_eq_true_eq] at same
  obtain ⟨blocked0, blocked1, runner, main⟩ := same
  have blocked (w : Fin 2) : Blocked s w := by
    match w with
    | 0 => exact blocked0
    | 1 => exact blocked1
  have dead (v : Thread 2) : ¬ (machine pairConfig).Able able (stepOf v) s := by
    rintro ⟨⟨u, random⟩, t, rfl, ⟨serves, heard⟩, move⟩
    obtain ⟨pc, shared, took, _⟩ := step_cases move
    cases u with
    | worker w => exact heard w rfl (blocked w)
    | runner =>
      rw [code, runner] at took
      cases took
    | main => exact serves rfl main
  refine ⟨.stop hs, all_finish (.stop hs) (Machine.Course.stop_fair hs dead) ?_⟩
  refine ⟨(restRun 0 1 ++ steps 8 .runner).length, fun u a later taken => ?_⟩
  have beyond : (restRun 0 1 ++ steps 8 .runner)[u]? = none := List.getElem?_eq_none_iff.mpr later
  exact absurd (beyond.symm.trans taken) (by simp)

end System
end JobStealer
