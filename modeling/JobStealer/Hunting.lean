import JobStealer.Settling

/-!
# Workers that get to a job

When the others rest, a worker with an executable job in its deque gets to it
(`hunts`), also if its searches have to turn the deque first: every job in front of
that one costs a round of the loop. If the worker sleeps, one at the top of its loop
looks through the deques before it waits, and wakes it (`wakes`).
-/

namespace JobStealer
open Interleaving

variable {n N : Nat}

namespace WorkerPc

/-- On the way round the loop to a job in the own deque, which holds `more` than one. -/
def hunting (more : Bool) : WorkerPc n N → Bool
  | whileRunning | checkJobs | raiseFlag | waitLock | waitJobs | waitRunning true | waitBlocked
  | waitUnlock | ownSize | ownCheck _ | ownPushBack _ | ownSizeAgain | ownPopAgain | steal
  | stealRandom | stealPop _ | lowerFlag => true
  | ownPop allow => allow = more
  | _ => false

/-- Through with its own deque, and looking at the others'. -/
def looking : WorkerPc n N → Bool
  | checkJobs | checkJobSystem | wakeThreads _ | wakeLock _ | wakeNotify _ | wakeUnlock _ => true
  | _ => false

/-- The steps to the next `PopFront` that may take any job. -/
def trail : WorkerPc n N → Nat
  | ownCheck _ => 20
  | ownPushBack _ => 19
  | ownSizeAgain => 18
  | ownPopAgain => 17
  | steal => 16
  | stealRandom => 15
  | stealPop _ | waitBlocked => 14
  | waitLock => 13
  | waitJobs => 12
  | waitRunning _ => 11
  | lowerFlag | waitUnlock => 10
  | whileRunning => 9
  | checkJobs => 8
  | raiseFlag => 7
  | ownSize => 6
  | _ => 5

end WorkerPc

/-! ## A worker gets to an executable job of its own -/

section Code
variable (c : Config n N) {g : Graph n}

/-- The worker has one in its deque and is on its way to it. -/
structure Worker.Hunts (w : Fin N) (s : Shared g N) (pc : WorkerPc n N) : Prop where
  own : (s.mJobDeque w).mJobDeque.any s.jobs.canExecute = true
  inside : pc.hunting (decide ((s.mJobDeque w).size > 1)) = true

/-- The worker has got hold of an executable job. -/
def Worker.Found (s : Shared g N) (pc : WorkerPc n N) : Prop :=
  (∃ job, pc = .execute job) ∨ ∃ job, pc = .ownCheck job ∧ s.jobs.canExecute job = true

/-- Every job in front of the first executable one takes a round of the loop. -/
def Worker.distance (w : Fin N) (s : Shared g N) (pc : WorkerPc n N) : Nat :=
  16 * (s.mJobDeque w).mJobDeque.findIdx s.jobs.canExecute + pc.trail

variable {s s' : Shared g N} {w : Fin N} {pc pc' : WorkerPc n N} {t : Thread N} {random : Nat}

/-- A step that leaves the deque and the answers of `CanExecute` alone. -/
theorem Worker.Hunts.same (h : Worker.Hunts w s pc) (deque : s'.mJobDeque w = s.mJobDeque w)
    (can : s'.jobs.canExecute = s.jobs.canExecute)
    (inside : pc'.hunting (decide ((s.mJobDeque w).size > 1)) = true)
    (less : pc'.trail < pc.trail) :
    Worker.Hunts w s' pc' ∧ Worker.distance w s' pc' < Worker.distance w s pc := by
  refine ⟨⟨?_, ?_⟩, ?_⟩
  · rw [deque, can]
    exact h.own
  · rwa [deque]
  · rw [Worker.distance, Worker.distance, deque, can]
    omega

/-- With no other thread in its way, the worker comes nearer to a job. -/
theorem Worker.hunts_nearer (random : Nat) (running : s.flag (.mRunning w) = true)
    (free : pc = .waitLock → s.mAwakeMutex w = none) (h : Worker.Hunts w s pc)
    (unfound : ¬ Worker.Found s pc) : ∃ pc' s',
      (Worker.code c w pc).exec t random s = some (pc', s') ∧ pc' ≠ .waitBlocked ∧
      (Worker.Found s' pc' ∨
        Worker.Hunts w s' pc' ∧ Worker.distance w s' pc' < Worker.distance w s pc) := by
  have has : (s.mJobDeque w).hasExecutableJobs s.jobs.canExecute = true := by
    rw [LockingDeque.hasExecutableJobs_eq]
    exact h.own
  have filled : 0 < (s.mJobDeque w).size := by
    rw [LockingDeque.size_eq]
    obtain ⟨job, inside, _⟩ := List.any_eq_true.mp h.own
    exact List.length_pos_of_mem inside
  cases pc with
  | whileRunning =>
    refine ⟨.checkJobs, s, by simp [Worker.code, Instr.exec, running], by simp, .inr ?_⟩
    exact h.same rfl rfl rfl (Nat.lt_succ_self _)
  | checkJobs =>
    refine ⟨.raiseFlag, s, ?_, by simp, .inr ?_⟩
    · simp only [Worker.code]
      split
      · simp [Instr.exec, has]
      · simp [Instr.exec, Nat.ne_of_gt filled]
    · exact h.same rfl rfl rfl (Nat.lt_succ_self _)
  | raiseFlag =>
    exact ⟨.ownSize, _, rfl, by simp, .inr (h.same rfl rfl rfl (Nat.lt_succ_self _))⟩
  | waitLock =>
    refine ⟨.waitJobs, _, if_pos (free rfl), by simp, .inr ?_⟩
    exact h.same rfl rfl rfl (Nat.lt_succ_self _)
  | waitJobs =>
    refine ⟨.waitRunning true, s, ?_, by simp, .inr ?_⟩
    · simp only [Worker.code]
      split
      · simp [Instr.exec, has]
      · simp [Instr.exec, filled]
    · exact h.same rfl rfl rfl (Nat.lt_succ_self _)
  | waitRunning available =>
    cases available with
    | false => cases h.inside
    | true =>
      refine ⟨.waitUnlock, s, rfl, by simp, .inr ?_⟩
      exact h.same rfl rfl rfl (Nat.lt_succ_self _)
  | waitBlocked =>
    exact ⟨.waitLock, _, rfl, by simp, .inr (h.same rfl rfl rfl (Nat.lt_succ_self _))⟩
  | waitUnlock =>
    refine ⟨.raiseFlag, _, rfl, by simp, .inr (h.same rfl rfl rfl ?_)⟩
    simp [WorkerPc.trail]
  | ownSize =>
    refine ⟨.ownPop (decide ((s.mJobDeque w).size > 1)), s, rfl, by simp, .inr ?_⟩
    exact h.same rfl rfl (by simp [WorkerPc.hunting]) (Nat.lt_succ_self _)
  | ownPop allow =>
    have all : allow = decide ((s.mJobDeque w).size > 1) := by
      simpa [WorkerPc.hunting] using h.inside
    rcases (s.mJobDeque w).popFront_cases s.jobs.canExecute allow with
      ⟨_, no⟩ | ⟨job, e, popped, jobs, _⟩
    · -- a single job, and not the executable one
      exfalso
      have own := h.own
      rw [LockingDeque.size_eq] at all filled
      generalize (s.mJobDeque w).mJobDeque = q at no own all filled
      cases q with
      | nil => exact absurd filled (Nat.lt_irrefl 0)
      | cons job rest =>
        have refused := no job rfl
        simp only [Bool.or_eq_false_iff] at refused
        obtain ⟨rfl, blocked⟩ := refused
        have single : rest = [] := by
          simpa using all
        subst single
        simp [blocked] at own
    · have deque : (Function.update s.mJobDeque w e w).mJobDeque = e.mJobDeque := by
        rw [Function.update_self]
      refine ⟨.ownCheck job, _, by simp only [Worker.code, Instr.exec, popped]; rfl, by simp, ?_⟩
      cases can : s.jobs.canExecute job with
      | true => exact .inl (.inr ⟨job, rfl, by simpa using can⟩)
      | false =>
        right
        have own := h.own
        rw [jobs, List.any_cons, can, Bool.false_or] at own
        refine ⟨⟨by simpa using own, rfl⟩, ?_⟩
        simp only [Worker.distance, jobs, List.findIdx_cons, can, cond_false, WorkerPc.trail,
          Jobs.observe_canExecute, deque]
        omega
  | ownCheck job =>
    have blocked : s.jobs.canExecute job = false := by
      by_contra can
      exact unfound (.inr ⟨job, rfl, (Bool.not_eq_false _).mp can⟩)
    refine ⟨.ownPushBack job, s, ?_, by simp, .inr ?_⟩
    · simp [Worker.code, Instr.exec, blocked, Jobs.observe]
    · exact h.same rfl rfl rfl (Nat.lt_succ_self _)
  | ownPushBack job =>
    have first := List.findIdx_lt_length_of_exists (List.any_eq_true.mp h.own)
    refine ⟨.ownSizeAgain, _, rfl, by simp, .inr ⟨⟨?_, rfl⟩, ?_⟩⟩
    · have own := h.own
      simp [own]
    · simp only [Worker.distance, Function.update_self, LockingDeque.pushBack_mJobDeque,
        List.findIdx_append, first, if_true, WorkerPc.trail]
      omega
  | ownSizeAgain =>
    by_cases more : (s.mJobDeque w).size > 1
    · refine ⟨.ownPopAgain, s, by simp [Worker.code, Instr.exec, more], by simp, .inr ?_⟩
      exact h.same rfl rfl rfl (Nat.lt_succ_self _)
    · refine ⟨.steal, s, by simp [Worker.code, Instr.exec, more], by simp, .inr ?_⟩
      exact h.same rfl rfl rfl (by simp [WorkerPc.trail])
  | ownPopAgain =>
    rcases (s.mJobDeque w).popFront_cases s.jobs.canExecute false with
      ⟨popped, _⟩ | ⟨job, e, popped, _, _⟩
    · refine ⟨.steal, s, ?_, by simp, .inr (h.same rfl rfl rfl (Nat.lt_succ_self _))⟩
      simp [Worker.code, Instr.exec, popped, Jobs.observe]
    · refine ⟨.execute job, _, by simp only [Worker.code, Instr.exec, popped]; rfl, by simp, ?_⟩
      exact .inl (.inl ⟨job, rfl⟩)
  | steal =>
    by_cases alone : (!s.flag (.JobSystem w) || decide (N < 2)) = true
    · refine ⟨.lowerFlag, s, by simp only [Worker.code, Instr.exec, alone, if_true], by simp,
        .inr (h.same rfl rfl rfl (by simp [WorkerPc.trail]))⟩
    · refine ⟨.stealRandom, s, by simp only [Worker.code, Instr.exec, if_neg alone], by simp,
        .inr (h.same rfl rfl rfl (by simp [WorkerPc.trail]))⟩
  | stealRandom =>
    exact ⟨_, s, rfl, by simp, .inr (h.same rfl rfl rfl (Nat.lt_succ_self _))⟩
  | stealPop i =>
    rcases (s.mJobDeque i).popBack_cases s.jobs.canExecute with
      ⟨popped, _⟩ | ⟨job, e, popped, _, _⟩
    · refine ⟨.lowerFlag, s, ?_, by simp, .inr (h.same rfl rfl rfl (by simp [WorkerPc.trail]))⟩
      simp [Worker.code, Instr.exec, popped, Jobs.observe]
    · refine ⟨.execute job, _, by simp only [Worker.code, Instr.exec, popped]; rfl, by simp, ?_⟩
      exact .inl (.inl ⟨job, rfl⟩)
  | lowerFlag =>
    exact ⟨.whileRunning, _, rfl, by simp, .inr (h.same rfl rfl rfl (Nat.lt_succ_self _))⟩
  | _ => cases h.inside

end Code

namespace System
variable {c : Config n N} {s t u : State c} {w : Fin N}

/-- Nothing is in the way of worker `w`: no scan has begun, and nobody else holds a mutex. -/
structure Unhindered (s : State c) (w : Fin N) : Prop where
  unscanned : Unscanned s
  free : ∀ t, t ≠ .worker w → locksOf t (s.pc t) = none

theorem Unhindered.move (h : Unhindered s w) (pc : Pc n N (.worker w))
    (shared : Shared c.graph N) : Unhindered (s.move (.worker w) pc shared) w where
  unscanned v := by
    rw [s.move_other pc shared (by simp)]
    exact h.unscanned v
  free t other := by
    rw [s.move_other pc shared other]
    exact h.free t other

theorem Unhindered.mutex (h : Unhindered s w) (run : (machine c).Reach noShutDown s)
    (free : WorkerPc.locks w (s.pc (.worker w)) = none) (i : Fin N) :
    s.shared.mAwakeMutex i = none := by
  cases owner : s.shared.mAwakeMutex i with
  | none => rfl
  | some v =>
    have held := own_locks run owner
    by_cases own : v = .worker w
    · subst own
      exact absurd (free.symm.trans held) (by simp)
    · exact absurd ((h.free v own).symm.trans held) (by simp)

/-- A worker that has got hold of a job comes to execute it. -/
theorem found_executes (clear : Unhindered s w) (found : Worker.Found s.shared (s.pc (.worker w))) :
    ∃ t job, Leads s t ∧ Unhindered t w ∧ t.pc (.worker w) = .execute job := by
  rcases found with ⟨job, here⟩ | ⟨job, here, can⟩
  · exact ⟨s, job, .refl s, clear, here⟩
  · have awake : ¬ Blocked s w := fun blocked => by
      rw [blocked.1] at here
      cases here
    have took : (code c (.worker w) (s.pc (.worker w))).exec (.worker w) 0 s.shared =
        some (.execute job, { s.shared with jobs := s.shared.jobs.observe (some job) }) := by
      simp [here, code, Worker.code, Instr.exec, can]
    exact ⟨_, job, .step (calm_worker clear.unscanned awake 0) (step_eq took), clear.move ..,
      s.move_self ..⟩

theorem Settled.unhindered (h : Settled s) (w : Fin N) : Unhindered s w := by
  refine ⟨unscanned_of_rest h.runner, fun t other => ?_⟩
  cases t with
  | worker v =>
    rcases h.worker v with here | here <;>
    · rw [here]
      rfl
  | runner =>
    rcases h.runner with ⟨later, here⟩ | ⟨later, here⟩ <;>
    · rw [here]
      rfl
  | main =>
    rw [h.main]
    rfl

/-- A worker on its way to a job gets to it. -/
theorem hunts (run : (machine c).Reach noShutDown s) (clear : Unhindered s w)
    (hunts : Worker.Hunts w s.shared (s.pc (.worker w))) (awake : ¬ Blocked s w) :
    ∃ t job, Leads s t ∧ Unhindered t w ∧ t.pc (.worker w) = .execute job := by
  generalize far : Worker.distance w s.shared (s.pc (.worker w)) = d
  induction d using Nat.strongRecOn generalizing s with
  | ind d ih =>
    by_cases unfound : Worker.Found s.shared (s.pc (.worker w))
    · exact found_executes clear unfound
    have free (here : s.pc (.worker w) = .waitLock) : s.shared.mAwakeMutex w = none :=
      clear.mutex run (by rw [here]; rfl) w
    obtain ⟨pc, shared, took, unblocked, next⟩ := Worker.hunts_nearer c (t := .worker w) 0
      (mRunning_eq run w) free hunts unfound
    have first : Leads s _ := .step (calm_worker clear.unscanned awake 0)
      (step_eq (v := .worker w) took)
    have clear := clear.move pc shared
    have here := s.move_self (t := .worker w) pc shared
    rcases next with got | ⟨again, less⟩
    · obtain ⟨t, job, rest, now⟩ := found_executes clear (by rwa [here])
      exact ⟨t, job, first.trans rest, now⟩
    · obtain ⟨t, job, rest, now⟩ := ih _ (far ▸ less) (first.reach run) clear (by rwa [here])
        (fun blocked => unblocked (here.symm.trans blocked.1)) (by rw [here]; rfl)
      exact ⟨t, job, first.trans rest, now⟩

/-! ## A worker is woken -/

end System

section Code
variable (c : Config n N) {g : Graph n}

theorem Worker.looking_keeps {v : Fin N} {pc : WorkerPc n N} (h : pc.looking = true) :
    (Worker.code c v pc).Keeps ∧ (∀ w, (Worker.code c v pc).pushes w = false) ∧
      ∀ w next, Worker.code c v pc ≠ .wait w next := by
  cases pc <;> grind [Worker.code, WorkerPc.looking, Instr.Keeps, Instr.pushes]

theorem Worker.looking_restless {pc : WorkerPc n N} (h : pc.looking = true) :
    0 < pc.restless c := by
  cases pc <;> grind [WorkerPc.looking, WorkerPc.restless, WorkerPc.remaining]

/-- A worker with nothing executable of its own goes on looking, while it owes
somebody a look or has just notified somebody. -/
theorem Worker.looking_step {v w : Fin N} {pc pc' : WorkerPc n N} {t : Thread N} {random : Nat}
    {s s' : Shared g N} (waits : c.waitForAvailableJobs = true)
    (set : s.flag (.JobSystem v) = true)
    (bare : (s.mJobDeque v).mJobDeque.any s.jobs.canExecute = false)
    (look : pc.looking = true) (more : pc.owes w = true ∨ pc.locks v ≠ none)
    (took : (Worker.code c v pc).exec t random s = some (pc', s')) : pc'.looking = true := by
  cases pc with
  | checkJobs =>
    rw [← LockingDeque.hasExecutableJobs_eq] at bare
    simp only [Worker.code, waits, if_true] at took
    cases took
    rw [bare]
    rfl
  | checkJobSystem =>
    cases took
    rw [set]
    rfl
  | wakeThreads i =>
    have behind : i ≤ w.val := by simpa [WorkerPc.owes, WorkerPc.locks] using more
    have inside : i < N := by omega
    simp only [Worker.code, dif_pos inside] at took
    cases took
    dsimp only
    split <;> rfl
  | wakeLock i | wakeNotify i | wakeUnlock i =>
    refine Instr.All.exec (P := fun pc => pc.looking = true) ?_ took
    rfl
  | _ => cases look

end Code

namespace System
variable {c : Config n N} {s t u : State c} {v w : Fin N}

/-- Worker `v` looks through the deques of the others, which stay as they are in `s`,
until it has notified worker `w`. -/
structure Wakes (s : State c) (v w : Fin N) (t : State c) : Prop where
  run : (machine c).Reach noShutDown t
  others : ∀ u, u ≠ .worker v → t.pc u = s.pc u
  deques : t.shared.mJobDeque = s.shared.mJobDeque
  can : t.shared.jobs.canExecute = s.shared.jobs.canExecute
  look : WorkerPc.looking (t.pc (.worker v)) = true
  owes : WorkerPc.owes w (t.pc (.worker v)) = true ∨ t.shared.mAwakeCondition w ≠ .asleep

theorem Wakes.unhindered (h : Wakes s v w t) (clear : Unhindered s v) : Unhindered t v where
  unscanned x := by
    rw [h.others .runner (by simp)]
    exact clear.unscanned x
  free u other := by
    rw [h.others u other]
    exact clear.free u other

theorem Wakes.nearer (waits : c.waitForAvailableJobs = true) (ready : s.pc .main = .waitForKey)
    (clear : Unhindered s v)
    (bare : (s.shared.mJobDeque v).mJobDeque.any s.shared.jobs.canExecute = false)
    (has : (s.shared.mJobDeque w).mJobDeque.any s.shared.jobs.canExecute = true)
    (h : Wakes s v w t) (unwoken : ¬ (t.shared.mAwakeCondition w ≠ .asleep ∧
      WorkerPc.locks v (t.pc (.worker v)) = none)) :
    ∃ u, Leads t u ∧ Wakes s v w u ∧
      WorkerPc.restless c (u.pc (.worker v)) < WorkerPc.restless c (t.pc (.worker v)) := by
  have clear := h.unhindered clear
  obtain ⟨u, move⟩ : ∃ u, (machine c).step (.worker v, 0) t = some u := by
    rcases worker_moves h.run v (not_left h.run v).2 with moves | ⟨i, x, other, owner, _⟩
    · exact moves
    · exact absurd ((clear.free x other).symm.trans (own_locks h.run owner)) (by simp)
  have awake : ¬ Blocked t v := fun blocked => by
    have look := h.look
    rw [blocked.1] at look
    cases look
  have way : Leads t u := .step (calm_worker clear.unscanned awake 0) move
  refine ⟨u, way, ?_⟩
  obtain ⟨pc, shared, took, rfl⟩ := step_cases move
  obtain ⟨keeps, quiet, waitless⟩ := Worker.looking_keeps c (v := v) h.look
  have set : t.shared.flag (.JobSystem v) = true := by
    rw [JobSystem_eq h.run v, h.others .main (by simp), ready]
    rfl
  have more : WorkerPc.owes w (t.pc (.worker v)) = true ∨
      WorkerPc.locks v (t.pc (.worker v)) ≠ none := by
    by_contra neither
    obtain ⟨paid, unlocked⟩ := not_or.mp neither
    exact unwoken ⟨h.owes.resolve_left paid, not_not.mp unlocked⟩
  refine ⟨⟨way.reach h.run, ?_, ?_, ?_, ?_, ?_⟩, ?_⟩
  · intro x other
    rw [t.move_other pc shared other]
    exact h.others x other
  · funext i
    exact (keeps.same (quiet i) took).trans (congrFun h.deques i)
  · exact (keeps.exec took v).1.trans h.can
  · rw [t.move_self]
    exact Worker.looking_step c waits set (by rwa [h.deques, h.can]) h.look more took
  · rw [t.move_self]
    by_cases asleep : shared.mAwakeCondition w = .asleep
    · left
      have before : t.shared.mAwakeCondition w = .asleep := by
        apply (Instr.exec_asleep took asleep).resolve_right
        rintro ⟨next, wait⟩
        exact waitless w next wait
      have owed := h.owes.resolve_right (not_not.mpr before)
      rcases Worker.owes_step c waits (mRunning_eq h.run v) took owed with
        still | notify | unset | none
      · exact still
      · rw [code, notify] at took
        exact absurd asleep (not_asleep_of_notify took)
      · exact absurd (unset.symm.trans set) (by simp)
      · rw [h.deques, h.can, has] at none
        cases none
    · exact .inr asleep
  · rw [t.move_self]
    exact Worker.step_restless c (Worker.looking_restless c h.look) took

/-- A worker at the top of its loop, with nothing executable of its own, wakes a worker
that sleeps over an executable job. -/
theorem wakes (waits : c.waitForAvailableJobs = true) (run : (machine c).Reach noShutDown s)
    (settled : Settled s) (top : s.pc (.worker v) = .whileRunning) (asleep : Blocked s w)
    (bare : (s.shared.mJobDeque v).mJobDeque.any s.shared.jobs.canExecute = false)
    (has : (s.shared.mJobDeque w).mJobDeque.any s.shared.jobs.canExecute = true) :
    ∃ t, Leads s t ∧ Unhindered t w ∧ ¬ Blocked t w ∧
      Worker.Hunts w t.shared (t.pc (.worker w)) := by
  have apart : w ≠ v := by
    rintro rfl
    exact absurd (bare.symm.trans has) (by simp)
  have took : (code c (.worker v) (s.pc (.worker v))).exec (.worker v) 0 s.shared =
      some (.checkJobs, s.shared) := by
    simp [code, top, Worker.code, Instr.exec, mRunning_eq run v]
  have awake : ¬ Blocked s v := fun blocked => by
    rw [blocked.1] at top
    cases top
  have clear := settled.unhindered v
  have first : Leads s _ := .step (calm_worker clear.unscanned awake 0) (step_eq took)
  have begun : Wakes s v w (s.move (.worker v) .checkJobs s.shared) := by
    refine ⟨first.reach run, fun u other => s.move_other _ _ other, rfl, rfl, ?_, .inl ?_⟩ <;>
      rw [s.move_self] <;> rfl
  obtain ⟨t, rest, woken, awake, free⟩ := Machine.exists_reach
    (fun t => WorkerPc.restless c (t.pc (.worker v)))
    (fun t h unwoken => h.nearer waits settled.main clear bare has unwoken) begun
  refine ⟨t, first.trans rest, ⟨(woken.unhindered clear).unscanned, fun u other => ?_⟩,
    fun blocked => awake blocked.2, ⟨by rwa [woken.deques, woken.can], ?_⟩⟩
  · by_cases own : u = .worker v
    · subst own
      exact free
    · exact (woken.unhindered clear).free u own
  · rw [woken.others (.worker w) (by simpa using apart), asleep.1]
    rfl

end System
end JobStealer
