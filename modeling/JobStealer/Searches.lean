import JobStealer.Completion

/-!
# How often workers search

With `HTL_WAIT_FOR_AVAILABLE_JOBS` a worker calls `GetJob` only after it saw an executable
job in its deque. A call that returns nothing has brought that job nearer to the front,
or another worker has taken it. So the calls are bounded over a whole run, however often
workers wake spuriously (`searches_bounded`).

`WorkerPc.rounds` counts the searches a worker can still begin before a job is added or
taken, `credit` those of the whole run. A step pays for what it begins (`step_credit`).
-/

namespace JobStealer
open Interleaving

variable {n N : Nat}

namespace WorkerPc
variable (can : Fin n → Bool) (q : List (Fin n))

/-- The deque, with the job the worker looks at and may put back. -/
def queue : WorkerPc n N → List (Fin n)
  | ownCheck job => job :: q
  | ownPushBack job => q ++ [job]
  | _ => q

/-- The worker is at a pop or push, or about to be at one with a job in its hands. -/
def handles : WorkerPc n N → Bool
  | ownPop _ | ownCheck _ | ownPushBack _ | ownPopAgain | stealPop _ => true
  | _ => false

/-- The worker saw an executable job, has not turned the deque yet, and still has one. -/
def sees : WorkerPc n N → Bool
  | waitRunning true | waitUnlock | raiseFlag | ownSize | ownPop true => q.any can
  | ownPop false => q.head?.any can
  | ownCheck job => can job || q.any can
  | _ => false

/-- Every job in front of the first executable one costs a search, and so does that
one, unless the search for it has begun. -/
def rounds (pc : WorkerPc n N) : Nat :=
  (pc.queue q).findIdx can + if pc.sees can q then 0 else 1

variable {can q} {can' : Fin n → Bool} {pc : WorkerPc n N}

theorem rounds_le (pc : WorkerPc n N) (can : Fin n → Bool) (q : List (Fin n)) :
    pc.rounds can q ≤ (pc.queue q).length + 1 := by
  have : (pc.queue q).findIdx can ≤ (pc.queue q).length := List.findIdx_le_length
  simp only [rounds]
  split <;> omega

theorem sees_mono (h : ∀ job ∈ pc.queue q, can job = true → can' job = true)
    (sees : pc.sees can q = true) : pc.sees can' q = true := by
  have any (inside : ∀ job ∈ q, can job = true → can' job = true) (some : q.any can = true) :
      q.any can' = true := by
    obtain ⟨job, here, yes⟩ := List.any_eq_true.mp some
    exact List.any_eq_true.mpr ⟨job, here, inside job here yes⟩
  cases pc with
  | waitRunning available =>
    cases available with
    | true => exact any h sees
    | false => cases sees
  | waitUnlock | raiseFlag | ownSize => exact any h sees
  | ownPop allow =>
    cases allow with
    | true => exact any h sees
    | false =>
      cases q with
      | nil => cases sees
      | cons job rest => exact h job (List.mem_cons_self ..) sees
  | ownCheck job =>
    rcases Bool.or_eq_true_iff.mp sees with yes | some
    · exact Bool.or_eq_true_iff.mpr (.inl (h job (List.mem_cons_self ..) yes))
    · exact Bool.or_eq_true_iff.mpr
        (.inr (any (fun j inside => h j (List.mem_cons_of_mem _ inside)) some))
  | _ => cases sees

/-- Jobs becoming executable bring no search. -/
theorem rounds_mono (h : ∀ job ∈ pc.queue q, can job = true → can' job = true) :
    pc.rounds can' q ≤ pc.rounds can q := by
  have nearer := List.findIdx_le_findIdx h
  have still := sees_mono h
  simp only [rounds]
  split <;> split <;> grind

/-- Turning the deque past a job that cannot be executed is what the search was for. -/
theorem rounds_turn {job : Fin n} (blocked : can job = false) :
    rounds can q (ownPushBack job : WorkerPc n N) ≤ rounds can q (ownCheck job : WorkerPc n N) := by
  have first : q.findIdx can < q.length ↔ ∃ job ∈ q, can job := List.findIdx_lt_length
  have last : q.findIdx can ≤ q.length := List.findIdx_le_length
  simp only [rounds, queue, sees, blocked, List.findIdx_append, List.findIdx_cons, List.findIdx_nil,
    Bool.false_or, cond_false, Bool.false_eq_true, if_false]
  grind

theorem length_queue (pc : WorkerPc n N) (q : List (Fin n)) :
    (pc.queue q).length = q.length + (pc.queue []).length := by
  cases pc <;> simp [queue]

/-- A job put in brings two at most. -/
theorem rounds_insert (can : Fin n → Bool) {before after r : List (Fin n)} {job : Fin n}
    (was : pc.queue q = before ++ after) (now : pc.queue r = before ++ job :: after) :
    pc.rounds can r ≤ pc.rounds can q + 2 := by
  have further : (before ++ job :: after).findIdx can ≤ (before ++ after).findIdx can + 1 := by
    simp only [List.findIdx_append, List.findIdx_cons]
    grind
  simp only [rounds, was, now]
  split <;> split <;> omega

/-- Where a push puts the job. -/
theorem queue_push (pc : WorkerPc n N) (q : List (Fin n)) {r : List (Fin n)} {job : Fin n}
    (pushed : r = job :: q ∨ r = q ++ [job]) :
    ∃ before after, pc.queue q = before ++ after ∧ pc.queue r = before ++ job :: after := by
  cases pc with
  | ownCheck j =>
    rcases pushed with rfl | rfl
    · exact ⟨[j], q, rfl, rfl⟩
    · exact ⟨j :: q, [], (List.append_nil _).symm, rfl⟩
  | ownPushBack j =>
    rcases pushed with rfl | rfl
    · exact ⟨[], q ++ [j], rfl, rfl⟩
    · exact ⟨q, [j], rfl, List.append_assoc ..⟩
  | _ =>
    rcases pushed with rfl | rfl
    · exact ⟨[], q, rfl, rfl⟩
    · exact ⟨q, [], (List.append_nil _).symm, rfl⟩

end WorkerPc

/-- A step that neither pushes nor clears leaves a deque alone, or takes a job from it. -/
theorem Instr.exec_takes {α : Type} {g : Graph n} {instr : Instr n N α} {t : Thread N}
    {random : Nat} {s s' : Shared g N} {x : α} {w : Fin N} (quiet : instr.pushes w = false)
    (whole : ∀ i next, instr ≠ .clear i next) (move : instr.exec t random s = some (x, s')) :
    s'.mJobDeque w = s.mJobDeque w ∨
      (s'.mJobDeque w).mJobDeque.length + 1 = (s.mJobDeque w).mJobDeque.length := by
  have at_ {i : Fin N} {e : LockingDeque (Fin n)}
      (taken : e = s.mJobDeque i ∨ e.mJobDeque.length + 1 = (s.mJobDeque i).mJobDeque.length) :
      Function.update s.mJobDeque i e w = s.mJobDeque w ∨
        (Function.update s.mJobDeque i e w).mJobDeque.length + 1 =
          (s.mJobDeque w).mJobDeque.length := by
    by_cases here : w = i
    · subst here
      rwa [Function.update_self]
    · exact .inl (Function.update_of_ne here ..)
  cases instr with
  | popFront i allow next =>
    cases move
    apply at_
    rcases (s.mJobDeque i).popFront_cases s.jobs.canExecute allow with
      ⟨popped, _⟩ | ⟨job, e, popped, jobs, _⟩
    · exact .inl (congrArg Prod.snd popped)
    · exact .inr (by rw [popped, jobs]; rfl)
  | popBack i next =>
    cases move
    apply at_
    rcases (s.mJobDeque i).popBack_cases s.jobs.canExecute with
      ⟨popped, _⟩ | ⟨job, e, popped, jobs, _⟩
    · exact .inl (congrArg Prod.snd popped)
    · exact .inr (by rw [popped, jobs, List.length_append]; rfl)
  | clear i next => exact absurd rfl (whole i next)
  | call c next =>
    obtain ⟨_, _, _, _, rfl⟩ := exec_call move
    exact .inl rfl
  | _ =>
    refine .inl (Keeps.same ?_ quiet move)
    trivial

namespace Worker

/-- Worker `w` is about to find an executable job in its deque. -/
def begins {g : Graph n} (w : Fin N) (s : Shared g N) : WorkerPc n N → Nat
  | .checkJobs | .waitJobs => if (s.mJobDeque w).mJobDeque.any s.jobs.canExecute then 1 else 0
  | _ => 0

/-- The searches left to worker `w` with the jobs it has now; each of them may cost
another `m` when it is taken. -/
def share {g : Graph n} (m : Nat) (w : Fin N) (s : Shared g N) (pc : WorkerPc n N) : Nat :=
  (m + 1) * (pc.queue (s.mJobDeque w).mJobDeque).length +
    pc.rounds s.jobs.canExecute (s.mJobDeque w).mJobDeque

section Code
variable (c : Config n N) {g : Graph n} {s s' : Shared g N} {v w : Fin N} {m : Nat}
variable {pc pc' : WorkerPc n N} {t : Thread N} {random : Nat}

theorem code_unhandled (other : pc.handles = false) : (Worker.code c w pc).All fun next =>
    ∀ q, next.queue q = q := by
  cases pc with
  | executing job call =>
    intro next
    dsimp only
    split <;> exact fun _ => rfl
  | _ => grind [Worker.code, Instr.All, WorkerPc.queue, WorkerPc.handles]

/-- A worker that does not handle a deque leaves them all alone. -/
theorem step_unhandled (other : pc.handles = false)
    (took : (Worker.code c w pc).exec t random s = some (pc', s')) :
    s'.mJobDeque = s.mJobDeque ∧ ∀ q, pc'.queue q = q := by
  refine ⟨?_, (code_unhandled c other).exec took⟩
  cases pc with
  | ownPop allow | ownCheck job | ownPushBack job | ownPopAgain | stealPop i => cases other
  | executing job call =>
    obtain ⟨_, _, _, _, rfl⟩ := Instr.exec_call took
    rfl
  | _ =>
    funext i
    refine Instr.Keeps.same ?_ ?_ took <;> grind [Worker.code, Instr.Keeps, Instr.pushes]

theorem share_eq (m : Nat) (length : (pc'.queue (s'.mJobDeque w).mJobDeque).length =
      (pc.queue (s.mJobDeque w).mJobDeque).length) :
    share m w s' pc' + pc.rounds s.jobs.canExecute (s.mJobDeque w).mJobDeque =
      share m w s pc + pc'.rounds s'.jobs.canExecute (s'.mJobDeque w).mJobDeque := by
  rw [share, share, length]
  omega

/-- Taking a job pays for the searches it may cost. -/
theorem share_take (small : (pc.queue (s.mJobDeque w).mJobDeque).length ≤ m)
    (taken : (pc'.queue (s'.mJobDeque w).mJobDeque).length + 1 =
      (pc.queue (s.mJobDeque w).mJobDeque).length) : share m w s' pc' < share m w s pc := by
  have := pc'.rounds_le s'.jobs.canExecute (s'.mJobDeque w).mJobDeque
  rw [share, share, ← taken, Nat.mul_succ]
  omega

theorem share_mono
    (queue : pc'.queue (s'.mJobDeque w).mJobDeque = pc.queue (s.mJobDeque w).mJobDeque)
    (can : ∀ job ∈ pc.queue (s.mJobDeque w).mJobDeque,
      s.jobs.canExecute job = true → s'.jobs.canExecute job = true)
    (sees : pc.sees s.jobs.canExecute (s.mJobDeque w).mJobDeque = true →
      pc'.sees s.jobs.canExecute (s'.mJobDeque w).mJobDeque = true) :
    share m w s' pc' ≤ share m w s pc := by
  have fewer : pc'.rounds s'.jobs.canExecute (s'.mJobDeque w).mJobDeque ≤
      pc'.rounds s.jobs.canExecute (s'.mJobDeque w).mJobDeque :=
    WorkerPc.rounds_mono (by rwa [queue])
  have still : pc'.rounds s.jobs.canExecute (s'.mJobDeque w).mJobDeque ≤
      pc.rounds s.jobs.canExecute (s.mJobDeque w).mJobDeque := by
    simp only [WorkerPc.rounds, queue]
    split <;> split <;> grind
  have same := share_eq m (congrArg List.length queue)
  omega

/-- A worker that saw an executable job goes for it. -/
theorem share_begins {next : WorkerPc n N}
    (some : (s.mJobDeque w).mJobDeque.any s.jobs.canExecute = true)
    (queue : next.queue (s.mJobDeque w).mJobDeque = pc.queue (s.mJobDeque w).mJobDeque)
    (sees : next.sees s.jobs.canExecute (s.mJobDeque w).mJobDeque =
      (s.mJobDeque w).mJobDeque.any s.jobs.canExecute)
    (unseen : pc.sees s.jobs.canExecute (s.mJobDeque w).mJobDeque = false) :
    share m w s next + 1 ≤ share m w s pc := by
  have same := share_eq m (congrArg List.length queue)
  simp only [WorkerPc.rounds, queue, sees, some, unseen, if_true, Bool.false_eq_true, if_false]
    at same
  omega

/-- A worker sees all there is in its deque. -/
theorem size_of_any (some : (s.mJobDeque w).mJobDeque.any s.jobs.canExecute = true) :
    0 < (s.mJobDeque w).size := by
  rw [LockingDeque.size_eq]
  obtain ⟨job, inside, _⟩ := List.any_eq_true.mp some
  exact List.length_pos_of_mem inside

section Step
variable (small : (pc.queue (s.mJobDeque w).mJobDeque).length ≤ m)
  (kept : ∀ job ∈ pc.queue (s.mJobDeque w).mJobDeque,
    s.jobs.canExecute job = true → s'.jobs.canExecute job = true)
  (took : (Worker.code c w pc).exec t random s = some (pc', s'))
include kept took

/-- The worker looks for a job in its deque. -/
theorem share_look (looks : pc = .checkJobs ∨ pc = .waitJobs) :
    share m w s' pc' + begins w s pc ≤ share m w s pc := by
  have has := LockingDeque.hasExecutableJobs_eq s.jobs.canExecute (s.mJobDeque w)
  cases some : (s.mJobDeque w).mJobDeque.any s.jobs.canExecute with
  | true =>
    rw [some] at has
    have filled := size_of_any some
    rcases looks with rfl | rfl
    · have first : pc' = .raiseFlag ∧ s' = s := by
        simp only [Worker.code] at took
        split at took <;> cases took
        · simp [has]
        · simp [Nat.ne_of_gt filled]
      obtain ⟨rfl, rfl⟩ := first
      simp only [begins, some, if_true]
      exact share_begins some rfl rfl rfl
    · have first : pc' = .waitRunning true ∧ s' = s := by
        simp only [Worker.code] at took
        split at took <;> cases took
        · simp [has]
        · simp [filled]
      obtain ⟨rfl, rfl⟩ := first
      simp only [begins, some, if_true]
      exact share_begins some rfl rfl rfl
  | false =>
    rcases looks with rfl | rfl
    · simp only [begins, some, Bool.false_eq_true, if_false]
      refine share_mono ?_ kept (fun sees => by cases sees)
      simp only [Worker.code] at took
      split at took <;> cases took <;> dsimp only <;> split <;> rfl
    · simp only [begins, some, Bool.false_eq_true, if_false]
      refine share_mono ?_ kept (fun sees => by cases sees)
      simp only [Worker.code] at took
      split at took <;> cases took <;> rfl

/-- It has seen one, and goes for it. -/
theorem share_found (found : pc = .waitRunning true ∨ pc = .waitUnlock ∨ pc = .raiseFlag ∨
    pc = .ownSize) : share m w s' pc' ≤ share m w s pc := by
  rcases found with rfl | rfl | rfl | rfl
  · cases took
    exact share_mono rfl kept id
  · cases took
    exact share_mono rfl kept id
  · cases took
    exact share_mono rfl kept id
  · cases took
    refine share_mono rfl kept fun some => ?_
    have size := LockingDeque.size_eq (s.mJobDeque w)
    simp only [WorkerPc.sees] at some
    by_cases more : (s.mJobDeque w).size > 1
    · simpa [more, WorkerPc.sees] using some
    · simp only [more, decide_false, WorkerPc.sees]
      generalize (s.mJobDeque w).mJobDeque = q at some size
      match q with
      | [] => cases some
      | [job] => simpa using some
      | _ :: _ :: _ =>
        simp only [List.length_cons] at size
        omega

/-- `GetJobFromOwnQueue` takes the first job, or leaves the deque alone. -/
theorem share_pop {allow : Bool} (here : pc = .ownPop allow) :
    share m w s' pc' ≤ share m w s pc := by
  subst here
  rcases (s.mJobDeque w).popFront_cases s.jobs.canExecute allow with
    ⟨popped, no⟩ | ⟨job, e, popped, jobs, yes⟩
  · simp only [Worker.code, Instr.exec, popped] at took
    cases took
    refine share_mono (by simp [WorkerPc.queue]) kept fun sees => ?_
    generalize (s.mJobDeque w).mJobDeque = q at no sees
    cases allow <;> cases q <;> simp_all [WorkerPc.sees]
  · simp only [Worker.code, Instr.exec, popped] at took
    cases took
    refine share_mono (by simp [WorkerPc.queue, jobs]) kept fun sees => ?_
    rw [jobs] at sees
    cases allow with
    | true => simpa [WorkerPc.sees] using sees
    | false => exact Bool.or_eq_true_iff.mpr (.inl sees)

include small

/-- It executes the job or turns the deque. -/
theorem share_check {job : Fin n} (here : pc = .ownCheck job) :
    share m w s' pc' ≤ share m w s pc := by
  subst here
  cases took
  cases can : s.jobs.canExecute job with
  | true => exact (share_take small rfl).le
  | false =>
    have turned := WorkerPc.rounds_turn (N := N) (q := (s.mJobDeque w).mJobDeque) can
    have length : (WorkerPc.queue (N := N) (s.mJobDeque w).mJobDeque (.ownPushBack job)).length =
        (WorkerPc.queue (N := N) (s.mJobDeque w).mJobDeque (.ownCheck job)).length := by
      simp [WorkerPc.queue]
    have same := share_eq m length
    simp only [Bool.false_eq_true, if_false, Jobs.observe]
    change share m w s (.ownPushBack job) ≤ share m w s (.ownCheck job)
    omega

theorem share_popAgain (here : pc = .ownPopAgain) : share m w s' pc' ≤ share m w s pc := by
  subst here
  rcases (s.mJobDeque w).popFront_cases s.jobs.canExecute false with
    ⟨popped, _⟩ | ⟨job, e, popped, jobs, _⟩
  · simp only [Worker.code, Instr.exec, popped] at took
    cases took
    exact share_mono (by simp [WorkerPc.queue]) kept (fun sees => by cases sees)
  · simp only [Worker.code, Instr.exec, popped] at took
    cases took
    refine (share_take small ?_).le
    simp [WorkerPc.queue, jobs]

/-- `StealJobFromOtherQueue`, whoever it steals from. -/
theorem share_steal {i : Fin N} (here : pc = .stealPop i) :
    share m w s' pc' ≤ share m w s pc := by
  subst here
  rcases (s.mJobDeque i).popBack_cases s.jobs.canExecute with
    ⟨popped, _⟩ | ⟨job, e, popped, jobs, _⟩
  · simp only [Worker.code, Instr.exec, popped] at took
    cases took
    exact share_mono (by simp [WorkerPc.queue]) kept (fun sees => by cases sees)
  · simp only [Worker.code, Instr.exec, popped] at took
    cases took
    by_cases own : w = i
    · subst own
      refine (share_take small ?_).le
      simp [WorkerPc.queue, jobs]
    · exact share_mono (by simp [WorkerPc.queue, Function.update_of_ne own]) kept
        (fun sees => by cases sees)

/-- What a search or a job costs the worker that takes the step is paid for. -/
theorem step_share : share m w s' pc' + begins w s pc ≤ share m w s pc := by
  cases pc with
  | checkJobs => exact share_look c kept took (.inl rfl)
  | waitJobs => exact share_look c kept took (.inr rfl)
  | waitRunning available =>
    cases available with
    | true => exact share_found c kept took (.inl rfl)
    | false =>
      cases took
      refine share_mono ?_ kept (fun sees => by cases sees)
      dsimp only
      split <;> rfl
  | waitUnlock => exact share_found c kept took (.inr (.inl rfl))
  | raiseFlag => exact share_found c kept took (.inr (.inr (.inl rfl)))
  | ownSize => exact share_found c kept took (.inr (.inr (.inr rfl)))
  | ownPop allow => exact share_pop c kept took rfl
  | ownCheck job => exact share_check c small kept took rfl
  | ownPushBack job =>
    cases took
    exact share_mono (by simp [WorkerPc.queue]) kept (fun sees => by cases sees)
  | ownPopAgain => exact share_popAgain c small kept took rfl
  | stealPop i => exact share_steal c small kept took rfl
  | _ =>
    obtain ⟨still, queue⟩ := step_unhandled c rfl took
    refine share_mono ?_ kept (fun sees => by cases sees)
    rw [still, queue]
    rfl

end Step

/-- Nor does what another thread does to the deque cost more than it pays. -/
theorem share_other (small : (pc.queue (s.mJobDeque w).mJobDeque).length ≤ m)
    (kept : ∀ job ∈ pc.queue (s.mJobDeque w).mJobDeque,
      s.jobs.canExecute job = true → s'.jobs.canExecute job = true)
    (taken : s'.mJobDeque w = s.mJobDeque w ∨
      (s'.mJobDeque w).mJobDeque.length + 1 = (s.mJobDeque w).mJobDeque.length) :
    share m w s' pc ≤ share m w s pc := by
  rcases taken with same | less
  · exact share_mono (by rw [same]) kept (by rw [same]; exact id)
  · refine (share_take small ?_).le
    have := pc.length_queue (s.mJobDeque w).mJobDeque
    have := pc.length_queue (s'.mJobDeque w).mJobDeque
    omega

theorem share_push (m : Nat) (pc : WorkerPc n N) {job : Fin n}
    (can : s'.jobs.canExecute = s.jobs.canExecute)
    (pushed : (s'.mJobDeque w).mJobDeque = job :: (s.mJobDeque w).mJobDeque ∨
      (s'.mJobDeque w).mJobDeque = (s.mJobDeque w).mJobDeque ++ [job]) :
    share m w s' pc ≤ share m w s pc + (m + 3) := by
  obtain ⟨before, after, was, now⟩ := pc.queue_push _ pushed
  have searches := WorkerPc.rounds_insert s.jobs.canExecute was now
  rw [share, share, can, was, now, List.length_append, List.length_append, List.length_cons,
    ← add_assoc, Nat.mul_succ]
  omega

theorem call_queue {call : Call n} {next : Call n → WorkerPc n N}
    (h : Worker.code c w pc = .call call next) :
    (∀ q, pc.queue q = q) ∧ (Worker.code c w pc).All fun pc => ∀ q, pc.queue q = q := by
  cases pc <;> grind [Worker.code, Instr.All, WorkerPc.queue]

end Code
end Worker

section Code
variable (c : Config n N) {g : Graph n} {s s' : Shared g N}

/-- The runner adds a job, or leaves the deques and its jobs alone. -/
theorem Runner.step_adds {pc pc' : RunnerPc n N} {t : Thread N} {random : Nat}
    (took : (Runner.code c pc).exec t random s = some (pc', s')) :
    s'.jobs.canExecute = s.jobs.canExecute ∧
      (s'.mJobDeque = s.mJobDeque ∧ pc'.toAdd = pc.toAdd ∨
        ∃ i job d, s'.mJobDeque = Function.update s.mJobDeque i d ∧ pc.toAdd = job :: pc'.toAdd ∧
          (d.mJobDeque = job :: (s.mJobDeque i).mJobDeque ∨
            d.mJobDeque = (s.mJobDeque i).mJobDeque ++ [job])) := by
  cases pc with
  | begin later =>
    obtain ⟨_, rfl, rfl⟩ := Instr.exec_await took
    exact ⟨rfl, .inl ⟨rfl, rfl⟩⟩
  | whileRunning later =>
    cases took
    refine ⟨rfl, .inl ⟨rfl, ?_⟩⟩
    obtain ⟨i, frames⟩ := later
    dsimp only
    split
    · cases frames <;> rfl
    · rfl
  | addJob jobs later =>
    cases jobs with
    | nil =>
      cases took
      exact ⟨rfl, .inl ⟨rfl, rfl⟩⟩
    | cons job jobs =>
      simp only [Runner.code, Runner.push] at took
      split at took <;> cases took
      · exact ⟨rfl, .inr ⟨_, job, _, rfl, rfl, .inr (LockingDeque.pushBack_mJobDeque ..)⟩⟩
      · exact ⟨rfl, .inr ⟨_, job, _, rfl, rfl, .inl (LockingDeque.pushFront_mJobDeque ..)⟩⟩
  | addLock i jobs later =>
    obtain ⟨_, rfl, rfl⟩ := Instr.exec_lock took
    exact ⟨rfl, .inl ⟨rfl, rfl⟩⟩
  | scanSize i later =>
    simp only [Runner.code] at took
    split at took <;> cases took <;> refine ⟨rfl, .inl ⟨rfl, ?_⟩⟩
    · dsimp only
      split <;> rfl
    · rfl
  | scanFlag i later =>
    cases took
    refine ⟨rfl, .inl ⟨rfl, ?_⟩⟩
    dsimp only
    split <;> rfl
  | left later => cases took
  | _ =>
    cases took
    exact ⟨rfl, .inl ⟨rfl, rfl⟩⟩

end Code

namespace System
variable {c : Config n N} {ok : State c → Action N → Prop} {s t : State c} {v w : Fin N}

/-- The jobs in the deque of worker `w`, and the one it may put back. -/
def queue (s : State c) (w : Fin N) : List (Fin n) :=
  WorkerPc.queue (s.shared.mJobDeque w).mJobDeque (s.pc (.worker w))

/-- A job waits in one queue, or was started. -/
theorem queue_count (h : (machine c).Reach ok s) (w : Fin N) (job : Fin n) :
    (queue s w).count job + s.shared.jobs.log.count (.started job) ≤
      c.frames.flatten.count job := by
  have total := conserved_le h job
  have started := Execution.started_finished (executes h) job
  have inside : (s.shared.mJobDeque w).mJobDeque.count job ≤
      ∑ i, (s.shared.mJobDeque i).mJobDeque.count job :=
    Finset.single_le_sum (f := fun i => (s.shared.mJobDeque i).mJobDeque.count job)
      (fun _ _ => Nat.zero_le _) (Finset.mem_univ w)
  have own : (queue s w).count job + (calls s (.worker w)).jobs.count job ≤
      (s.shared.mJobDeque w).mJobDeque.count job +
        (heldBy (.worker w) (s.pc (.worker w))).count job := by
    simp only [queue, calls, callOf, heldBy]
    generalize s.pc (.worker w) = pc
    cases pc <;> simp [WorkerPc.queue, WorkerPc.call, WorkerPc.hand, Call.jobs, List.count_cons]
  have others : ∑ t ∈ Finset.univ.erase (.worker w), (calls s t).jobs.count job ≤
      ∑ t ∈ Finset.univ.erase (.worker w), (heldBy t (s.pc t)).count job :=
    Finset.sum_le_sum fun t _ => calls_le_heldBy s job t
  have running := Finset.add_sum_erase Finset.univ (fun t => (calls s t).jobs.count job)
    (Finset.mem_univ (.worker w))
  have held := Finset.add_sum_erase Finset.univ (fun t => (heldBy t (s.pc t)).count job)
    (Finset.mem_univ (.worker w))
  rw [Shared.copies] at total
  dsimp only at started running held
  omega

theorem length_queue_le (h : (machine c).Reach ok s) (w : Fin N) :
    (queue s w).length ≤ c.frames.flatten.length := by
  apply List.Subperm.length_le
  apply List.subperm_iff_count.mpr
  intro job
  have := queue_count h w job
  omega

theorem queue_unstarted (h : (machine c).Reach ok s) {job : Fin n} (inside : job ∈ queue s w) :
    .started job ∉ s.shared.jobs.log := by
  have count := queue_count h w job
  have once := List.nodup_iff_count_le_one.mp c.once job
  have here := List.count_pos_iff.mpr inside
  apply List.count_eq_zero.mp
  omega

/-- A job that can be executed can be executed until it is started. -/
theorem canExecute_of_unstarted (h : (machine c).Reachable s) {job : Fin n}
    (can : s.shared.jobs.canExecute job = true) (rest : ((machine c).after s).Reachable t)
    (unstarted : .started job ∉ t.shared.jobs.log) : t.shared.jobs.canExecute job = true := by
  have now := h.trans rest
  have clear := (Execution.reachable_inv (executes h)).pending_of_canExecute can
  have fewer := pending_mono (log_grows rest) job
  have history := (Execution.reachable_inv (executes now)).history
  apply (Execution.canExecute_iff (executes now) job).mpr
  exact ⟨Nat.le_zero.mp (clear ▸ fewer),
    fun subtracted => unstarted (history.started (history.ended subtracted))⟩

/-- In a queue it can at every later step. -/
theorem step_executable (h : (machine c).Reach ok s) {a : Action N}
    (move : (machine c).step a s = some t) {job : Fin n} (inside : job ∈ queue s w)
    (can : s.shared.jobs.canExecute job = true) : t.shared.jobs.canExecute job = true := by
  have path : ((machine c).after s).Reachable t := Machine.Reach.next .start trivial move
  obtain ⟨pc, shared, took, rfl⟩ := step_cases move
  rcases Instr.exec_canExecute took with same | ⟨call, next, here⟩
  · exact (congrFun same job).trans can
  · refine canExecute_of_unstarted h.reachable can path
      (queue_unstarted (h.reachable.trans path) (w := w) ?_)
    obtain ⟨v, random⟩ := a
    have deque : shared.mJobDeque = s.shared.mJobDeque := by
      dsimp only at took
      rw [here] at took
      obtain ⟨_, _, _, _, rfl⟩ := Instr.exec_call took
      rfl
    cases v with
    | runner => exact absurd here (Runner.code_call c)
    | main => exact absurd here Main.code_call
    | worker v =>
      obtain ⟨before, after⟩ := Worker.call_queue c here
      simp only [queue, Threads.State.move_shared, deque] at inside ⊢
      by_cases own : w = v
      · subst own
        rw [s.move_self, (Instr.All.exec after took)]
        rwa [before] at inside
      · rwa [s.move_other pc shared (by simpa using own)]

/-! ## What a run has to spend -/

/-- The searches that may still begin. Adding a job costs its queue two. -/
def credit (s : State c) : Nat :=
  ∑ w, Worker.share c.frames.flatten.length w s.shared (s.pc (.worker w)) +
    (c.frames.flatten.length + 4) * (RunnerPc.toAdd (s.pc .runner)).length

/-- The step begins a search. -/
def begins (s : State c) : Action N → Nat
  | (.worker w, _) => Worker.begins w s.shared (s.pc (.worker w))
  | _ => 0

theorem sum_begins (s : State c) (a : Action N) :
    ∑ w, (if a.1 = .worker w then begins s a else 0) = begins s a := by
  obtain ⟨v, random⟩ := a
  cases v with
  | worker w => simp [Thread.worker.injEq]
  | runner | main => simp [begins]

/-- Nobody's share grows but that of a worker that is given a job. -/
theorem step_share (h : (machine c).Reach noShutDown s) {a : Action N}
    (move : (machine c).step a s = some t) (other : a.1 ≠ .runner) (w : Fin N) :
    Worker.share c.frames.flatten.length w t.shared (t.pc (.worker w)) +
        (if a.1 = .worker w then begins s a else 0) ≤
      Worker.share c.frames.flatten.length w s.shared (s.pc (.worker w)) := by
  have small := length_queue_le h w
  have kept := fun job (inside : job ∈ queue s w) => step_executable h move inside
  have moves := code_moves (serving_of_noShutDown h) a.1
  obtain ⟨pc, shared, took, rfl⟩ := step_cases move
  obtain ⟨v, random⟩ := a
  by_cases own : v = .worker w
  · subst own
    rw [s.move_self, if_pos rfl]
    exact Worker.step_share c small kept took
  · rw [s.move_other pc shared (Ne.symm own), if_neg own]
    refine Worker.share_other small kept (Instr.exec_takes ?_ ?_ took)
    · cases v with
      | runner => exact absurd rfl other
      | main => exact Main.code_pushes w _
      | worker u =>
        by_contra pushes
        obtain ⟨rfl, _⟩ := Worker.code_pushes c ((Bool.not_eq_false _).mp pushes)
        exact own rfl
    · intro i next clears
      rw [clears] at moves
      exact moves

/-- A search is paid for when it begins, and a job when it is added. -/
theorem step_credit (h : (machine c).Reach noShutDown s) {a : Action N}
    (move : (machine c).step a s = some t) :
    credit t + begins s a + (RunnerPc.toAdd (s.pc .runner)).length ≤
      credit s + (RunnerPc.toAdd (t.pc .runner)).length := by
  by_cases other : a.1 ≠ .runner
  · have total := Finset.sum_le_sum fun w (_ : w ∈ Finset.univ) => step_share h move other w
    rw [Finset.sum_add_distrib, sum_begins] at total
    have same : t.pc .runner = s.pc .runner := by
      obtain ⟨pc, shared, _, rfl⟩ := step_cases move
      exact s.move_other pc shared (Ne.symm other)
    simp only [credit, same]
    omega
  obtain ⟨pc, shared, took, rfl⟩ := step_cases move
  obtain ⟨v, random⟩ := a
  obtain rfl : v = .runner := not_not.mp other
  have left : begins s (.runner, random) = 0 := rfl
  have pcs (w : Fin N) : (s.move .runner pc shared).pc (.worker w) = s.pc (.worker w) :=
    s.move_other pc shared (by simp)
  obtain ⟨can, ⟨same, jobs⟩ | ⟨i, job, d, same, jobs, pushed⟩⟩ := Runner.step_adds c took
  · have shares (w : Fin N) (pc : WorkerPc n N) : Worker.share c.frames.flatten.length w shared pc =
        Worker.share c.frames.flatten.length w s.shared pc := by
      simp only [Worker.share, can, same]
    simp only [credit, left, s.move_self, pcs, Threads.State.move_shared, shares, jobs]
    omega
  · have shares (w : Fin N) (other : w ≠ i) :
        Worker.share c.frames.flatten.length w shared (s.pc (.worker w)) =
          Worker.share c.frames.flatten.length w s.shared (s.pc (.worker w)) := by
      simp only [Worker.share, can, same, Function.update_of_ne other]
    have share := Worker.share_push c.frames.flatten.length (s.pc (.worker i)) can
      (by rwa [same, Function.update_self])
    have before := Finset.add_sum_erase Finset.univ
      (fun w => Worker.share c.frames.flatten.length w s.shared (s.pc (.worker w)))
      (Finset.mem_univ i)
    have after := Finset.add_sum_erase Finset.univ
      (fun w => Worker.share c.frames.flatten.length w shared (s.pc (.worker w)))
      (Finset.mem_univ i)
    have rest := Finset.sum_congr rfl fun w (inside : w ∈ Finset.univ.erase i) =>
      shares w (Finset.ne_of_mem_erase inside)
    simp only [credit, left, s.move_self, pcs, Threads.State.move_shared, jobs, List.length_cons,
      Nat.mul_succ]
    omega

theorem length_toAdd_le {a : Action N} (move : (machine c).step a s = some t) :
    (RunnerPc.toAdd (t.pc .runner)).length ≤ (RunnerPc.toAdd (s.pc .runner)).length := by
  obtain ⟨pc, shared, took, rfl⟩ := step_cases move
  obtain ⟨v, random⟩ := a
  by_cases own : v = .runner
  · subst own
    rw [s.move_self]
    obtain ⟨_, ⟨_, jobs⟩ | ⟨_, job, _, _, jobs, _⟩⟩ := Runner.step_adds c took
    · exact Nat.le_of_eq (congrArg List.length jobs)
    · rw [jobs]
      exact Nat.le_succ _
  · rw [s.move_other pc shared (Ne.symm own)]

theorem credit_start (c : Config n N) : credit (machine c).start =
    N + (c.frames.flatten.length + 4) * c.frames.flatten.length := by
  simp [credit, machine, Threads.machine, threads, Worker.share, WorkerPc.rounds, WorkerPc.queue,
    WorkerPc.sees, RunnerPc.toAdd]

end System

/-! ## Searches -/

/-- A search has begun, and `GetJob` is still to be called. -/
def WorkerPc.about : WorkerPc n N → Nat
  | waitRunning true | waitUnlock | raiseFlag | ownSize => 1
  | _ => 0

def aboutOf : (t : Thread N) → Pc n N t → Nat
  | .worker _ => WorkerPc.about
  | .runner | .main => fun _ => 0

/-- A worker calls `GetJob`. -/
def System.getsJob {c : Config n N} (s : System.State c) : Action N → Nat
  | (.worker w, _) => if s.pc (.worker w) = .ownSize then 1 else 0
  | _ => 0

/-- A worker calls `GetJob` where it saw an executable job. -/
theorem Worker.step_about (c : Config n N) {g : Graph n} {s s' : Shared g N} {w : Fin N}
    {pc pc' : WorkerPc n N} {t : Thread N} {random : Nat} (waits : c.waitForAvailableJobs = true)
    (running : s.flag (.mRunning w) = true)
    (took : (Worker.code c w pc).exec t random s = some (pc', s')) :
    (if pc = .ownSize then 1 else 0) + pc'.about ≤ pc.about + begins w s pc := by
  have has := LockingDeque.hasExecutableJobs_eq s.jobs.canExecute (s.mJobDeque w)
  cases pc with
  | checkJobs =>
    simp only [Worker.code, waits, if_true] at took
    cases took
    rw [has, begins]
    cases (s.mJobDeque w).mJobDeque.any s.jobs.canExecute <;> simp [WorkerPc.about]
  | waitJobs =>
    simp only [Worker.code, waits, if_true] at took
    cases took
    rw [has, begins]
    cases (s.mJobDeque w).mJobDeque.any s.jobs.canExecute <;> simp [WorkerPc.about]
  | waitRunning available =>
    cases took
    rw [running]
    cases available <;> simp [WorkerPc.about]
  | waitUnlock | raiseFlag | ownSize =>
    cases took
    simp [WorkerPc.about]
  | _ =>
    have none : pc'.about = 0 := by
      refine Instr.All.exec (P := fun next => next.about = 0) ?_ took
      grind [Worker.code, Instr.All, WorkerPc.about]
    simp [none]

namespace System
variable {c : Config n N} {s t : State c}

/-- Over a whole run without `ShutDown` the calls of `GetJob` are bounded, whatever the
schedule and however often workers wake spuriously. -/
theorem searches_bounded (waits : c.waitForAvailableJobs = true) {actions : List (Action N)}
    (run : (machine c).exec noShutDown actions (machine c).start = some s) :
    (machine c).tally getsJob actions (machine c).start ≤
      N + (c.frames.flatten.length + 4) * c.frames.flatten.length := by
  have step (s t : State c) (a : Action N) (h : (machine c).Reach noShutDown s)
      (ok : noShutDown s a) (move : (machine c).step a s = some t) :
      (machine c).Reach noShutDown t ∧
        getsJob s a + (credit t + ∑ v, aboutOf v (t.pc v)) ≤
          credit s + ∑ v, aboutOf v (s.pc v) + 0 := by
    refine ⟨h.next ok move, ?_⟩
    have paid := step_credit h move
    have added := length_toAdd_le move
    obtain ⟨pc, shared, took, rfl⟩ := step_cases move
    obtain ⟨v, random⟩ := a
    have total := sum_update s.pc v pc aboutOf
    have own : getsJob s (v, random) + aboutOf v pc ≤
        aboutOf v (s.pc v) + begins s (v, random) := by
      cases v with
      | worker w => exact Worker.step_about c waits (mRunning_eq h w) took
      | runner | main => exact Nat.le_refl _
    simp only [Threads.State.move] at paid added ⊢
    omega
  have spent := Machine.tally_le_add step .start run
  have none : ∑ v, aboutOf v ((machine c).start.pc v) = 0 := by
    rw [Thread.sum_eq]
    simp [aboutOf, machine, Threads.machine, threads, WorkerPc.about]
  rw [Machine.tally_zero, credit_start, none] at spent
  omega

/-- Both jobs are finished and both workers blocked; then one wakes spuriously. -/
def restRun (v w : Fin 2) : List (Action 2) :=
  steps 3 .main ++ steps 11 .runner ++ steps 13 (.worker w) ++ steps 22 (.worker v) ++
  steps 10 (.worker w) ++ steps 5 (.worker v)

theorem searches_bounded_pair : ∃ s,
    (machine pairConfig).exec noShutDown (restRun 0 1) (machine pairConfig).start = some s ∧
    Blocked s 0 ∧ Blocked s 1 ∧
    (machine pairConfig).tally getsJob (restRun 0 1) (machine pairConfig).start ≤ 14 := by
  have run : ((machine pairConfig).exec noShutDown (restRun 0 1) (machine pairConfig).start).map
      (fun s => (decide (Blocked s 0), decide (Blocked s 1))) = some (true, true) := by
    decide +kernel
  obtain ⟨s, hs, same⟩ := Option.map_eq_some_iff.mp run
  simp only [Prod.mk.injEq, decide_eq_true_eq] at same
  exact ⟨s, hs, same.1, same.2, searches_bounded rfl hs⟩

end System

end JobStealer
