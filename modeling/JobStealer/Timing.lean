import JobStealer.Conservation
import JobStealer.Scheduling
import JobStealer.Slots

/-!
# How long the jobs take

The job functions of `MAKE_UPDATE_FUNC` look at a clock until their duration is over.
`Timed.machine` is the job system with that clock, which runs on between any two steps
and never back: an update function reads it on entry and in every turn of its loop, and
its worker goes on when the loop is over. The other steps are those of the job system
(`reach_system`), and none of its runs is lost (`exists_timed`).

What was executed so far is a schedule of the jobs (`reach_kept`), and none beats the
bounds there are for every schedule (`no_faster`). `frame_takes` are the earliest times
`main.cpp` has for its frame on one, two and more workers.
-/

namespace JobStealer
open Interleaving Scheduling

variable {n N : Nat} {g : Graph n}

/-- The job whose function the call is in. -/
def Call.updating : Call n → Option (Fin n)
  | .running j => some j
  | _ => none

/-! ## The end of a job function -/

theorem Execution.advance_ended {m m' : Jobs g} {c c' : Call n}
    (move : advance m c = some (m', c')) (j : Fin n) :
    m'.log.count (.ended j) + c'.updating.toList.count j =
      m.log.count (.ended j) + c.updating.toList.count j := by
  cases c with
  | idle => cases move
  | running i =>
    cases move
    simp [Call.updating, List.count_cons]
  | finishing i =>
    cases move
    unfold Call.afterFetchSub
    split <;> simp [Call.updating]
  | releasing i k =>
    simp only [advance] at move
    split at move <;>
    · cases move
      simp [Call.updating]

theorem Execution.started_ended {C : Type} [DecidableEq C] [Fintype C] {s : State g C}
    (h : (machine g C).Reachable s) (j : Fin n) :
    s.jobs.log.count (.ended j) + ∑ c, (s.call c).updating.toList.count j =
      s.jobs.log.count (.started j) :=
  started_eq (f := fun call => call.updating.toList) rfl (fun _ => rfl) (by simp)
    (fun _ _ _ _ move => advance_ended move) h j

/-- A thread outside of job functions ends none. -/
theorem Instr.Runs.exec_ended {α : Type} {instr : Instr n N α} {call : α → Call n}
    {ready : α → Option (Fin n)} {here : Call n} {about : Option (Fin n)} {t : Thread N}
    {random : Nat} {s s' : Shared g N} {x : α} (h : instr.Runs call ready here about)
    (outside : here.updating = none) (move : instr.exec t random s = some (x, s')) (j : Fin n) :
    s'.jobs.log.count (.ended j) = s.jobs.log.count (.ended j) := by
  have observe (m : Jobs g) (o : Option (Fin n)) :
      (m.observe o).log.count (.ended j) = m.log.count (.ended j) := by
    cases o <;> simp [Jobs.observe]
  cases instr with
  | halt => cases move
  | await f next =>
    obtain ⟨_, _, rfl⟩ := exec_await move
    rfl
  | lock i next =>
    obtain ⟨_, _, rfl⟩ := exec_lock move
    rfl
  | call c next =>
    obtain ⟨m, c', advanced, _, rfl⟩ := exec_call move
    obtain ⟨rfl, _⟩ := h
    cases here with
    | idle => cases advanced
    | running i => cases outside
    | finishing i =>
      cases advanced
      simp
    | releasing i k =>
      simp only [Execution.advance] at advanced
      split at advanced <;>
      · cases advanced
        simp
  | start i next =>
    cases move
    simp
  | popFront i allow next | popBack i next | canExecute i next =>
    cases move
    exact observe ..
  | _ =>
    cases move
    rfl

namespace System
variable {c : Config n N} {ok : State c → Action N → Prop} {s s' : State c}

theorem ended_le (h : (machine c).Reach ok s) (job : Fin n) :
    s.shared.jobs.log.count (.ended job) ≤ 1 := by
  have ended := Execution.started_ended (executes h) job
  have started := started_le h job
  dsimp only at ended
  omega

theorem step_outside {a : Action N} (outside : (calls s a.1).updating = none)
    (move : (machine c).step a s = some s') (job : Fin n) :
    s'.shared.jobs.log.count (.ended job) = s.shared.jobs.log.count (.ended job) := by
  obtain ⟨pc, shared, took, rfl⟩ := step_cases move
  exact (code_runs c a.1 (s.pc a.1)).exec_ended outside took job

theorem calls_other {a : Action N} (move : (machine c).step a s = some s') {t : Thread N}
    (apart : t ≠ a.1) : calls s' t = calls s t := by
  obtain ⟨pc, shared, took, rfl⟩ := step_cases move
  rw [calls, s.move_other pc shared apart, calls]

/-- The only step of a worker in a job function is to return from it. -/
theorem step_inside {w : Fin N} {job : Fin n} {random : Nat}
    (inside : (calls s (.worker w)).updating = some job)
    (move : (machine c).step (.worker w, random) s = some s') :
    s'.shared.jobs.log = .ended job :: s.shared.jobs.log := by
  obtain ⟨pc, shared, took, rfl⟩ := step_cases move
  change (Worker.code c w (s.pc (.worker w))).exec _ _ _ = _ at took
  change (WorkerPc.call (s.pc (.worker w))).updating = _ at inside
  generalize s.pc (.worker w) = here at took inside
  cases here with
  | executing i call =>
    cases call with
    | running j =>
      cases inside
      cases took
      rfl
    | _ => cases inside
  | _ => cases inside

end System

/-! ## The clock -/

namespace Timed

structure State (c : Config n N) where
  system : System.State c
  /-- `high_resolution_clock::now()`, in nanoseconds -/
  now : Nat
  /-- the variable `start` of the update function worker `w` is in -/
  start : Fin N → Option Nat
  /-- the update functions that returned, newest first -/
  slots : List (Slot (Fin n) (Fin N))

inductive Action (N : Nat)
  | tick (nanoseconds : Nat)
  | act (a : System.Action N)

/-- The condition of the loop of an update function. -/
def loops (DURATION start end' : Nat) : Bool := (end' - start) / 1000 < DURATION

section Machine
variable {c : Config n N}

def inside (s : State c) (w : Fin N) : Option (Fin n) :=
  (System.calls s.system (.worker w)).updating

def other (a : System.Action N) (s : State c) : Option (State c) :=
  ((System.machine c).step a s.system).map fun system => { s with system }

/-- `duration job` is in microseconds. -/
def step (duration : Fin n → Nat) : Action N → State c → Option (State c)
  | .tick nanoseconds, s => some { s with now := s.now + nanoseconds }
  | .act (.worker w, random), s =>
    match inside s w, s.start w with
    | none, _ => other (.worker w, random) s
    | some _, none => some { s with start := Function.update s.start w (some s.now) }
    | some job, some start =>
      if loops (duration job) start s.now then some s
      else (other (.worker w, random) s).map fun s => { s with
        start := Function.update s.start w none
        slots := ⟨job, w, start, s.now⟩ :: s.slots }
  | .act a, s => other a s

variable (c) in
def machine (duration : Fin n → Nat) : Machine (State c) (Action N) where
  start := ⟨(System.machine c).start, 0, fun _ => none, []⟩
  step := step duration

end Machine

/-- What a step can be: the clock runs on, an update function is entered, stays in its
loop or returns, or a thread outside of them moves. -/
inductive Step {c : Config n N} (duration : Fin n → Nat) (s : State c) : State c → Prop
  | tick (nanoseconds : Nat) : Step duration s { s with now := s.now + nanoseconds }
  | enter (w : Fin N) (job : Fin n) (here : inside s w = some job) (fresh : s.start w = none) :
    Step duration s { s with start := Function.update s.start w (some s.now) }
  | loop : Step duration s s
  | leave (w : Fin N) (job : Fin n) (start random : Nat) (system : System.State c)
    (here : inside s w = some job) (entered : s.start w = some start)
    (elapsed : loops (duration job) start s.now = false)
    (move : (System.machine c).step (.worker w, random) s.system = some system) :
    Step duration s { s with
      system
      start := Function.update s.start w none
      slots := ⟨job, w, start, s.now⟩ :: s.slots }
  | other (a : System.Action N) (system : System.State c)
    (outside : (System.calls s.system a.1).updating = none)
    (move : (System.machine c).step a s.system = some system) : Step duration s { s with system }

variable {c : Config n N} {duration : Fin n → Nat} {s s' : State c}

theorem step_cases {a : Action N} (move : (machine c duration).step a s = some s') :
    Step duration s s' := by
  have others {a : System.Action N} {s' : State c} (move : other a s = some s') :
      ∃ system, (System.machine c).step a s.system = some system ∧ { s with system } = s' :=
    Option.map_eq_some_iff.mp move
  cases a with
  | tick nanoseconds =>
    cases move
    exact .tick nanoseconds
  | act a =>
    obtain ⟨t, random⟩ := a
    cases t with
    | worker w =>
      simp only [machine, step] at move
      split at move
      · rename_i outside
        obtain ⟨system, moved, rfl⟩ := others move
        exact .other (.worker w, random) system outside moved
      · rename_i job here fresh
        cases move
        exact .enter w job here fresh
      · rename_i job start here entered
        split at move
        · cases move
          exact .loop
        · rename_i elapsed
          obtain ⟨after, returned, rfl⟩ := Option.map_eq_some_iff.mp move
          obtain ⟨system, moved, rfl⟩ := others returned
          have elapsed := (Bool.not_eq_true _).mp elapsed
          exact .leave w job start random system here entered elapsed moved
    | runner | main =>
      obtain ⟨system, moved, rfl⟩ := others move
      exact .other _ system rfl moved

/-- The steps outside of the loops are those of the job system. -/
theorem reach_system (h : (machine c duration).Reachable s) :
    (System.machine c).Reachable s.system := by
  induction h with
  | start => exact .start
  | next _ _ move ih =>
    cases step_cases move with
    | tick | enter | loop => exact ih
    | leave w job start random system here entered elapsed moved => exact ih.next trivial moved
    | other a system outside moved => exact ih.next trivial moved

/-! ## What was executed is a schedule -/

/-- The update functions that returned did so once for each job, and those in their loop
began after every other one of their worker and after their job's prerequisites. -/
structure Kept (duration : Fin n → Nat) (s : State c) : Prop where
  schedule : Schedule (fun job => 1000 * duration job) c.graph.Prerequisite s.slots
  recorded : ∀ job, (s.slots.map Slot.job).count job =
    s.system.shared.jobs.log.count (.ended job)
  past : ∀ slot ∈ s.slots, slot.stop ≤ s.now
  entered : ∀ w, ∀ start ∈ s.start w, start ≤ s.now ∧ ∃ job, inside s w = some job ∧
    ∀ slot ∈ s.slots, slot.worker = w ∨ c.graph.Prerequisite slot.job job → slot.stop ≤ start

theorem inside_other {a : System.Action N} {system : System.State c}
    (move : (System.machine c).step a s.system = some system) {w : Fin N}
    (apart : .worker w ≠ a.1) : (System.calls system (.worker w)).updating = inside s w :=
  congrArg Call.updating (System.calls_other move apart)

/-- A worker in a job function is not the thread that moves outside of them. -/
theorem inside_outside {a : System.Action N} {system : System.State c}
    (outside : (System.calls s.system a.1).updating = none)
    (move : (System.machine c).step a s.system = some system) {w : Fin N} {job : Fin n}
    (here : inside s w = some job) :
    (System.calls system (.worker w)).updating = inside s w := by
  refine inside_other move fun own => ?_
  rw [← own] at outside
  exact absurd (outside.symm.trans here) (by simp)

theorem start_of_update {f : Fin N → Option Nat} {v w : Fin N} {x : Option Nat} {start : Nat}
    (entered : start ∈ Function.update f w x v) :
    (v = w ∧ x = some start) ∨ (v ≠ w ∧ start ∈ f v) := by
  by_cases own : v = w
  · subst own
    rw [Function.update_self] at entered
    exact .inl ⟨rfl, entered⟩
  · rw [Function.update_of_ne own] at entered
    exact .inr ⟨own, entered⟩

theorem started_of_inside (h : (System.machine c).Reachable s.system) {w : Fin N} {job : Fin n}
    (here : inside s w = some job) : .started job ∈ s.system.shared.jobs.log := by
  have ok := (Execution.reachable_inv (System.executes h)).calls (.worker w)
  rw [inside] at here
  dsimp only at ok
  generalize System.calls s.system (.worker w) = call at here ok
  cases call with
  | running j =>
    cases here
    exact ok
  | _ => cases here

theorem Kept.ended (h : Kept duration s) {slot : Slot (Fin n) (Fin N)} (old : slot ∈ s.slots) :
    .ended slot.job ∈ s.system.shared.jobs.log := by
  have returned := List.count_pos_iff.mpr (List.mem_map_of_mem (f := Slot.job) old)
  rw [h.recorded] at returned
  exact List.count_pos_iff.mp returned

theorem Kept.unreturned (h : Kept duration s) (reached : (System.machine c).Reachable s.system)
    {w : Fin N} {job : Fin n} {random : Nat} {system : System.State c}
    (here : inside s w = some job)
    (move : (System.machine c).step (.worker w, random) s.system = some system) :
    .ended job ∉ s.system.shared.jobs.log ∧ job ∉ s.slots.map Slot.job := by
  have once := System.ended_le (reached.next trivial move) job
  rw [System.step_inside here move, List.count_cons_self] at once
  have never : s.system.shared.jobs.log.count (.ended job) = 0 := by omega
  exact ⟨List.count_eq_zero.mp never, List.count_eq_zero.mp ((h.recorded job).trans never)⟩

theorem step_kept (reached : (System.machine c).Reachable s.system) (h : Kept duration s)
    (step : Step duration s s') : Kept duration s' := by
  have history := (Execution.reachable_inv (System.executes reached)).history
  cases step with
  | tick nanoseconds =>
    refine ⟨h.schedule, h.recorded, fun slot old => ?_, fun w start entered => ?_⟩
    · exact (h.past slot old).trans (Nat.le_add_right ..)
    · obtain ⟨before, rest⟩ := h.entered w start entered
      exact ⟨before.trans (Nat.le_add_right ..), rest⟩
  | enter w job here fresh =>
    refine ⟨h.schedule, h.recorded, h.past, fun v start entered => ?_⟩
    obtain ⟨rfl, same⟩ | ⟨_, old⟩ := start_of_update entered
    · cases same
      exact ⟨le_refl _, job, here, fun slot old _ => h.past slot old⟩
    · exact h.entered v start old
  | loop => exact h
  | leave w job start random system here entered elapsed move =>
    obtain ⟨never, new⟩ := h.unreturned reached here move
    obtain ⟨before, job', here', after⟩ := h.entered w start entered
    obtain rfl : job' = job := Option.some.inj (here'.symm.trans here)
    have late {i : Fin n} (begun : .started i ∈ s.system.shared.jobs.log) :
        ¬ c.graph.Prerequisite job' i :=
      fun prerequisite => never (history.prerequisite_ended prerequisite begun)
    refine ⟨h.schedule.cons ?_ new ?_ ?_ after, fun i => ?_, ?_, fun v start' entered' => ?_⟩
    · simp only [loops, decide_eq_false_iff_not] at elapsed
      dsimp only
      omega
    · exact fun own => lt_irrefl _ (c.graph.earlier_of_prerequisite own)
    · exact fun slot old => late (history.started (h.ended old))
    · rw [System.step_inside here move, List.map_cons, List.count_cons, List.count_cons,
        h.recorded]
      simp
    · exact List.forall_mem_cons.mpr ⟨le_refl _, h.past⟩
    · obtain ⟨_, gone⟩ | ⟨apart, old⟩ := start_of_update entered'
      · cases gone
      · obtain ⟨before', i, here', after'⟩ := h.entered v start' old
        refine ⟨before', i, (inside_other move (by simpa using apart)).trans here',
          List.forall_mem_cons.mpr ⟨?_, after'⟩⟩
        rintro (rfl | prerequisite)
        · exact absurd rfl apart
        · exact absurd prerequisite (late (started_of_inside reached here'))
  | other a system outside move =>
    refine ⟨h.schedule, fun i => ?_, h.past, fun w start entered => ?_⟩
    · rw [h.recorded, System.step_outside outside move]
    · obtain ⟨before, job, here, after⟩ := h.entered w start entered
      exact ⟨before, job, (inside_outside outside move here).trans here, after⟩

theorem reach_kept (h : (machine c duration).Reachable s) : Kept duration s := by
  refine h.invariant ⟨.nil, fun job => rfl, ?_, ?_⟩ fun s s' a run ih _ move =>
    step_kept (reach_system run) ih (step_cases move)
  · simp [machine]
  · simp [machine]

/-! ## Every run can be timed -/

theorem step_enter {w : Fin N} {job : Fin n} (here : inside s w = some job)
    (fresh : s.start w = none) (random : Nat) :
    (machine c duration).step (.act (.worker w, random)) s =
      some { s with start := Function.update s.start w (some s.now) } := by
  simp [machine, step, here, fresh]

theorem step_leave {w : Fin N} {job : Fin n} {start random : Nat} {system : System.State c}
    (here : inside s w = some job) (entered : s.start w = some start)
    (elapsed : loops (duration job) start s.now = false)
    (move : (System.machine c).step (.worker w, random) s.system = some system) :
    (machine c duration).step (.act (.worker w, random)) s = some { s with
      system
      start := Function.update s.start w none
      slots := ⟨job, w, start, s.now⟩ :: s.slots } := by
  simp [machine, step, here, entered, elapsed, other, move]

theorem step_other {a : System.Action N} {system : System.State c}
    (outside : (System.calls s.system a.1).updating = none)
    (move : (System.machine c).step a s.system = some system) :
    (machine c duration).step (.act a) s = some { s with system } := by
  obtain ⟨t, random⟩ := a
  cases t with
  | worker w =>
    have outside : inside s w = none := outside
    simp [machine, step, outside, other, move]
  | runner | main => simp [machine, step, other, move]

theorem exists_return (h : (machine c duration).Reachable s) {w : Fin N} {job : Fin n}
    {start random : Nat} {system : System.State c} (here : inside s w = some job)
    (entered : s.start w = some start)
    (move : (System.machine c).step (.worker w, random) s.system = some system) :
    ∃ s', (machine c duration).Reachable s' ∧ s'.system = system := by
  have before := ((reach_kept h).entered w start entered).1
  have waited := h.next (a := .tick (1000 * duration job)) trivial rfl
  have elapsed : loops (duration job) start (s.now + 1000 * duration job) = false := by
    simp only [loops, decide_eq_false_iff_not]
    omega
  exact ⟨_, waited.next trivial (step_leave here entered elapsed move), rfl⟩

/-- A job function ends when its time has come, so the job system can do whatever it does
without the clock. -/
theorem exists_timed {x : System.State c} (h : (System.machine c).Reachable x) :
    ∃ s, (machine c duration).Reachable s ∧ s.system = x := by
  induction h with
  | start => exact ⟨_, .start, rfl⟩
  | @next x y a _ _ move ih =>
    obtain ⟨s, reached, rfl⟩ := ih
    obtain ⟨t, random⟩ := a
    cases updating : (System.calls s.system t).updating with
    | none => exact ⟨_, reached.next trivial (step_other updating move), rfl⟩
    | some job =>
      cases t with
      | worker w =>
        cases entered : s.start w with
        | some start => exact exists_return reached updating entered move
        | none =>
          exact exists_return (reached.next trivial (step_enter updating entered 0)) updating
            (Function.update_self ..) move
      | runner | main => cases updating

/-! ## From one state to a later one -/

/-- Jobs that were not started in `s` begin after the clock of `s`. -/
structure Since (s t : State c) : Prop where
  later : s.now ≤ t.now
  begun : ∀ slot ∈ t.slots, .started slot.job ∉ s.system.shared.jobs.log → s.now ≤ slot.start
  entered : ∀ w, ∀ start ∈ t.start w, ∀ job ∈ inside t w,
    .started job ∉ s.system.shared.jobs.log → s.now ≤ start

theorem step_since {t t' : State c} (kept : Kept duration t) (h : Since s t)
    (step : Step duration t t') : Since s t' := by
  cases step with
  | tick nanoseconds => exact ⟨h.later.trans (Nat.le_add_right ..), h.begun, h.entered⟩
  | enter w job here fresh =>
    refine ⟨h.later, h.begun, fun v start entered => ?_⟩
    obtain ⟨_, same⟩ | ⟨_, old⟩ := start_of_update entered
    · cases same
      exact fun _ _ _ => h.later
    · exact h.entered v start old
  | loop => exact h
  | leave w job start random system here entered elapsed move =>
    refine ⟨h.later, List.forall_mem_cons.mpr ⟨h.entered w start entered job here, h.begun⟩,
      fun v start' entered' => ?_⟩
    obtain ⟨_, gone⟩ | ⟨apart, old⟩ := start_of_update entered'
    · cases gone
    · have same := inside_other move (w := v) (by simpa using apart)
      exact fun i here' => h.entered v start' old i (same.symm.trans here')
  | other a system outside move =>
    refine ⟨h.later, h.begun, fun w start entered job here => ?_⟩
    obtain ⟨_, _, already, _⟩ := kept.entered w start entered
    have same := inside_outside outside move already
    exact h.entered w start entered job (same.symm.trans here)

theorem reach_since {t : State c} (reached : (machine c duration).Reachable s)
    (h : ((machine c duration).after s).Reachable t) : Since s t := by
  have history := (Execution.reachable_inv (System.executes (reach_system reached))).history
  induction h with
  | start =>
    refine ⟨le_refl _, fun slot old fresh => ?_, fun w start _ job here fresh => ?_⟩
    · exact absurd (history.started ((reach_kept reached).ended old)) fresh
    · exact absurd (started_of_inside (reach_system reached) here) fresh
  | next run _ move ih => exact step_since (reach_kept (reached.trans run)) ih (step_cases move)

section Between
variable {t : State c} (reached : (machine c duration).Reachable s)
  (h : ((machine c duration).after s).Reachable t)
include reached h

/-- A job that was not started in `s` and has ended in `t` was executed between them. -/
theorem executed {job : Fin n} (fresh : .started job ∉ s.system.shared.jobs.log)
    (done : .ended job ∈ t.system.shared.jobs.log) :
    ∃ slot ∈ t.slots, slot.job = job ∧ s.now ≤ slot.start ∧ slot.stop ≤ t.now := by
  have kept := reach_kept (reached.trans h)
  have returned := List.count_pos_iff.mpr done
  rw [← kept.recorded] at returned
  obtain ⟨slot, old, rfl⟩ := List.mem_map.mp (List.count_pos_iff.mp returned)
  exact ⟨slot, old, rfl, (reach_since reached h).begun slot old fresh, kept.past slot old⟩

end Between

/-! ## The frame of `UpdateParallel` -/

/-- The `DURATION`s of `main.cpp`. -/
def frameDuration : Fin 8 → Nat := ![1000, 2000, 600, 2400, 800, 1200, 1000, 200]

/-- The frame on two workers, its jobs added in some order. -/
def frameConfig (jobs : List (Fin 8)) (all : jobs.Perm (List.finRange 8)) : Config 8 2 where
  graph := frame
  frames := [jobs]
  once := by
    rw [List.flatten_singleton]
    exact all.nodup_iff.mpr (List.nodup_finRange 8)
  together := by
    intro added inside _ _ i _
    rw [List.mem_singleton.mp inside]
    exact all.mem_iff.mpr (List.mem_finRange i)
  workers := Nat.two_pos
  -- `AddJob` pushes at the back
  usingLockless := true
  waitForAvailableJobs := true

/-- Input, physics, gameElements and rendering for one worker, sound, collision, animation
and particles for the other. -/
theorem frame_perm : [7, 0, 6, 5, 3, 2, 1, 4].Perm (List.finRange 8) := by decide

def acts (k : Nat) (t : Thread N) : List (Action N) := .replicate k (.act (t, 0))

/-- The schedule that `main.cpp` draws for two threads. -/
def frameRun (v w : Fin 2) : List (Action 2) :=
  acts 3 .main ++ acts 35 .runner ++ acts 8 (.worker v) ++ acts 8 (.worker w) ++
  .tick 200000 :: acts 14 (.worker v) ++ .tick 800000 :: acts 5 (.worker w) ++
  .tick 200000 :: acts 15 (.worker v) ++ acts 8 (.worker w) ++
  .tick 1200000 :: acts 15 (.worker w) ++ .tick 600000 :: acts 14 (.worker w) ++
  .tick 600000 :: acts 6 (.worker v) ++ .tick 200000 :: acts 6 (.worker w) ++
  acts 8 (.worker v) ++ .tick 2000000 :: acts 5 (.worker v)

theorem frameRun_ends : ∃ t, (machine (frameConfig _ frame_perm) frameDuration).Reachable t ∧
    (∀ i, .ended i ∈ t.system.shared.jobs.log) ∧ t.now = 1000 * 5800 := by
  have run : ((machine (frameConfig _ frame_perm) frameDuration).run (frameRun 0 1)
      (machine (frameConfig _ frame_perm) frameDuration).start).map
        (fun t => (decide (∀ i, .ended i ∈ t.system.shared.jobs.log), t.now)) =
      some (true, 1000 * 5800) := by
    decide +kernel
  obtain ⟨t, ht, ended⟩ := Option.map_eq_some_iff.mp run
  rw [Prod.mk.injEq, decide_eq_true_eq] at ended
  exact ⟨t, Machine.exec_start _ ht, ended⟩

/-! ## No schedule is faster -/

section Bounds
variable {t : State c} (reached : (machine c duration).Reachable s)
  (h : ((machine c duration).after s).Reachable t)
include reached h

/-- Jobs that are all executed between two states take as long as every path of
prerequisites among them, and as their work shared out evenly among the workers. -/
theorem no_faster {jobs : List (Fin n)}
    (fresh : ∀ job ∈ jobs, .started job ∉ s.system.shared.jobs.log)
    (done : ∀ job ∈ jobs, .ended job ∈ t.system.shared.jobs.log) :
    (∀ path, path ⊆ jobs → path.IsChain c.graph.Prerequisite →
      1000 * (path.map duration).sum ≤ t.now - s.now) ∧
    (jobs.Nodup → 1000 * (jobs.map duration).sum ≤ N * (t.now - s.now)) := by
  have kept := reach_kept (reached.trans h)
  have since := reach_since reached h
  have later := since.later
  have found (job : Fin n) (hj : job ∈ jobs) : ∃ slot ∈ t.slots, slot.job = job := by
    obtain ⟨slot, old, same, _⟩ := executed reached h (fresh job hj) (done job hj)
    exact ⟨slot, old, same⟩
  have begins (slot : Slot (Fin n) (Fin N)) (old : slot ∈ t.slots) (mine : slot.job ∈ jobs) :
      s.now ≤ slot.start := since.begun slot old (fresh _ mine)
  constructor
  · intro path sub linked
    have le := kept.schedule.path_le linked (fun job hj => found job (sub hj)) later
      (fun slot old head => begins slot old (sub (List.mem_of_mem_head? head))) kept.past
    rw [List.sum_map_mul_left] at le
    omega
  · intro nodup
    have le := kept.schedule.work_le nodup found begins kept.past
    rwa [List.sum_map_mul_left, Fintype.card_fin] at le

end Bounds

/-- The longest path of the frame, and all of its work on two workers. -/
theorem no_faster_frame : ∃ t, (machine (frameConfig _ frame_perm) frameDuration).Reachable t ∧
    1000 * ([7, 6, 3, 1].map frameDuration).sum ≤ t.now ∧
    1000 * ((List.finRange 8).map frameDuration).sum ≤ 2 * t.now := by
  obtain ⟨t, reached, done, _⟩ := frameRun_ends
  obtain ⟨paths, work⟩ := no_faster .start reached
    (fun i (_ : i ∈ List.finRange 8) => List.not_mem_nil) (fun i _ => done i)
  refine ⟨t, reached, ?_, work (List.nodup_finRange 8)⟩
  exact paths [7, 6, 3, 1] (fun i _ => List.mem_finRange i)
    (show [7, 6, 3, 1].IsChain frame.Prerequisite by decide)

/-- In how many microseconds the comments of `main.cpp` have the frame done at earliest. -/
def frameTime (workers : Nat) : Nat :=
  if workers = 1 then 9200 else if workers = 2 then 5800 else 5600

/-- The jobs `job 0` to `job 7` are one frame. -/
structure IsFrame (c : Config n N) (duration : Fin n → Nat) (job : Fin 8 → Fin n) : Prop where
  distinct : Function.Injective job
  dependants : ∀ i j, frame.Prerequisite i j → c.graph.Prerequisite (job i) (job j)
  duration : ∀ i, duration (job i) = frameDuration i

section Frame
variable {t : State c} {job : Fin 8 → Fin n} (isFrame : IsFrame c duration job)
  (reached : (machine c duration).Reachable s) (h : ((machine c duration).after s).Reachable t)
  (fresh : ∀ i, .started (job i) ∉ s.system.shared.jobs.log)
  (done : ∀ i, .ended (job i) ∈ t.system.shared.jobs.log)
include isFrame reached h fresh done

/-- Of collision, animation and particles, either one is executed by the worker that
executes gameElements or all three by the other. -/
theorem frame_takes_two (two : N = 2) : 1000 * 5800 ≤ t.now - s.now := by
  have kept := reach_kept (reached.trans h)
  choose slot inside here first last using fun i => executed reached h (fresh i) (done i)
  have long (i : Fin 8) : (slot i).start + 1000 * frameDuration i ≤ (slot i).stop := by
    have long := kept.schedule.long _ (inside i)
    rwa [here, isFrame.duration] at long
  have ordered {i j : Fin 8} (hij : frame.Prerequisite i j) : (slot i).stop ≤ (slot j).start := by
    apply kept.schedule.ordered _ (inside i) _ (inside j)
    rw [here, here]
    exact isFrame.dependants i j hij
  have apart {i j : Fin 8} (hij : i ≠ j) (same : (slot i).worker.val = (slot j).worker.val) :
      (slot i).stop ≤ (slot j).start ∨ (slot j).stop ≤ (slot i).start := by
    apply kept.schedule.apart _ (inside i) _ (inside j) _ (Fin.ext same)
    rw [here, here]
    exact fun eq => hij (isFrame.distinct eq)
  have input : (slot 7).start + 1000 * 200 ≤ (slot 7).stop := long 7
  have physics : (slot 6).start + 1000 * 1000 ≤ (slot 6).stop := long 6
  have collision : (slot 5).start + 1000 * 1200 ≤ (slot 5).stop := long 5
  have gameElements : (slot 3).start + 1000 * 2400 ≤ (slot 3).stop := long 3
  have animation : (slot 2).start + 1000 * 600 ≤ (slot 2).stop := long 2
  have particles : (slot 4).start + 1000 * 800 ≤ (slot 4).stop := long 4
  have rendering : (slot 1).start + 1000 * 2000 ≤ (slot 1).stop := long 1
  have first := first 7
  have last := last 1
  have afterInput := ordered (i := 7) (j := 6) (by decide)
  have afterPhysics := ordered (i := 6) (j := 5) (by decide)
  have afterPhysics' := ordered (i := 6) (j := 3) (by decide)
  have afterCollision := ordered (i := 5) (j := 2) (by decide)
  have afterCollision' := ordered (i := 5) (j := 4) (by decide)
  have beforeRendering := ordered (i := 2) (j := 1) (by decide)
  have beforeRendering' := ordered (i := 4) (j := 1) (by decide)
  have beforeRendering'' := ordered (i := 3) (j := 1) (by decide)
  have onTwo (i : Fin 8) : (slot i).worker.val < 2 := two ▸ (slot i).worker.isLt
  have workers := And.intro (onTwo 5) (And.intro (onTwo 3) (And.intro (onTwo 2) (onTwo 4)))
  have apart53 := apart (i := 5) (j := 3) (by decide)
  have apart23 := apart (i := 2) (j := 3) (by decide)
  have apart43 := apart (i := 4) (j := 3) (by decide)
  have apart24 := apart (i := 2) (j := 4) (by decide)
  omega

theorem frame_takes : 1000 * frameTime N ≤ t.now - s.now := by
  have allFresh : ∀ i ∈ (List.finRange 8).map job,
      .started i ∉ s.system.shared.jobs.log := List.forall_mem_map.mpr fun k _ => fresh k
  have allDone : ∀ i ∈ (List.finRange 8).map job,
      .ended i ∈ t.system.shared.jobs.log := List.forall_mem_map.mpr fun k _ => done k
  obtain ⟨paths, work⟩ := no_faster reached h allFresh allDone
  unfold frameTime
  split
  · rename_i one
    have total : (((List.finRange 8).map job).map duration).sum = 9200 := by
      simp only [List.map_map, Function.comp_def, isFrame.duration]
      rfl
    have work := work ((List.nodup_finRange 8).map isFrame.distinct)
    rw [total] at work
    generalize t.now - s.now = time at work ⊢
    rw [one] at work
    omega
  · split
    · rename_i two
      exact frame_takes_two isFrame reached h fresh done two
    · -- input, physics, gameElements and rendering
      have linked : [7, 6, 3, 1].IsChain frame.Prerequisite := by decide
      have path := paths ([7, 6, 3, 1].map job) (List.map_subset job fun i _ => List.mem_finRange i)
        ((List.isChain_map job).mpr (linked.imp isFrame.dependants))
      simpa [isFrame.duration, frameDuration] using path

end Frame

/-- And two workers can be as fast. -/
theorem frame_takes_attained : ∃ t,
    (machine (frameConfig _ frame_perm) frameDuration).Reachable t ∧
    (∀ i, .ended i ∈ t.system.shared.jobs.log) ∧ 1000 * frameTime 2 ≤ t.now ∧
    t.now = 1000 * frameTime 2 := by
  obtain ⟨t, reached, done, now⟩ := frameRun_ends
  have isFrame : IsFrame (frameConfig _ frame_perm) frameDuration id :=
    ⟨Function.injective_id, fun _ _ prerequisite => prerequisite, fun _ => rfl⟩
  have takes := frame_takes isFrame .start reached (fun _ => List.not_mem_nil) done
  exact ⟨t, reached, done, takes, now⟩

end Timed
end JobStealer
