import JobStealer.Flags
import JobStealer.SingleWorker

/-!
# A worker on its own

`SingleWorker` runs the loop of the only worker as one function. Here it is a
run of the whole system in which only that worker moves: `view` is what the
function sees of the shared state, and `iterate_alone` says that one pass of the
code changes it as `Worker.iterate` does.

`accounts_of_top` is the other half: wherever a run without `ShutDown` has brought
the worker back to the top of its loop, with all jobs added, the accounts of
`SingleWorker` are in order. So it can finish the frame by itself from there,
whatever happened before (`finishes_alone`).
-/

namespace JobStealer
open Interleaving

variable {n N : Nat} {g : Graph n}

/-! ## The jobs executed so far -/

def Event.startedJob : Event g → Option (Fin n)
  | .started job => some job
  | _ => none

theorem Event.startedJob_eq_some {e : Event g} {job : Fin n} :
    e.startedJob = some job ↔ e = .started job := by
  cases e <;> simp [startedJob]

/-- The jobs executed so far, in order. -/
def Jobs.ran (m : Jobs g) : List (Fin n) := m.log.reverse.filterMap Event.startedJob

theorem Jobs.ran_of_log {m m' : Jobs g} {e : Event g} (log : m'.log = e :: m.log) :
    m'.ran = m.ran ++ e.startedJob.toList := by
  rw [ran, ran, log, List.reverse_cons, List.filterMap_append]
  cases e <;> rfl

@[simp] theorem Jobs.observe_unfinished (m : Jobs g) (o : Option (Fin n)) :
    (m.observe o).unfinished = m.unfinished := by
  cases o <;> rfl

@[simp] theorem Jobs.observe_ran (m : Jobs g) (o : Option (Fin n)) : (m.observe o).ran = m.ran := by
  cases o with
  | none => rfl
  | some job => exact (Jobs.ran_of_log rfl).trans (List.append_nil _)

theorem Jobs.count_ran (m : Jobs g) (job : Fin n) :
    m.ran.count job = m.log.count (.started job) := by
  rw [ran, ← List.count_reverse (l := m.log)]
  induction m.log.reverse with
  | nil => rfl
  | cons e l ih =>
    rw [List.count_cons, ← ih]
    cases e <;> simp [List.filterMap_cons, Event.startedJob, List.count_cons]

/-- A job was executed after its prerequisites. -/
theorem HistoryOk.ran_ordered {m : Jobs g} (h : HistoryOk m.log) {before after : List (Fin n)}
    {i j : Fin n} (eq : m.ran = before ++ j :: after) (hij : g.Prerequisite i j) : i ∈ before := by
  obtain ⟨first, rest, split, rfl, tail⟩ := List.filterMap_eq_append_iff.mp eq
  obtain ⟨quiet, e, last, rfl, none, started, -⟩ := List.filterMap_eq_cons_iff.mp tail
  obtain rfl := Event.startedJob_eq_some.mp started
  have log : m.log = last.reverse ++ .started j :: (first ++ quiet).reverse := by
    rw [← List.reverse_reverse m.log, split]
    simp
  rw [log] at h
  have ended : .ended i ∈ (first ++ quiet).reverse := h.ended_before_start (.single hij)
  have begun : .started i ∈ first ++ quiet := List.mem_reverse.mp (h.split.2.started ended)
  rcases List.mem_append.mp begun with inside | outside
  · exact List.mem_filterMap.mpr ⟨_, inside, rfl⟩
  · cases none _ outside

/-! ## One worker moves -/

namespace System

section
variable {c : Config n N} {w : Fin N} {s : Shared c.graph N}

theorem alone_step {pc pc' : WorkerPc n N} {s' : Shared c.graph N}
    (took : (Worker.code c w pc).exec (.worker w) 0 s = some (pc', s')) :
    (threads c).Alone (.worker w) (pc, s) (pc', s') := .single ⟨0, took⟩

/-- The rest of the loop over the dependants. -/
theorem releasing_alone (s : Shared c.graph N) (job i : Fin n) (k : Nat) :
    ∃ m, (threads c).Alone (.worker w) (.executing job (.releasing i k), s)
        (.checkFinished job, { s with jobs := m }) ∧
      m.unfinished = ((c.graph.dependants i).drop k).foldl (fun u d => u.add d (-1))
        s.jobs.unfinished ∧ m.ran = s.jobs.ran := by
  generalize left : (c.graph.dependants i).length - k = l
  induction l generalizing s k with
  | zero =>
    have beyond : ¬ k < (c.graph.dependants i).length := by omega
    refine ⟨s.jobs.note (.finished i), ?_, ?_, ?_⟩
    · apply alone_step
      simp [Worker.code, Instr.exec, Execution.advance, beyond]
    · rw [List.drop_eq_nil_of_le (by omega)]
      rfl
    · exact (Jobs.ran_of_log rfl).trans (List.append_nil _)
  | succ l ih =>
    have inside : k < (c.graph.dependants i).length := by omega
    obtain ⟨m, run, unfinished, ran⟩ :=
      ih { s with jobs := s.jobs.release ⟨i, k, inside⟩ } (k + 1) (by omega)
    refine ⟨m, ?_, ?_, ?_⟩
    · refine (alone_step ?_).trans run
      simp [Worker.code, Instr.exec, Execution.advance, inside]
    · rw [unfinished, List.drop_eq_getElem_cons inside]
      rfl
    · rw [ran]
      exact (Jobs.ran_of_log rfl).trans (List.append_nil _)

/-- An `Execute` nobody interferes with. -/
theorem execute_alone (s : Shared c.graph N) (job : Fin n) :
    ∃ m, (threads c).Alone (.worker w) (.execute job, s)
        (.checkFinished job, { s with jobs := m }) ∧
      m.unfinished = c.graph.finish s.jobs.unfinished job ∧ m.ran = s.jobs.ran ++ [job] := by
  have started : (threads c).Alone (.worker w) (.execute job, s)
      (.executing job (.running job), { s with jobs := s.jobs.note (.started job) }) :=
    alone_step rfl
  have called : (threads c).Alone (.worker w) (.execute job, s) (.executing job (.finishing job),
      { s with jobs := (s.jobs.note (.started job)).note (.ended job) }) :=
    started.trans (alone_step rfl)
  have noted : ((s.jobs.note (.started job)).note (.ended job)).ran = s.jobs.ran ++ [job] := by
    rw [Jobs.ran_of_log (m := s.jobs.note (.started job)) rfl, Jobs.ran_of_log (m := s.jobs) rfl]
    simp [Event.startedJob]
  generalize hm : (s.jobs.note (.started job)).note (.ended job) = m at called noted
  have same : m.unfinished = s.jobs.unfinished := by rw [← hm]; rfl
  have subtracted : (m.fetchSub job).ran = s.jobs.ran ++ [job] := by
    rw [Jobs.ran_of_log (m := m) rfl, noted]
    exact List.append_nil _
  have left {k : Nat}
      (eq : Call.afterFetchSub c.graph job (m.unfinished job - 1) = .releasing job k) :
      (threads c).Alone (.worker w) (.execute job, s)
        (.executing job (.releasing job k), { s with jobs := m.fetchSub job }) := by
    apply called.trans
    apply alone_step
    simp [Worker.code, Instr.exec, Execution.advance, eq]
  have value : s.jobs.unfinished.add job (-1) job = m.unfinished job - 1 := by
    rw [Counters.add_self, same, sub_eq_add_neg]
  by_cases loop : m.unfinished job - 1 = 0 ∧ (c.graph.dependants job).length ≠ 0
  · obtain ⟨m', run, unfinished, ran⟩ :=
      releasing_alone (c := c) (w := w) { s with jobs := m.fetchSub job } job job 0
    refine ⟨m', (left (if_pos loop)).trans run, ?_, ran.trans subtracted⟩
    rw [unfinished, List.drop_zero, Graph.finish, if_pos (value ▸ loop), ← same]
    rfl
  · obtain ⟨m', run, unfinished, ran⟩ := releasing_alone (c := c) (w := w)
      { s with jobs := m.fetchSub job } job job (c.graph.dependants job).length
    refine ⟨m', (left (if_neg loop)).trans run, ?_, ran.trans subtracted⟩
    rw [unfinished, List.drop_length, Graph.finish, if_neg (value ▸ loop), ← same]
    rfl

/-- Where `GetJob` goes on with what the own queue gave. -/
def found : Option (Fin n) → WorkerPc n N
  | some job => .execute job
  | none => .steal

/-- What `Worker` keeps track of, for worker `w`. -/
def view (w : Fin N) (s : Shared c.graph N) : Worker (LockingDeque (Fin n)) n :=
  ⟨s.mJobDeque w, s.jobs.unfinished, s.jobs.ran⟩

theorem popFront_alone (s : Shared c.graph N) (pc : WorkerPc n N) {allow : Bool}
    {next : Option (Fin n) → WorkerPc n N} (code : Worker.code c w pc = .popFront w allow next)
    {job : Option (Fin n)} {d : LockingDeque (Fin n)}
    (popped : (s.mJobDeque w).popFront s.jobs.canExecute allow = (job, d)) :
    ∃ s' : Shared c.graph N, (threads c).Alone (.worker w) (pc, s) (next job, s') ∧
      view w s' = { view w s with mJobDeque := d } ∧ s'.flag = s.flag := by
  refine ⟨{ s with
    mJobDeque := Function.update s.mJobDeque w d
    jobs := s.jobs.observe (if allow then none else job) }, ?_, ?_, rfl⟩
  · apply alone_step
    rw [code, Instr.exec, popped]
  · simp [view]

theorem check_alone (s : Shared c.graph N) (job : Fin n) :
    ∃ s' : Shared c.graph N, (threads c).Alone (.worker w) (.ownCheck job, s)
        (if s.jobs.canExecute job then .execute job else .ownPushBack job, s') ∧
      view w s' = view w s ∧ s'.flag = s.flag := by
  refine ⟨{ s with
    jobs := s.jobs.observe (if s.jobs.canExecute job then some job else none) }, ?_, ?_, rfl⟩
  · exact alone_step rfl
  · simp [view]

theorem pushBack_alone (s : Shared c.graph N) (job : Fin n) :
    ∃ s' : Shared c.graph N, (threads c).Alone (.worker w) (.ownPushBack job, s)
        (if ((s.mJobDeque w).pushBack job).size > 1 then .ownPopAgain else .steal, s') ∧
      view w s' = { view w s with mJobDeque := (s.mJobDeque w).pushBack job } ∧
      s'.flag = s.flag := by
  refine ⟨{ s with
    mJobDeque := Function.update s.mJobDeque w ((s.mJobDeque w).pushBack job) }, ?_, ?_, rfl⟩
  · have pushed : (threads c).Alone (.worker w) (.ownPushBack job, s) (.ownSizeAgain, _) :=
      alone_step rfl
    apply pushed.trans
    apply alone_step
    simp [Worker.code, Instr.exec]
  · simp [view]

/-- `GetJobFromOwnQueue` with nobody else moving. -/
theorem search_alone (s : Shared c.graph N) {job : Option (Fin n)} {d : LockingDeque (Fin n)}
    (h : getJobFromOwnQueue s.jobs.unfinished.canExecute (s.mJobDeque w) = .ok (job, d)) :
    ∃ s' : Shared c.graph N, (threads c).Alone (.worker w) (.ownSize, s) (found job, s') ∧
      view w s' = { view w s with mJobDeque := d } ∧ s'.flag = s.flag := by
  have sized : (threads c).Alone (.worker w) (.ownSize, s)
      (.ownPop (decide ((s.mJobDeque w).size > 1)), s) := alone_step rfl
  simp only [getJobFromOwnQueue, JobDeque.popFront, JobDeque.pushBack, JobDeque.size, bind,
    Except.bind, pure, Except.pure] at h
  generalize decide ((s.mJobDeque w).size > 1) = allow at sized h
  cases first : (s.mJobDeque w).popFront s.jobs.unfinished.canExecute allow with
  | mk taken e =>
    obtain ⟨u, popped, seen, flags⟩ := popFront_alone s (.ownPop allow) rfl first
    rw [first] at h
    cases taken with
    | none =>
      cases h
      exact ⟨u, sized.trans popped, seen, flags⟩
    | some front =>
      obtain ⟨u', checked, seen', flags'⟩ := check_alone (w := w) u front
      obtain ⟨deque, unfinished, ran⟩ := Worker.mk.inj (seen'.trans seen)
      have same : u.jobs.canExecute = s.jobs.unfinished.canExecute :=
        congrArg Counters.canExecute (congrArg Worker.unfinished seen)
      rw [same] at checked
      dsimp only at h
      split at h
      · rename_i can
        cases h
        rw [if_pos can] at checked
        exact ⟨u', (sized.trans popped).trans checked, seen'.trans seen, flags'.trans flags⟩
      · rename_i refuse
        rw [if_neg refuse] at checked
        obtain ⟨v, pushed, put, kept⟩ := pushBack_alone (w := w) u' front
        rw [deque] at pushed put
        have run := ((sized.trans popped).trans checked).trans pushed
        have put : view w v = { view w s with mJobDeque := e.pushBack front } := by
          rw [put, seen'.trans seen]
        have flags : v.flag = s.flag := (kept.trans flags').trans flags
        split at h
        · rename_i more
          rw [if_pos more] at run
          obtain ⟨deque, unfinished, _⟩ := Worker.mk.inj put
          have again : (v.mJobDeque w).popFront v.jobs.canExecute false = (job, d) := by
            rw [deque, show v.jobs.canExecute = _ from congrArg Counters.canExecute unfinished]
            exact Except.ok.inj h
          obtain ⟨x, last, seen, flags'⟩ := popFront_alone v .ownPopAgain rfl again
          refine ⟨x, run.trans last, ?_, flags'.trans flags⟩
          rw [seen, put]
        · rename_i few
          cases h
          rw [if_neg few] at run
          exact ⟨v, run, put, flags⟩

end

/-! ## The only worker moves -/

section
variable {c : Config n 1} {s : Shared c.graph 1}

/-- One pass of the loop of the only worker, with nobody else moving. -/
theorem iterate_alone (waits : c.waitForAvailableJobs = true)
    (running : s.flag (.mRunning 0) = true) {t : Worker (LockingDeque (Fin n)) n}
    (pass : (view 0 s).iterate c.graph = .ok t) :
    ∃ s' : Shared c.graph 1,
      (threads c).Alone (.worker 0) (.whileRunning, s) (.whileRunning, s') ∧
      view 0 s' = t ∧ s'.flag (.mRunning 0) = true := by
  cases has : (s.mJobDeque 0).hasExecutableJobs s.jobs.unfinished.canExecute with
  | false =>
    have stays : (view 0 s).iterate c.graph = .ok (view 0 s) := by
      simp [Worker.iterate, view, JobDeque.hasExecutableJobs, has, bind, Except.bind, pure,
        Except.pure]
    rw [stays] at pass
    cases pass
    exact ⟨s, .refl, rfl, running⟩
  | true =>
    let raised : Shared c.graph 1 :=
      { s with flag := Function.update s.flag (.mJobRunning 0) true }
    have began : (threads c).Alone (.worker 0) (.whileRunning, s) (.ownSize, raised) := by
      have checked : (threads c).Alone (.worker 0) (.whileRunning, s) (.checkJobs, s) :=
        alone_step (by simp [Worker.code, Instr.exec, running])
      have found : (threads c).Alone (.worker 0) (.checkJobs, s) (.raiseFlag, s) :=
        alone_step (by
          have has : (s.mJobDeque 0).hasExecutableJobs s.jobs.canExecute = true := has
          simp [Worker.code, Instr.exec, waits, has])
      exact (checked.trans found).trans (alone_step rfl)
    have lowered (u : Shared c.graph 1) : (threads c).Alone (.worker 0) (.lowerFlag, u)
        (.whileRunning, { u with flag := Function.update u.flag (.mJobRunning 0) false }) :=
      alone_step rfl
    cases searched : getJobFromOwnQueue s.jobs.unfinished.canExecute (s.mJobDeque 0) with
    | error fault =>
      simp [Worker.iterate, view, JobDeque.hasExecutableJobs, has, searched, bind, Except.bind]
        at pass
    | ok r =>
      obtain ⟨job, d⟩ := r
      obtain ⟨u, run, seen, flags⟩ := search_alone (w := 0) raised searched
      have kept : u.flag (.mRunning 0) = true := by
        rw [flags]
        simpa [raised] using running
      simp only [Worker.iterate, view, JobDeque.hasExecutableJobs, has, searched, bind, Except.bind,
        pure, Except.pure, Bool.not_true, Bool.false_eq_true, if_false] at pass
      cases job with
      | none =>
        cases pass
        have idle : (threads c).Alone (.worker 0) (.steal, u) (.lowerFlag, u) :=
          alone_step (by simp [Worker.code, Instr.exec])
        refine ⟨_, (began.trans run).trans (idle.trans (lowered u)), seen, ?_⟩
        simpa using kept
      | some job =>
        cases pass
        obtain ⟨m, executed, unfinished, ran⟩ := execute_alone (c := c) (w := 0) u job
        obtain ⟨deque, counters, order⟩ := Worker.mk.inj seen
        have checked : (threads c).Alone (.worker 0) (.checkFinished job, { u with jobs := m })
            (.lowerFlag, { u with jobs := m }) := alone_step rfl
        refine ⟨_, ((began.trans run).trans executed).trans (checked.trans (lowered _)), ?_, ?_⟩
        · change (⟨u.mJobDeque 0, m.unfinished, m.ran⟩ : Worker _ _) = _
          rw [deque, unfinished, ran, counters, order]
          rfl
        · simpa using kept

/-- Any number of passes. -/
theorem drain_alone (waits : c.waitForAvailableJobs = true) (running : s.flag (.mRunning 0) = true)
    {m : Nat} {t : Worker (LockingDeque (Fin n)) n} (h : (view 0 s).drain c.graph m = .ok t) :
    ∃ s' : Shared c.graph 1,
      (threads c).Alone (.worker 0) (.whileRunning, s) (.whileRunning, s') ∧
      view 0 s' = t ∧ s'.flag (.mRunning 0) = true := by
  induction m generalizing s with
  | zero =>
    cases h
    exact ⟨s, .refl, rfl, running⟩
  | succ m ih =>
    rw [Worker.drain] at h
    cases pass : (view 0 s).iterate c.graph with
    | error fault =>
      rw [pass] at h
      cases h
    | ok u =>
      rw [pass] at h
      obtain ⟨s', run, rfl, running⟩ := iterate_alone waits running pass
      obtain ⟨s'', rest, seen, running⟩ := ih running h
      exact ⟨s'', run.trans rest, seen, running⟩

end

section
variable {c : Config n 1} {s : State c}

/-- At the top of the only worker's loop, the jobs in its deque are those not
executed yet. -/
theorem accounts_of_top (h : (machine c).Reach noShutDown s)
    (top : s.pc (.worker 0) = .whileRunning) (all : ∀ job, added s job) :
    Accounts c.graph (s.shared.mJobDeque 0).mJobDeque s.shared.jobs.unfinished
      s.shared.jobs.ran := by
  have idle (t : Thread 1) : calls s t = .idle := by
    cases t with
    | worker w =>
      rw [Fin.fin_one_eq_zero w, calls, top]
      rfl
    | runner | main => rfl
  have inv := Execution.reachable_inv (executes h)
  have place (job : Fin n) : (s.shared.mJobDeque 0).mJobDeque.count job +
      s.shared.jobs.log.count (.started job) = 1 := by
    have place := placed h (all job)
    rw [started_iff_finished h idle]
    simpa [top, WorkerPc.hand] using place
  have subtracted := started_iff_subtracted h idle
  have released (e : c.graph.Entry) : .released e ∉ s.shared.jobs.log ↔
      e.1 ∈ (s.shared.mJobDeque 0).mJobDeque := by
    have := place e.1
    constructor
    · intro waiting
      by_contra outside
      have := List.count_eq_zero.mpr outside
      apply waiting
      apply released_of_subtracted h idle
      apply List.count_pos_iff.mp
      rw [← subtracted]
      omega
    · intro inside old
      have := List.count_pos_iff.mpr inside
      have := List.count_pos_iff.mpr (inv.history.subtracted old)
      rw [← subtracted] at this
      omega
  have nodup : (s.shared.mJobDeque 0).mJobDeque.Nodup := by
    apply List.nodup_iff_count_le_one.mpr
    intro job
    have := place job
    omega
  have pending_eq (job : Fin n) : pending s.shared.jobs.log job =
      ((s.shared.mJobDeque 0).mJobDeque.map fun i => (c.graph.dependants i).count job).sum := by
    simp only [pending, released]
    exact c.graph.card_entries_from job nodup
  constructor
  case nodup => exact nodup
  case ran_nodup =>
    apply List.nodup_iff_count_le_one.mpr
    intro job
    rw [Jobs.count_ran]
    have := place job
    omega
  case split =>
    intro job
    rw [← List.count_pos_iff, Jobs.count_ran, ← List.count_eq_zero]
    have := place job
    omega
  case waiting =>
    intro job inside
    have := place job
    have := List.count_pos_iff.mpr inside
    have counter := inv.counter job
    dsimp only at counter
    rw [counter, ← subtracted, pending_eq, Nat.cast_list_sum, List.map_map]
    have none : s.shared.jobs.log.count (.started job) = 0 := by omega
    simp [none, Function.comp_def]
  case done =>
    intro job outside
    have := place job
    have := List.count_eq_zero.mpr outside
    have counter := inv.counter job
    have cleared := inv.history.cleared_of_subtracted (j := job) (by
      apply List.count_pos_iff.mp
      rw [← subtracted]
      omega)
    dsimp only at counter cleared
    rw [← subtracted, cleared] at counter
    omega
  case ordered =>
    intro before job after eq i prerequisite
    exact inv.history.ran_ordered eq prerequisite

/-- From any state a run without `ShutDown` reaches at the top of the only worker's
loop, with all jobs added, that worker alone finishes them all. -/
theorem finishes_alone (waits : c.waitForAvailableJobs = true)
    (h : (machine c).Reach noShutDown s) (top : s.pc (.worker 0) = .whileRunning)
    (all : ∀ job, added s job) :
    ∃ s' : State c, (machine c).Reach noShutDown s' ∧
      (∀ t, t ≠ .worker 0 → s'.pc t = s.pc t) ∧ ∀ job, .finished job ∈ s'.shared.jobs.log := by
  have begun : Draining c.graph (view 0 s.shared) 0 (s.shared.mJobDeque 0).mJobDeque :=
    ⟨rfl, accounts_of_top h top all⟩
  obtain ⟨m, t, k, _, drained, empty⟩ := begun.drained fun _ => trivial
  obtain ⟨shared, run, rfl, _⟩ := drain_alone waits (mRunning_eq h 0) drained
  obtain ⟨s', reached, top', others, rfl⟩ : ∃ s' : State c, (machine c).Reach noShutDown s' ∧
      s'.pc (.worker 0) = .whileRunning ∧ (∀ t, t ≠ .worker 0 → s'.pc t = s.pc t) ∧
      s'.shared = shared := by
    rw [← top] at run
    have allowed (s : State c) (k : Nat) : noShutDown s (.worker 0, k) := fun main => by cases main
    have reached := Threads.Alone.reach allowed run h
    rw [top] at reached
    exact ⟨_, reached, s.move_self .., fun t other => s.move_other _ _ other, rfl⟩
  refine ⟨s', reached, others, fun job => ?_⟩
  have here : added s' job := by
    rw [added, others .runner (by simp)]
    exact all job
  have empty : (s'.shared.mJobDeque 0).mJobDeque = [] := empty.holds
  have place := placed reached here
  simp only [Fin.sum_univ_one, empty, top', WorkerPc.hand, List.count_nil, zero_add] at place
  apply List.count_pos_iff.mp
  omega

end
end System
end JobStealer
