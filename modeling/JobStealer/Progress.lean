import JobStealer.Execution

/-!
# Counters never block a job for good

`exact_counter` reads the counter of a job off the history, at every point of
every interleaving, and says that an executable job stays executable until its
own first `fetch_sub`. A job is therefore blocked by the entries naming it that
are still pending and by nothing else; as the graph has no cycle, some job that
was never executed can be executed as soon as nobody is executing (`progress`).
-/

namespace JobStealer
open Interleaving

variable {n : Nat} {g : Graph n} {C : Type} [DecidableEq C]

namespace Execution
variable {s t : State g C}

theorem step_log {a : Action n C} (move : step a s = some t) : s.jobs.log ⊆ t.jobs.log := by
  cases a with
  | observe j | start c j =>
    simp only [step, Option.ite_none_right_eq_some, Option.some.injEq] at move
    obtain ⟨_, rfl⟩ := move
    exact List.subset_cons_self ..
  | advance c =>
    simp only [step, Option.map_eq_some_iff] at move
    obtain ⟨⟨m, next⟩, move, rfl⟩ := move
    exact advance_log move

theorem log_grows (rest : ((machine g C).after s).Reachable t) : s.jobs.log ⊆ t.jobs.log := by
  apply rest.invariant (I := fun t => s.jobs.log ⊆ t.jobs.log) (List.Subset.refl _)
  intro u v a _ ih _ move
  exact List.Subset.trans ih (step_log move)

/-- Nothing pending and no `fetch_sub` made: the counter is back at 1. -/
theorem canExecute_iff (h : (machine g C).Reachable s) (j : Fin n) :
    s.jobs.canExecute j = true ↔ pending s.jobs.log j = 0 ∧ .subtracted j ∉ s.jobs.log := by
  have inv := reachable_inv h
  have counter := inv.counter j
  constructor
  · intro can
    have clear := inv.pending_of_canExecute can
    have one := (Counters.canExecute_iff _ _).mp can
    refine ⟨clear, List.count_eq_zero.mp ?_⟩
    omega
  · rintro ⟨clear, fresh⟩
    have none := List.count_eq_zero.mpr fresh
    apply (Counters.canExecute_iff _ _).mpr
    omega

/-- The job is on its way to its `fetch_sub`, or past it. -/
def Underway (s : State g C) (j : Fin n) : Prop :=
  .subtracted j ∈ s.jobs.log ∨ ∃ c, j ∈ (s.call c).unsubtracted

theorem step_underway {j : Fin n} {a : Action n C} (h : Underway s j)
    (move : step a s = some t) : Underway t j := by
  cases h with
  | inl done => exact .inl (step_log move done)
  | inr busy =>
    obtain ⟨d, hd⟩ := busy
    cases a with
    | observe i =>
      simp only [step, Option.ite_none_right_eq_some, Option.some.injEq] at move
      obtain ⟨_, rfl⟩ := move
      exact .inr ⟨d, hd⟩
    | start c i =>
      simp only [step, Option.ite_none_right_eq_some, Option.some.injEq] at move
      obtain ⟨⟨idle, _⟩, rfl⟩ := move
      have apart : d ≠ c := by
        rintro rfl
        rw [idle] at hd
        cases hd
      refine .inr ⟨d, ?_⟩
      dsimp only
      rwa [Function.update_of_ne apart]
    | advance c =>
      simp only [step, Option.map_eq_some_iff] at move
      obtain ⟨⟨m, next⟩, move, rfl⟩ := move
      by_cases same : d = c
      · subst same
        have balance := advance_subtracted move j
        have held := List.count_pos_iff.mpr hd
        by_cases done : .subtracted j ∈ m.log
        · exact .inl done
        · have none := List.count_eq_zero.mpr done
          refine .inr ⟨d, ?_⟩
          dsimp only
          rw [Function.update_self, ← List.count_pos_iff]
          omega
      · refine .inr ⟨d, ?_⟩
        dsimp only
        rwa [Function.update_of_ne same]

theorem step_started {j : Fin n} {a : Action n C} (move : step a s = some t)
    (hj : .started j ∈ t.jobs.log) : .started j ∈ s.jobs.log ∨ Underway t j := by
  cases a with
  | observe i =>
    simp only [step, Option.ite_none_right_eq_some, Option.some.injEq] at move
    obtain ⟨_, rfl⟩ := move
    exact .inl (by simpa using hj)
  | start c i =>
    simp only [step, Option.ite_none_right_eq_some, Option.some.injEq] at move
    obtain ⟨_, rfl⟩ := move
    by_cases new : j = i
    · subst new
      exact .inr (.inr ⟨c, by simp [Call.unsubtracted]⟩)
    · exact .inl (by simpa [new] using hj)
  | advance c =>
    simp only [step, Option.map_eq_some_iff] at move
    obtain ⟨⟨m, next⟩, move, rfl⟩ := move
    left
    rw [← List.count_pos_iff, ← advance_started move, List.count_pos_iff]
    exact hj

theorem underway (h : (machine g C).Reachable s) {j : Fin n} (hj : .started j ∈ s.jobs.log) :
    Underway s j := by
  induction h with
  | start => cases hj
  | next run _ move ih =>
    exact (step_started move hj).elim (fun old => step_underway (ih old) move) id

/-- While nobody executes, whatever was started has released all its dependants. -/
theorem released_of_started (h : (machine g C).Reachable s) (idle : ∀ c, s.call c = .idle)
    {e : g.Entry} (started : .started e.1 ∈ s.jobs.log) : .released e ∈ s.jobs.log := by
  have subtracted : .subtracted e.1 ∈ s.jobs.log := by
    cases underway h started with
    | inl done => exact done
    | inr busy =>
      obtain ⟨c, hc⟩ := busy
      rw [idle c] at hc
      cases hc
  cases (reachable_inv h).looped e.1 subtracted with
  | inl inside =>
    obtain ⟨c, k, hc, _⟩ := inside
    rw [idle c] at hc
    cases hc
  | inr all => exact all e rfl

end Execution

/-- At every point of every interleaving the counter of a job is one more than
the entries naming it still to be decremented, less the `fetch_sub`s on it. No
entry is decremented twice, and an executable job stays executable up to its own
first `fetch_sub`. -/
theorem exact_counter {s : Execution.State g C} (hs : (Execution.machine g C).Reachable s) :
    (∀ j, s.jobs.unfinished j =
      1 + pending s.jobs.log j - s.jobs.log.count (.subtracted j)) ∧
    (∀ e, s.jobs.log.count (.released e) ≤ 1) ∧
    ∀ j, s.jobs.canExecute j = true → ∀ t, ((Execution.machine g C).after s).Reachable t →
      .subtracted j ∉ t.jobs.log → t.jobs.canExecute j = true := by
  have inv := Execution.reachable_inv hs
  refine ⟨inv.counter, inv.history.once, ?_⟩
  intro j can t rest fresh
  apply (Execution.canExecute_iff (hs.trans rest) j).mpr
  have clear := inv.pending_of_canExecute can
  have fewer := pending_mono (Execution.log_grows rest) j
  exact ⟨by omega, fresh⟩

/-- Two calls subtracted from the prerequisite; its single entry was released by
the first of them only. -/
theorem exact_counter_pair : ∃ s,
    (Execution.machine pair (Fin 2)).run pairRun (Execution.machine pair (Fin 2)).start = some s ∧
    s.jobs.unfinished 1 = -1 ∧ s.jobs.canExecute 0 = true ∧ s.jobs.unfinished 1 =
      1 + pending s.jobs.log 1 - s.jobs.log.count (.subtracted 1) :=
  ⟨_, rfl, rfl, rfl, (exact_counter (Machine.exec_start pairRun rfl)).1 1⟩

/-- The constructors cannot build a cycle. As long as some job was never executed
and nobody is executing, one of those jobs can be executed; once each of them has
been, none can. -/
theorem progress {s : Execution.State g C} (hs : (Execution.machine g C).Reachable s) :
    (∀ i, ¬ Relation.TransGen g.Prerequisite i i) ∧
    ((∀ c, s.call c = .idle) → (∃ j, .started j ∉ s.jobs.log) →
      ∃ j, .started j ∉ s.jobs.log ∧ s.jobs.canExecute j = true) ∧
    ((∀ j, .finished j ∈ s.jobs.log) → ∀ j, s.jobs.canExecute j = false) := by
  refine ⟨fun i => g.prerequisite_wellFounded.transGen.irrefl.irrefl i, ?_, ?_⟩
  · rintro idle blocked
    -- a job whose prerequisites have all been started
    obtain ⟨j, new, first⟩ := g.prerequisite_wellFounded.has_min
      {j | Event.started j ∉ s.jobs.log} blocked
    refine ⟨j, new, (Execution.canExecute_iff hs j).mpr ⟨?_, ?_⟩⟩
    · apply pending_zero_iff.mpr
      rintro e rfl
      apply Execution.released_of_started hs idle
      by_contra never
      exact first e.1 never (g.prerequisite_target e)
    · intro subtracted
      have history := (Execution.reachable_inv hs).history
      exact new (history.started (history.ended subtracted))
  · intro all j
    have subtracted := (Execution.reachable_inv hs).history.finished (all j)
    by_contra can
    have can : s.jobs.canExecute j = true := by simpa using can
    exact ((Execution.canExecute_iff hs j).mp can).2 subtracted

/-- Both calls of the prerequisite are over, and the first of them has released the
dependant; then the dependant is finished as well. -/
theorem progress_pair : (∃ s,
    (Execution.machine pair (Fin 2)).run (pairRun.take 10 ++ [.advance 0])
      (Execution.machine pair (Fin 2)).start = some s ∧
    s.jobs.log.count (.finished 1) = 2 ∧ s.jobs.unfinished 1 = -1 ∧
    ∃ j, .started j ∉ s.jobs.log ∧ s.jobs.canExecute j = true) ∧
    ∃ s, (Execution.machine pair (Fin 2)).run
      (pairRun ++ [.advance 0, .advance 1, .advance 1, .advance 1])
      (Execution.machine pair (Fin 2)).start = some s ∧
    (∀ j, .finished j ∈ s.jobs.log) ∧ ∀ j, s.jobs.canExecute j = false := by
  have released : ∃ s, (Execution.machine pair (Fin 2)).run (pairRun.take 10 ++ [.advance 0])
      (Execution.machine pair (Fin 2)).start = some s ∧
      s.jobs.log.count (.finished 1) = 2 ∧ s.jobs.unfinished 1 = -1 ∧
      (∀ c, s.call c = .idle) ∧ .started 0 ∉ s.jobs.log :=
    ⟨_, rfl, by decide, rfl, by decide, by decide⟩
  have finished : ∃ s, (Execution.machine pair (Fin 2)).run
      (pairRun ++ [.advance 0, .advance 1, .advance 1, .advance 1])
      (Execution.machine pair (Fin 2)).start = some s ∧ ∀ j, .finished j ∈ s.jobs.log :=
    ⟨_, rfl, by decide⟩
  constructor
  · obtain ⟨s, run, twice, counter, idle, new⟩ := released
    have next := (progress (Machine.exec_start _ run)).2.1 idle ⟨0, new⟩
    exact ⟨s, run, twice, counter, next⟩
  · obtain ⟨s, run, all⟩ := finished
    exact ⟨s, run, all, (progress (Machine.exec_start _ run)).2.2 all⟩

end JobStealer
