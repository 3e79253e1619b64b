import JobStealer.Graph
import JobStealer.Threads

/-!
# Executing jobs concurrently

Any number of `Execute` calls run at once, also several on one job: the queues
may hand a job out more than once. The only guard is that an `Execute` of a job
follows some observation `CanExecute() == true` of that job. `Finish` is not
atomic: its `fetch_sub` is one step and each decrement of a dependant another.

`Inv` is what every interleaving keeps: the counter of a job is one more than
the entries naming it that are not released yet, less the `fetch_sub`s on it.
-/

namespace JobStealer
open Interleaving

variable {n : Nat} {g : Graph n}

/-- What happens to jobs, as the outside world could record it. -/
inductive Event (g : Graph n)
  /-- a `CanExecute()` answered true -/
  | observed (j : Fin n)
  | started (j : Fin n)
  | ended (j : Fin n)
  /-- the `fetch_sub` of a `Finish` on its own counter -/
  | subtracted (j : Fin n)
  /-- the decrement a `Finish` makes for one entry of its `mDependants` -/
  | released (e : g.Entry)
  /-- a `Finish` returned -/
  | finished (j : Fin n)
  deriving DecidableEq

/-- The counters, and the history of the jobs, newest event first. -/
structure Jobs (g : Graph n) where
  unfinished : Counters n
  log : List (Event g)

namespace Jobs

def built (g : Graph n) : Jobs g := ⟨g.build, []⟩

def note (m : Jobs g) (e : Event g) : Jobs g := { m with log := e :: m.log }

def canExecute (m : Jobs g) (j : Fin n) : Bool := m.unfinished.canExecute j

def isFinished (m : Jobs g) (j : Fin n) : Bool := m.unfinished.isFinished j

def fetchSub (m : Jobs g) (j : Fin n) : Jobs g :=
  ⟨m.unfinished.add j (-1), .subtracted j :: m.log⟩

def release (m : Jobs g) (e : g.Entry) : Jobs g :=
  ⟨m.unfinished.add e.target (-1), .released e :: m.log⟩

@[simp] theorem note_unfinished (m : Jobs g) (e : Event g) : (m.note e).unfinished = m.unfinished :=
  rfl

@[simp] theorem note_log (m : Jobs g) (e : Event g) : (m.note e).log = e :: m.log := rfl

@[simp] theorem fetchSub_unfinished (m : Jobs g) (j : Fin n) :
    (m.fetchSub j).unfinished = m.unfinished.add j (-1) := rfl

@[simp] theorem fetchSub_log (m : Jobs g) (j : Fin n) :
    (m.fetchSub j).log = .subtracted j :: m.log := rfl

@[simp] theorem release_unfinished (m : Jobs g) (e : g.Entry) :
    (m.release e).unfinished = m.unfinished.add e.target (-1) := rfl

@[simp] theorem release_log (m : Jobs g) (e : g.Entry) :
    (m.release e).log = .released e :: m.log := rfl

end Jobs

/-- Where one `Execute` call stands. `releasing i k` is `Finish` of `i` about to
look at entry `k`; past the last entry it returns. -/
inductive Call (n : Nat)
  | idle
  | running (j : Fin n)
  | finishing (j : Fin n)
  | releasing (i : Fin n) (k : Nat)
  deriving DecidableEq

/-- The job being executed. -/
def Call.jobs : Call n → List (Fin n)
  | .idle => []
  | .running j | .finishing j | .releasing j _ => [j]

/-- The job being executed, up to the `fetch_sub` on its counter. -/
def Call.unsubtracted : Call n → List (Fin n)
  | .running j | .finishing j => [j]
  | _ => []

/-- `Finish` after its `fetch_sub`, which left `unfinishedJobs` in the counter:
the loop over the dependants is entered at 0 only. -/
def Call.afterFetchSub (g : Graph n) (j : Fin n) (unfinishedJobs : Int) : Call n :=
  if unfinishedJobs = 0 ∧ (g.dependants j).length ≠ 0 then .releasing j 0
  else .releasing j (g.dependants j).length

namespace Execution

/-- `call c` is the `Execute` call of thread `c`. -/
structure State (g : Graph n) (C : Type) where
  jobs : Jobs g
  call : C → Call n

inductive Action (n : Nat) (C : Type)
  | observe (j : Fin n)
  | start (c : C) (j : Fin n)
  | advance (c : C)

variable {C : Type} [DecidableEq C]

/-- The next step of a call in progress. -/
def advance (m : Jobs g) : Call n → Option (Jobs g × Call n)
  | .idle => none
  | .running j => some (m.note (.ended j), .finishing j)
  | .finishing j => some (m.fetchSub j, Call.afterFetchSub g j (m.unfinished j - 1))
  | .releasing i k =>
    if h : k < (g.dependants i).length then some (m.release ⟨i, k, h⟩, .releasing i (k + 1))
    else some (m.note (.finished i), .idle)

def step : Action n C → State g C → Option (State g C)
  | .observe j, s =>
    if s.jobs.canExecute j then some { s with jobs := s.jobs.note (.observed j) } else none
  | .start c j, s =>
    if s.call c = .idle ∧ .observed j ∈ s.jobs.log then
      some ⟨s.jobs.note (.started j), Function.update s.call c (.running j)⟩
    else none
  | .advance c, s =>
    (advance s.jobs (s.call c)).map fun r => ⟨r.1, Function.update s.call c r.2⟩

/-- All jobs constructed, none executed. -/
def machine (g : Graph n) (C : Type) [DecidableEq C] : Machine (State g C) (Action n C) where
  start := ⟨.built g, fun _ => .idle⟩
  step := step

end Execution

/-! ## The invariant -/

/-- The entries naming `j` whose decrement is still to come. -/
def pending (log : List (Event g)) (j : Fin n) : Nat :=
  (Finset.univ.filter fun e : g.Entry => e.target = j ∧ .released e ∉ log).card

theorem pending_zero_iff {log : List (Event g)} {j : Fin n} :
    pending log j = 0 ↔ ∀ e : g.Entry, e.target = j → .released e ∈ log := by
  simp [pending, Finset.filter_eq_empty_iff]

theorem pending_cons_of_ne {log : List (Event g)} {ev : Event g} (h : ∀ e, ev ≠ .released e)
    (j : Fin n) : pending (ev :: log) j = pending log j := by
  have (e : g.Entry) : Event.released e ∉ ev :: log ↔ .released e ∉ log := by
    simp [Ne.symm (h e)]
  simp only [pending, this]

theorem pending_release {log : List (Event g)} {e : g.Entry} (new : .released e ∉ log)
    (j : Fin n) :
    pending (.released e :: log) j + (if e.target = j then 1 else 0) = pending log j := by
  have erased :
      (Finset.univ.filter fun x : g.Entry => x.target = j ∧ .released x ∉ .released e :: log) =
        (Finset.univ.filter fun x : g.Entry => x.target = j ∧ .released x ∉ log).erase e := by
    ext x
    simp only [List.mem_cons, Event.released.injEq, not_or, Finset.mem_filter, Finset.mem_univ,
      true_and, Finset.mem_erase]
    tauto
  rw [pending, pending, erased]
  split
  · rename_i hit
    exact Finset.card_erase_add_one (by simp [hit, new])
  · rename_i miss
    rw [Finset.erase_eq_of_notMem (by simp [miss]), add_zero]

/-- What a call in progress has on record. -/
def CallOk (log : List (Event g)) : Call n → Prop
  | .idle => True
  | .running j => .started j ∈ log
  | .finishing j => .ended j ∈ log
  | .releasing i k =>
    .subtracted i ∈ log ∧ ∀ _ : k < (g.dependants i).length,
      ∀ e : g.Entry, e.1 = i → (.released e ∈ log ↔ e.2.val < k)

/-- The call is inside the loop over the dependants of `i`. -/
def Releasing (g : Graph n) (i : Fin n) (call : Call n) : Prop :=
  ∃ k, call = .releasing i k ∧ k < (g.dependants i).length

/-- What has to be on record before an event. -/
def Follows (log : List (Event g)) : Event g → Prop
  | .observed j => pending log j = 0
  | .started j => .observed j ∈ log
  | .ended j => .started j ∈ log
  | .subtracted j => .ended j ∈ log
  | .released e => .subtracted e.1 ∈ log ∧ .released e ∉ log
  | .finished j => .subtracted j ∈ log

/-- Every event of the history follows the events before it. -/
def HistoryOk : List (Event g) → Prop
  | [] => True
  | ev :: log => Follows log ev ∧ HistoryOk log

structure Inv {C : Type} (m : Jobs g) (call : C → Call n) : Prop where
  counter : ∀ j, m.unfinished j = 1 + pending m.log j - m.log.count (.subtracted j)
  history : HistoryOk m.log
  calls : ∀ c, CallOk m.log (call c)
  /-- the loop over a job's dependants is entered by one call only -/
  alone : ∀ i c c', Releasing g i (call c) → Releasing g i (call c') → c = c'
  /-- after the first `fetch_sub` that loop is going on or is over -/
  looped : ∀ i, .subtracted i ∈ m.log →
    (∃ c, Releasing g i (call c)) ∨ ∀ e : g.Entry, e.1 = i → .released e ∈ m.log

theorem pending_mono {log past : List (Event g)} (h : past ⊆ log) (j : Fin n) :
    pending log j ≤ pending past j := by
  apply Finset.card_le_card
  intro e he
  simp only [Finset.mem_filter, Finset.mem_univ, true_and] at he ⊢
  exact ⟨he.1, fun old => he.2 (h old)⟩

namespace HistoryOk

theorem split {past later : List (Event g)} {ev : Event g} (h : HistoryOk (later ++ ev :: past)) :
    Follows past ev ∧ HistoryOk past := by
  induction later with
  | nil => exact h
  | cons _ _ ih => exact ih h.2

/-- An event on record followed its own past. -/
theorem follows {log : List (Event g)} {ev : Event g} (h : HistoryOk log) (hev : ev ∈ log) :
    ∃ past, past ⊆ log ∧ HistoryOk past ∧ Follows past ev := by
  obtain ⟨later, past, rfl⟩ := List.append_of_mem hev
  exact ⟨past, fun x hx => by simp [hx], h.split.2, h.split.1⟩

variable {log : List (Event g)}

theorem cleared (h : HistoryOk log) {j : Fin n} (hj : .observed j ∈ log) : pending log j = 0 := by
  obtain ⟨past, sub, _, clear⟩ := h.follows hj
  have := pending_mono sub j
  change pending past j = 0 at clear
  omega

theorem observed (h : HistoryOk log) {j : Fin n} (hj : .started j ∈ log) : .observed j ∈ log := by
  obtain ⟨past, sub, _, before⟩ := h.follows hj
  exact sub before

theorem started (h : HistoryOk log) {j : Fin n} (hj : .ended j ∈ log) : .started j ∈ log := by
  obtain ⟨past, sub, _, before⟩ := h.follows hj
  exact sub before

theorem ended (h : HistoryOk log) {j : Fin n} (hj : .subtracted j ∈ log) : .ended j ∈ log := by
  obtain ⟨past, sub, _, before⟩ := h.follows hj
  exact sub before

theorem subtracted (h : HistoryOk log) {e : g.Entry} (he : .released e ∈ log) :
    .subtracted e.1 ∈ log := by
  obtain ⟨past, sub, _, before⟩ := h.follows he
  exact sub before.1

theorem finished (h : HistoryOk log) {j : Fin n} (hj : .finished j ∈ log) :
    .subtracted j ∈ log := by
  obtain ⟨past, sub, _, before⟩ := h.follows hj
  exact sub before

/-- A job that was `fetch_sub`ed was observed executable. -/
theorem cleared_of_subtracted (h : HistoryOk log) {j : Fin n} (hj : .subtracted j ∈ log) :
    pending log j = 0 := h.cleared (h.observed (h.started (h.ended hj)))

theorem once (h : HistoryOk log) (e : g.Entry) : log.count (.released e) ≤ 1 := by
  induction log with
  | nil => simp
  | cons ev log ih =>
    rw [List.count_cons]
    by_cases same : ev = .released e
    · subst same
      simp [List.count_eq_zero.mpr h.1.2]
    · simpa [same] using ih h.2

end HistoryOk

/-! ## One step keeps the invariant -/

theorem CallOk.cons {log : List (Event g)} {ev : Event g} (quiet : ∀ e, ev ≠ .released e)
    {call : Call n} (h : CallOk log call) : CallOk (ev :: log) call := by
  cases call with
  | idle => trivial
  | running j => exact List.mem_cons_of_mem _ h
  | finishing j => exact List.mem_cons_of_mem _ h
  | releasing i k =>
    refine ⟨List.mem_cons_of_mem _ h.1, fun hk e he => ?_⟩
    rw [← h.2 hk e he]
    simp [Ne.symm (quiet e)]

theorem not_releasing_afterFetchSub {i j : Fin n} {u : Int} (h : u ≠ 0) :
    ¬ Releasing g i (Call.afterFetchSub g j u) := by
  rintro ⟨k, eq, hk⟩
  rw [Call.afterFetchSub, if_neg (fun h' => h h'.1)] at eq
  cases eq
  exact lt_irrefl _ hk

theorem releasing_afterFetchSub {i j : Fin n} {u : Int}
    (h : Releasing g i (Call.afterFetchSub g j u)) : u = 0 ∧ i = j := by
  by_cases hu : u = 0
  · refine ⟨hu, ?_⟩
    obtain ⟨k, eq, _⟩ := h
    unfold Call.afterFetchSub at eq
    split at eq <;> cases eq <;> rfl
  · exact absurd h (not_releasing_afterFetchSub hu)

namespace Inv
variable {C : Type} {m : Jobs g} {call : C → Call n}

theorem start (g : Graph n) : Inv (Jobs.built g) fun _ : C => .idle where
  counter j := by
    have all : pending ([] : List (Event g)) j = ∑ i, (g.dependants i).count j := by
      simpa [pending] using g.card_entries j
    simp [Jobs.built, g.build_eq, all]
  history := trivial
  calls _ := trivial
  alone i c _ h := by
    obtain ⟨_, h, _⟩ := h
    cases h
  looped i h := by cases h

/-- A job about to be `fetch_sub`ed holds minus the number of earlier ones. -/
theorem counter_finishing (h : Inv m call) {c : C} {j : Fin n} (hc : call c = .finishing j) :
    m.unfinished j = 1 - m.log.count (.subtracted j) := by
  have ended : .ended j ∈ m.log := by simpa [hc, CallOk] using h.calls c
  have clear := h.history.cleared (h.history.observed (h.history.started ended))
  have := h.counter j
  rw [clear] at this
  simpa using this

/-- An observation is of a job all of whose prerequisites released it: a
counter at 1 after a `fetch_sub` would need an entry still pending. -/
theorem pending_of_canExecute (h : Inv m call) {j : Fin n}
    (can : m.canExecute j = true) : pending m.log j = 0 := by
  have one := (Counters.canExecute_iff _ _).mp can
  have counter := h.counter j
  by_cases fresh : .subtracted j ∈ m.log
  · exact h.history.cleared_of_subtracted fresh
  · have := List.count_eq_zero.mpr fresh
    omega

variable [DecidableEq C]

/-- Events that change no counter. -/
theorem note (h : Inv m call) {ev : Event g} (released : ∀ e, ev ≠ .released e)
    (subtracted : ∀ j, ev ≠ .subtracted j) (follows : Follows m.log ev) (c : C) {next : Call n}
    (ok : CallOk (ev :: m.log) next) (same : ∀ i, Releasing g i next ↔ Releasing g i (call c)) :
    Inv (m.note ev) (Function.update call c next) := by
  have loop (i : Fin n) (d : C) :
      Releasing g i (Function.update call c next d) ↔ Releasing g i (call d) := by
    by_cases hd : d = c
    · subst hd
      rw [Function.update_self, same]
    · rw [Function.update_of_ne hd]
  refine ⟨fun j => ?_, ⟨follows, h.history⟩, fun d => ?_, fun i d d' hd hd' => ?_, fun i hi => ?_⟩
  · rw [Jobs.note_log, Jobs.note_unfinished, pending_cons_of_ne released,
      List.count_cons_of_ne (subtracted j)]
    exact h.counter j
  · by_cases hd : d = c
    · subst hd
      rwa [Function.update_self]
    · rw [Function.update_of_ne hd]
      exact (h.calls d).cons released
  · exact h.alone i d d' ((loop i d).mp hd) ((loop i d').mp hd')
  · have old : .subtracted i ∈ m.log := by
      simpa [Ne.symm (subtracted i)] using hi
    rcases h.looped i old with ⟨d, hd⟩ | all
    · exact .inl ⟨d, (loop i d).mpr hd⟩
    · exact .inr fun e he => List.mem_cons_of_mem _ (all e he)

theorem fetchSub (h : Inv m call) {c : C} {j : Fin n} (hc : call c = .finishing j) :
    Inv (m.fetchSub j)
      (Function.update call c (Call.afterFetchSub g j (m.unfinished j - 1))) := by
  have value := h.counter_finishing hc
  have ended : .ended j ∈ m.log := by simpa [hc, CallOk] using h.calls c
  have idle (i : Fin n) : ¬ Releasing g i (call c) := by
    rintro ⟨_, eq, _⟩
    rw [hc] at eq
    cases eq
  -- the loop is entered by the first `fetch_sub`, so no other call is in it
  have first {i : Fin n} (hr : Releasing g i (Call.afterFetchSub g j (m.unfinished j - 1))) :
      i = j ∧ .subtracted j ∉ m.log := by
    obtain ⟨zero, rfl⟩ := releasing_afterFetchSub hr
    refine ⟨rfl, List.count_eq_zero.mp ?_⟩
    omega
  have other {i : Fin n} {d : C} (hd : Releasing g i (call d)) : .subtracted i ∈ m.log := by
    obtain ⟨k, eq, _⟩ := hd
    have := h.calls d
    rw [eq] at this
    exact this.1
  refine ⟨fun i => ?_, ⟨ended, h.history⟩, fun d => ?_, fun i d d' hd hd' => ?_, fun i hi => ?_⟩
  · rw [Jobs.fetchSub_log, Jobs.fetchSub_unfinished, pending_cons_of_ne (by simp),
      List.count_cons]
    by_cases hi : i = j
    · subst hi
      have := h.counter i
      simp only [Counters.add_self, beq_self_eq_true, ↓reduceIte, Nat.cast_add, Nat.cast_one]
      omega
    · rw [Counters.add_other _ _ hi, h.counter i]
      simp [Ne.symm hi]
  · by_cases hd : d = c
    · subst hd
      rw [Function.update_self]
      unfold Call.afterFetchSub
      split
      · rename_i zero
        refine ⟨by simp, fun _ e he => ?_⟩
        have none : .released e ∉ m.log := fun old => by
          have := h.history.subtracted old
          rw [he] at this
          have := List.count_pos_iff.mpr this
          omega
        simp [none]
      · exact ⟨by simp, fun hk => absurd hk (lt_irrefl _)⟩
    · rw [Function.update_of_ne hd]
      exact (h.calls d).cons (by simp)
  · by_cases hdc : d = c <;> by_cases hdc' : d' = c
    · rw [hdc, hdc']
    · subst hdc
      rw [Function.update_self] at hd
      rw [Function.update_of_ne hdc'] at hd'
      obtain ⟨rfl, fresh⟩ := first hd
      exact absurd (other hd') fresh
    · subst hdc'
      rw [Function.update_self] at hd'
      rw [Function.update_of_ne hdc] at hd
      obtain ⟨rfl, fresh⟩ := first hd'
      exact absurd (other hd) fresh
    · rw [Function.update_of_ne hdc] at hd
      rw [Function.update_of_ne hdc'] at hd'
      exact h.alone i d d' hd hd'
  · by_cases old : .subtracted i ∈ m.log
    · rcases h.looped i old with ⟨d, hd⟩ | all
      · have hdc : d ≠ c := fun eq => idle i (eq ▸ hd)
        exact .inl ⟨d, by rwa [Function.update_of_ne hdc]⟩
      · exact .inr fun e he => List.mem_cons_of_mem _ (all e he)
    · obtain rfl : i = j := by simpa [old] using hi
      have zero : m.unfinished i - 1 = 0 := by
        have := List.count_eq_zero.mpr old
        omega
      by_cases empty : (g.dependants i).length = 0
      · right
        intro e he
        subst he
        have := e.2.isLt
        omega
      · refine .inl ⟨c, 0, ?_, Nat.pos_of_ne_zero empty⟩
        rw [Function.update_self, Call.afterFetchSub, if_pos ⟨zero, empty⟩]

theorem release (h : Inv m call) {c : C} {e : g.Entry} (hc : call c = .releasing e.1 e.2) :
    Inv (m.release e) (Function.update call c (.releasing e.1 (e.2 + 1))) := by
  have ok := h.calls c
  rw [hc] at ok
  obtain ⟨began, front⟩ := ok
  have front := front e.2.isLt
  have inside : Releasing g e.1 (call c) := ⟨e.2, hc, e.2.isLt⟩
  have new : .released e ∉ m.log := fun old => lt_irrefl _ ((front e rfl).mp old)
  have back {d : C} {i : Fin n}
      (hd : Releasing g i (Function.update call c (.releasing e.1 (e.2 + 1)) d)) :
      Releasing g i (call d) := by
    by_cases hdc : d = c
    · subst hdc
      rw [Function.update_self] at hd
      obtain ⟨_, eq, _⟩ := hd
      cases eq
      exact inside
    · rwa [Function.update_of_ne hdc] at hd
  -- the entries of the same list on record are now those up to this one
  have grown (x : g.Entry) (same : x.1 = e.1) :
      .released x ∈ (m.release e).log ↔ x.2.val < e.2 + 1 := by
    obtain ⟨i, k⟩ := e
    obtain ⟨_, l⟩ := x
    cases same
    have := front ⟨i, l⟩ rfl
    simp only [Jobs.release_log, List.mem_cons, Event.released.injEq, Sigma.mk.injEq, heq_eq_eq,
      true_and, Fin.ext_iff, this]
    omega
  refine ⟨fun j => ?_, ⟨⟨began, new⟩, h.history⟩, fun d => ?_, fun i d d' hd hd' => ?_,
    fun i hi => ?_⟩
  · have fewer := pending_release new j
    have count : (m.release e).log.count (.subtracted j) = m.log.count (.subtracted j) := by simp
    have old := h.counter j
    rw [count, Jobs.release_log, Jobs.release_unfinished]
    by_cases hit : e.target = j
    · rw [if_pos hit] at fewer
      rw [← hit, Counters.add_self, hit]
      omega
    · rw [if_neg hit] at fewer
      rw [Counters.add_other _ _ (Ne.symm hit)]
      omega
  · by_cases hdc : d = c
    · subst hdc
      rw [Function.update_self]
      exact ⟨List.mem_cons_of_mem _ began, fun _ => grown⟩
    · rw [Function.update_of_ne hdc]
      have ok := h.calls d
      generalize hcd : call d = other at ok
      cases other with
      | idle => trivial
      | running j => exact List.mem_cons_of_mem _ ok
      | finishing j => exact List.mem_cons_of_mem _ ok
      | releasing i l =>
        refine ⟨List.mem_cons_of_mem _ ok.1, fun hl x hx => ?_⟩
        have apart : i ≠ e.1 := fun eq => by
          subst eq
          exact hdc (h.alone _ d c ⟨l, hcd, hl⟩ inside)
        have differs : x ≠ e := fun eq => apart (by rw [← hx, eq])
        rw [← ok.2 hl x hx]
        simp [differs]
  · exact h.alone i d d' (back hd) (back hd')
  · rcases h.looped i (by simpa using hi) with ⟨d, hd⟩ | all
    · by_cases hdc : d = c
      · obtain rfl : i = e.1 := by
          obtain ⟨_, eq, _⟩ := hd
          rw [hdc, hc] at eq
          cases eq
          rfl
        by_cases last : e.2 + 1 < (g.dependants e.1).length
        · exact .inl ⟨c, e.2 + 1, Function.update_self .., last⟩
        · refine .inr fun x hx => (grown x hx).mpr ?_
          have len : (g.dependants x.1).length = (g.dependants e.1).length := by rw [hx]
          have := x.2.isLt
          omega
      · exact .inl ⟨d, by rwa [Function.update_of_ne hdc]⟩
    · exact .inr fun x hx => List.mem_cons_of_mem _ (all x hx)

end Inv

/-! ## Every interleaving -/

namespace Execution
variable {C : Type} [DecidableEq C]

theorem advance_inv {m m' : Jobs g} {call : C → Call n} {c : C} {next : Call n} (h : Inv m call)
    (move : advance m (call c) = some (m', next)) : Inv m' (Function.update call c next) := by
  have ok := h.calls c
  generalize hc : call c = now at move ok
  cases now with
  | idle => cases move
  | running j =>
    cases move
    have follows : Follows m.log (.ended j) := ok
    exact h.note (by simp) (by simp) follows c (List.mem_cons_self ..) (by simp [Releasing, hc])
  | finishing j =>
    cases move
    exact h.fetchSub hc
  | releasing i k =>
    rw [advance] at move
    split at move
    · rename_i hk
      cases move
      exact h.release (e := ⟨i, k, hk⟩) hc
    · rename_i hk
      cases move
      have follows : Follows m.log (.finished i) := ok.1
      refine h.note (by simp) (by simp) follows c trivial fun x => ?_
      rw [hc]
      constructor
      · rintro ⟨_, eq, _⟩
        cases eq
      · rintro ⟨_, eq, inside⟩
        cases eq
        exact absurd inside hk

theorem step_inv {s t : State g C} {a : Action n C} (h : Inv s.jobs s.call)
    (move : step a s = some t) : Inv t.jobs t.call := by
  cases a with
  | observe j =>
    simp only [step, Option.ite_none_right_eq_some, Option.some.injEq] at move
    obtain ⟨can, rfl⟩ := move
    refine ⟨fun i => ?_, ⟨h.pending_of_canExecute can, h.history⟩,
      fun c => (h.calls c).cons (by simp), h.alone, fun i hi => ?_⟩
    · rw [Jobs.note_log, Jobs.note_unfinished, pending_cons_of_ne (by simp),
        List.count_cons_of_ne (by simp)]
      exact h.counter i
    · apply (h.looped i (by simpa using hi)).imp_right
      intro all e he
      exact List.mem_cons_of_mem _ (all e he)
  | start c j =>
    simp only [step, Option.ite_none_right_eq_some, Option.some.injEq] at move
    obtain ⟨⟨idle, seen⟩, rfl⟩ := move
    have follows : Follows s.jobs.log (.started j) := seen
    exact h.note (by simp) (by simp) follows c (List.mem_cons_self ..) (by simp [Releasing, idle])
  | advance c =>
    simp only [step, Option.map_eq_some_iff] at move
    obtain ⟨⟨m', next⟩, move, rfl⟩ := move
    exact advance_inv h move

theorem reachable_inv {s : State g C} (h : (machine g C).Reachable s) : Inv s.jobs s.call :=
  h.invariant (I := fun s => Inv s.jobs s.call) (Inv.start g) fun _ _ _ _ ih _ move =>
    step_inv ih move

theorem advance_log {m m' : Jobs g} {c c' : Call n} (move : advance m c = some (m', c')) :
    m.log ⊆ m'.log := by
  cases c with
  | idle => cases move
  | running i | finishing i =>
    cases move
    exact List.subset_cons_self ..
  | releasing i k =>
    simp only [advance] at move
    split at move <;>
    · cases move
      exact List.subset_cons_self ..

/-- No step of a call starts a job. -/
theorem advance_started {m m' : Jobs g} {c c' : Call n} (move : advance m c = some (m', c'))
    (j : Fin n) : m'.log.count (.started j) = m.log.count (.started j) := by
  cases c with
  | idle => cases move
  | running i | finishing i =>
    cases move
    simp
  | releasing i k =>
    simp only [advance] at move
    split at move <;>
    · cases move
      simp

theorem advance_finished {m m' : Jobs g} {c c' : Call n} (move : advance m c = some (m', c'))
    (j : Fin n) : m'.log.count (.finished j) + c'.jobs.count j =
      m.log.count (.finished j) + c.jobs.count j := by
  cases c with
  | idle => cases move
  | running i =>
    cases move
    simp [Call.jobs]
  | finishing i =>
    cases move
    unfold Call.afterFetchSub
    split <;> simp [Call.jobs]
  | releasing i k =>
    simp only [advance] at move
    split at move
    · cases move
      simp [Call.jobs]
    · cases move
      simp [Call.jobs, List.count_cons]

theorem advance_subtracted {m m' : Jobs g} {c c' : Call n} (move : advance m c = some (m', c'))
    (j : Fin n) : m'.log.count (.subtracted j) + c'.unsubtracted.count j =
      m.log.count (.subtracted j) + c.unsubtracted.count j := by
  cases c with
  | idle => cases move
  | running i =>
    cases move
    simp [Call.unsubtracted]
  | finishing i =>
    cases move
    unfold Call.afterFetchSub
    split <;> simp [Call.unsubtracted, List.count_cons]
  | releasing i k =>
    simp only [advance] at move
    split at move <;>
    · cases move
      simp [Call.unsubtracted]

/-- `f` tells from where a call stands which job it has started and not brought
to the event `ev` yet. -/
theorem started_eq [Fintype C] {ev : Fin n → Event g} {f : Call n → List (Fin n)}
    (idle : f .idle = []) (running : ∀ j, f (.running j) = [j])
    (other : ∀ i j, ev i ≠ .started j ∧ ev i ≠ .observed j)
    (advanced : ∀ m m' : Jobs g, ∀ c c', advance m c = some (m', c') → ∀ j,
      m'.log.count (ev j) + (f c').count j = m.log.count (ev j) + (f c).count j)
    {s : State g C} (h : (machine g C).Reachable s) (j : Fin n) :
    s.jobs.log.count (ev j) + ∑ c, (f (s.call c)).count j = s.jobs.log.count (.started j) := by
  induction h with
  | start => simp [machine, Jobs.built, idle]
  | @next s t a _ _ move ih =>
    cases a with
    | observe i =>
      simp only [machine, step, Option.ite_none_right_eq_some, Option.some.injEq] at move
      obtain ⟨_, rfl⟩ := move
      simpa [Ne.symm (other j i).2] using ih
    | start c i =>
      simp only [machine, step, Option.ite_none_right_eq_some, Option.some.injEq] at move
      obtain ⟨⟨now, _⟩, rfl⟩ := move
      have total := sum_update s.call c (.running i) fun _ c => (f c).count j
      rw [now, idle, running] at total
      have new : (s.jobs.note (.started i)).log.count (ev j) = s.jobs.log.count (ev j) := by
        simp [Ne.symm (other j i).1]
      have count : (s.jobs.note (.started i)).log.count (.started j) =
          s.jobs.log.count (.started j) + [i].count j := by
        simp [List.count_cons]
      simp only [List.count_nil, add_zero] at total
      dsimp only
      rw [new, count]
      omega
    | advance c =>
      simp only [machine, step, Option.map_eq_some_iff] at move
      obtain ⟨⟨m, c'⟩, move, rfl⟩ := move
      have total := sum_update s.call c c' fun _ c => (f c).count j
      have balanced := advanced _ _ _ _ move j
      rw [advance_started move]
      dsimp only at total ⊢
      omega

/-- Started, and finished or still being executed. -/
theorem started_finished [Fintype C] {s : State g C} (h : (machine g C).Reachable s) (j : Fin n) :
    s.jobs.log.count (.finished j) + ∑ c, (s.call c).jobs.count j =
      s.jobs.log.count (.started j) :=
  started_eq rfl (fun _ => rfl) (by simp) (fun _ _ _ _ move => advance_finished move) h j

theorem started_subtracted [Fintype C] {s : State g C} (h : (machine g C).Reachable s) (j : Fin n) :
    s.jobs.log.count (.subtracted j) + ∑ c, (s.call c).unsubtracted.count j =
      s.jobs.log.count (.started j) :=
  started_eq rfl (fun _ => rfl) (by simp) (fun _ _ _ _ move => advance_subtracted move) h j

end Execution

namespace HistoryOk
variable {log : List (Event g)}

/-- Direct prerequisites of a job that was started have ended. -/
theorem prerequisite_ended (h : HistoryOk log) {i j : Fin n} (hij : g.Prerequisite i j)
    (hj : .started j ∈ log) : .ended i ∈ log := by
  obtain ⟨e, rfl, rfl⟩ := hij.entry
  have released := pending_zero_iff.mp (h.cleared (h.observed hj)) e rfl
  exact h.ended (h.subtracted released)

/-- And theirs had ended before them. -/
theorem prerequisites_ended (h : HistoryOk log) {i j : Fin n}
    (hij : Relation.TransGen g.Prerequisite i j) (hj : .started j ∈ log) : .ended i ∈ log := by
  induction hij using Relation.TransGen.head_induction_on with
  | single hij => exact h.prerequisite_ended hij hj
  | head hik _ ih => exact h.prerequisite_ended hik (h.started ih)

/-- What is on record when a job starts. -/
theorem ended_before_start {later past : List (Event g)} {i j : Fin n}
    (h : HistoryOk (later ++ .started j :: past)) (hij : Relation.TransGen g.Prerequisite i j) :
    .ended i ∈ past := by
  have all : HistoryOk (.started j :: past) := ⟨h.split.1, h.split.2⟩
  simpa using all.prerequisites_ended hij (List.mem_cons_self ..)

end HistoryOk

/-- A job's function never starts before every direct and transitive
prerequisite has ended a run of its own, however often the queues hand the
same job out. -/
theorem dependency_order {C : Type} [DecidableEq C] {s : Execution.State g C}
    (hs : (Execution.machine g C).Reachable s) {i j : Fin n}
    (hij : Relation.TransGen g.Prerequisite i j) (later past : List (Event g))
    (hlog : s.jobs.log = later ++ .started j :: past) : .ended i ∈ past := by
  have history := (Execution.reachable_inv hs).history
  rw [hlog] at history
  exact history.ended_before_start hij

/-- Two jobs, the second built with the first as its dependant. -/
def pair : Graph 2 where
  dependants := ![[], [0]]
  earlier := by decide

/-- Both workers got the prerequisite and its counter drops below 0; then the
dependant runs. -/
def pairRun : List (Execution.Action 2 (Fin 2)) :=
  [.observe 1, .start 0 1, .start 1 1, .advance 0, .advance 1, .advance 0, .advance 1,
    .advance 0, .observe 0, .advance 1, .start 1 0]

theorem dependency_order_pair : ∃ s past,
    (Execution.machine pair (Fin 2)).run pairRun (Execution.machine pair (Fin 2)).start = some s ∧
    s.jobs.log = .started 0 :: past ∧ s.jobs.unfinished 1 = -1 ∧ .ended 1 ∈ past :=
  ⟨_, _, rfl, rfl, rfl, dependency_order (Machine.exec_start pairRun rfl) (.single (by decide))
    [] _ rfl⟩

end JobStealer
