import JobStealer.Execution
import JobStealer.Rotation
import Mathlib.Algebra.Order.BigOperators.Group.List

/-!
# One worker, one frame

The `Run` loop of the only worker of a `JobSystem`, with the frame's jobs in its
queue and nobody else acting: there is no one to steal from, and `Execute` is not
interleaved with anything. `Accounts` is what each pass of the loop keeps.

An executable job may lie anywhere among blocked ones. Passes are bounded by
`cost`: the distance to the first executable job, and a triangular number for the
jobs after it.
-/

namespace JobStealer
variable {n : Nat}

/-- `Finish` with no other thread acting. -/
def Graph.finish (g : Graph n) (u : Counters n) (j : Fin n) : Counters n :=
  let v := u.add j (-1)
  if v j = 0 ∧ (g.dependants j).length ≠ 0 then
    (g.dependants j).foldl (fun u d => u.add d (-1)) v
  else v

/-- `ran` lists the jobs executed so far, in order. -/
structure Worker (D : Type) (n : Nat) where
  mJobDeque : D
  unfinished : Counters n
  ran : List (Fin n)

namespace Worker
variable {D : Type} [JobDeque D (Fin n)]

/-- One pass of the `Run` loop. Without an executable job the worker waits, and
nobody is there to change that. -/
def iterate (g : Graph n) (s : Worker D n) : Except Fault (Worker D n) := do
  let executable ← JobDeque.hasExecutableJobs s.unfinished.canExecute s.mJobDeque
  if !executable then return s
  match ← getJobFromOwnQueue s.unfinished.canExecute s.mJobDeque with
  | (some job, d) => return ⟨d, g.finish s.unfinished job, s.ran ++ [job]⟩
  | (none, d) => return { s with mJobDeque := d }

def drain (g : Graph n) : Nat → Worker D n → Except Fault (Worker D n)
  | 0, s => .ok s
  | m + 1, s => do drain g m (← s.iterate g)

end Worker

/-! ## What the search does to the contents -/

section Search
variable {J : Type} {can : J → Bool} {l : List J}

theorem searchOwn_some {j : J} (h : (searchOwn can l).1 = some j) :
    can j = true ∧ l.Perm (j :: (searchOwn can l).2) := by
  obtain ⟨executable, before, after, split, rotated⟩ := (searchOwn_rotates can l).found j h
  have others : (before ++ after).Perm (searchOwn can l).2 := rotated.perm.symm
  exact ⟨executable, (List.Perm.of_eq split).trans (List.perm_middle.trans (others.cons j))⟩

theorem searchOwn_none (h : (searchOwn can l).1 = none) : (searchOwn can l).2.Perm l := by
  obtain ⟨turned, _⟩ := (searchOwn_rotates can l).missed h
  rw [turned]
  exact List.rotate_perm l 1

/-- A search in vain brings the first executable job one place nearer; it was
behind the first two. -/
theorem searchOwn_nearer (h : (searchOwn can l).1 = none) (some : l.any can = true) :
    (searchOwn can l).2.findIdx can + 1 = l.findIdx can ∧ 2 ≤ l.findIdx can := by
  obtain ⟨turned, blocked⟩ := (searchOwn_rotates can l).missed h
  rw [turned]
  match l with
  | [] => cases some
  | [a] =>
    have ha := blocked a (by simp)
    simp [ha] at some
  | a :: b :: rest =>
    have ha := blocked a (by simp)
    have hb := blocked b (by simp)
    have deep : rest.findIdx can < rest.length := by
      have : ∃ x ∈ rest, can x = true := by simpa [ha, hb] using some
      exact List.findIdx_lt_length_of_exists this
    have far : (a :: b :: rest).findIdx can = rest.findIdx can + 2 := by
      simp [List.findIdx_cons, ha, hb]
    rw [far]
    constructor
    · simp [List.findIdx_cons, List.findIdx_append, hb, deep]
    · omega

end Search

/-! ## What a pass keeps -/

/-- With `q` left to execute and `ran` executed, in this order. -/
structure Accounts (g : Graph n) (q : List (Fin n)) (u : Counters n) (ran : List (Fin n)) :
    Prop where
  nodup : q.Nodup
  ran_nodup : ran.Nodup
  split : ∀ j, j ∈ ran ↔ j ∉ q
  waiting : ∀ j ∈ q, u j = 1 + (q.map fun i => ((g.dependants i).count j : Int)).sum
  done : ∀ j ∉ q, u j = 0
  ordered : ∀ before j after, ran = before ++ j :: after →
    ∀ i, g.Prerequisite i j → i ∈ before

namespace Accounts
variable {g : Graph n} {q ran : List (Fin n)} {u : Counters n}

/-- All constructed, none executed. -/
theorem start (g : Graph n) (all : q.Perm (List.finRange n)) : Accounts g q g.build [] where
  nodup := all.nodup_iff.mpr (List.nodup_finRange n)
  ran_nodup := List.nodup_nil
  split j := by simp [all.mem_iff]
  waiting j _ := by
    rw [g.build_eq, Fin.sum_univ_def, (all.map _).sum_eq]
  done j hj := absurd (all.mem_iff.mpr (List.mem_finRange j)) hj
  ordered before j after h := by simp at h

theorem perm (h : Accounts g q u ran) {p : List (Fin n)} (hp : p.Perm q) :
    Accounts g p u ran where
  nodup := hp.nodup_iff.mpr h.nodup
  ran_nodup := h.ran_nodup
  split j := by rw [h.split, hp.mem_iff]
  waiting j hj := by rw [h.waiting j (hp.mem_iff.mp hj), (hp.map _).sum_eq]
  done j hj := h.done j fun hq => hj (hp.mem_iff.mpr hq)
  ordered := h.ordered

/-- The executable jobs are those without a prerequisite left. -/
theorem canExecute_iff (h : Accounts g q u ran) {j : Fin n} (hj : j ∈ q) :
    u.canExecute j = true ↔ ∀ i ∈ q, ¬ g.Prerequisite i j := by
  rw [Counters.canExecute_iff, h.waiting j hj]
  constructor
  · intro one i hi prerequisite
    have pos : 0 < (g.dependants i).count j := List.count_pos_iff.mpr prerequisite
    have le := List.single_le_sum (l := q.map fun i => ((g.dependants i).count j : Int))
      (by simp) _ (List.mem_map_of_mem hi)
    omega
  · intro none
    have zero : ∀ i ∈ q, ((g.dependants i).count j : Int) = 0 := by
      intro i hi
      exact_mod_cast List.count_eq_zero.mpr (none i hi)
    rw [List.map_congr_left zero]
    simp

/-- Some job has no prerequisite left. -/
theorem exists_canExecute (h : Accounts g q u ran) (left : q ≠ []) :
    q.any u.canExecute = true := by
  obtain ⟨a, ha⟩ := List.exists_mem_of_ne_nil q left
  obtain ⟨j, hj, first⟩ := g.prerequisite_wellFounded.has_min {x | x ∈ q} ⟨a, ha⟩
  exact List.any_eq_true.mpr ⟨j, hj, (h.canExecute_iff hj).mpr fun i hi => first i hi⟩

theorem finish (h : Accounts g q u ran) {j : Fin n} {rest : List (Fin n)}
    (perm : q.Perm (j :: rest)) (can : u.canExecute j = true) :
    Accounts g rest (g.finish u j) (ran ++ [j]) := by
  have h := h.perm perm.symm
  have one := (Counters.canExecute_iff u j).mp can
  have free := (h.canExecute_iff (List.mem_cons_self ..)).mp can
  obtain ⟨hj, nodup⟩ := List.nodup_cons.mp h.nodup
  have new : j ∉ ran := fun old => (h.split j).mp old (List.mem_cons_self ..)
  have value (d : Fin n) : g.finish u j d = u.add j (-1) d - (g.dependants j).count d := by
    unfold Graph.finish
    by_cases empty : (g.dependants j).length = 0
    · simp [List.eq_nil_of_length_eq_zero empty]
    · rw [if_pos ⟨by simp [one], empty⟩, Counters.foldl_add]
      ring
  have self : (g.dependants j).count j = 0 :=
    List.count_eq_zero.mpr fun own => lt_irrefl j (g.earlier j j own)
  constructor
  case nodup => exact nodup
  case ran_nodup =>
    rw [List.nodup_append]
    refine ⟨h.ran_nodup, List.nodup_singleton j, ?_⟩
    rintro a ha b hb rfl
    exact new (List.mem_singleton.mp hb ▸ ha)
  case split =>
    intro i
    have := h.split i
    by_cases hi : i = j
    · simp [hi, hj]
    · simpa [hi] using this
  case waiting =>
    intro d hd
    have other : d ≠ j := fun eq => hj (eq ▸ hd)
    rw [value, Counters.add_other _ _ other, h.waiting d (List.mem_cons_of_mem _ hd),
      List.map_cons, List.sum_cons]
    ring
  case done =>
    intro d hd
    by_cases hdj : d = j
    · subst hdj
      simp [value, one, self]
    · have out : d ∉ j :: rest := by simp [hdj, hd]
      have none : (g.dependants j).count d = 0 := by
        apply List.count_eq_zero.mpr
        intro prerequisite
        -- an executed job had `j` executed before it
        obtain ⟨before, after, eq⟩ := List.append_of_mem ((h.split d).mpr out)
        have := h.ordered before d after eq j prerequisite
        exact new (by rw [eq]; simp [this])
      rw [value, Counters.add_other _ _ hdj, h.done d out, none]
      rfl
  case ordered =>
    intro before d after eq i prerequisite
    rcases List.eq_nil_or_concat after with rfl | ⟨after', last, rfl⟩
    · obtain ⟨rfl, same⟩ := List.append_inj' eq rfl
      obtain rfl : j = d := by simpa using same
      refine (h.split i).mpr fun hi => free i hi prerequisite
    · rw [List.concat_eq_append, ← List.cons_append, ← List.append_assoc] at eq
      obtain ⟨eq, _⟩ := List.append_inj' eq rfl
      exact h.ordered before d after' eq i prerequisite

/-- What was executed came after all its prerequisites. -/
theorem prerequisites_before (h : Accounts g q u ran) {before after : List (Fin n)} {i j : Fin n}
    (eq : ran = before ++ j :: after) (hij : Relation.TransGen g.Prerequisite i j) :
    i ∈ before := by
  induction hij using Relation.TransGen.head_induction_on with
  | single hij => exact h.ordered before j after eq _ hij
  | head hik _ ih =>
    obtain ⟨early, late, split⟩ := List.append_of_mem ih
    have := h.ordered early _ (late ++ j :: after) (by rw [eq, split]; simp) _ hik
    rw [split]
    exact List.mem_append_left _ this

end Accounts

/-! ## One pass, and all of them -/

/-- A bound on the passes left. -/
def cost {J : Type} (can : J → Bool) (q : List J) : Nat :=
  if q = [] then 0 else max (q.findIdx can) 1 + q.length * (q.length - 1) / 2

theorem cost_of_ne_nil {J : Type} {q : List J} (can : J → Bool) (left : q ≠ []) :
    cost can q = max (q.findIdx can) 1 + q.length * (q.length - 1) / 2 := if_neg left

theorem cost_le {J : Type} {can : J → Bool} {q : List J} (some : q ≠ [] → q.any can = true) :
    cost can q ≤ (q.length + 1) * q.length / 2 := by
  unfold cost
  split
  · exact Nat.zero_le _
  · rename_i left
    have first : q.findIdx can < q.length :=
      List.findIdx_lt_length_of_exists (List.any_eq_true.mp (some left))
    have triangle := Nat.triangle_succ q.length
    simp only [Nat.add_sub_cancel] at triangle
    omega

/-- The deque of the worker holds `q`, its next push takes slot `k`, and the
accounts are in order. -/
structure Draining {D : Type} [JobDeque D (Fin n)] [LawfulJobDeque D (Fin n)] (g : Graph n)
    (s : Worker D n) (k : Nat) (q : List (Fin n)) : Prop where
  holds : LawfulJobDeque.HoldsAt s.mJobDeque k q
  accounts : Accounts g q s.unfinished s.ran

namespace Draining
variable {D : Type} [JobDeque D (Fin n)] [LawfulJobDeque D (Fin n)] {g : Graph n}
  {s : Worker D n} {k : Nat} {q : List (Fin n)}
open LawfulJobDeque

/-- At the top of the loop the worker never has to wait. -/
theorem hasExecutableJobs (h : Draining g s k q) (left : q ≠ []) :
    JobDeque.hasExecutableJobs s.unfinished.canExecute s.mJobDeque = .ok true := by
  rw [hasExecutableJobs_eq _ h.holds, h.accounts.exists_canExecute left]

theorem iterate_nil (h : Draining g s k []) : s.iterate g = .ok s := by
  have none := hasExecutableJobs_eq s.unfinished.canExecute h.holds
  simp [Worker.iterate, none, bind, Except.bind, pure, Except.pure]

/-- One pass either executes a job or brings the first executable one nearer. -/
theorem iterate (h : Draining g s k q) (left : q ≠ [])
    (room : reorders s.unfinished.canExecute q = 1 → Room (D := D) k) :
    ∃ t k', s.iterate g = .ok t ∧
      Draining g t k' (searchOwn s.unfinished.canExecute q).2 ∧
      ((searchOwn s.unfinished.canExecute q).2 ≠ [] →
        k' = k + reorders s.unfinished.canExecute q) ∧
      cost t.unfinished.canExecute (searchOwn s.unfinished.canExecute q).2 <
        cost s.unfinished.canExecute q := by
  have some := h.accounts.exists_canExecute left
  obtain ⟨e, k', found, holds, used⟩ := getJobFromOwnQueue_spec s.unfinished.canExecute h.holds room
  have pass := h.hasExecutableJobs left
  cases hr : (searchOwn s.unfinished.canExecute q).1 with
  | some j =>
    rw [hr] at found
    obtain ⟨can, perm⟩ := searchOwn_some hr
    have accounts := h.accounts.finish perm can
    refine ⟨⟨e, g.finish s.unfinished j, s.ran ++ [j]⟩, k', ?_, ⟨holds, accounts⟩, used, ?_⟩
    · simp [Worker.iterate, pass, found, bind, Except.bind, pure, Except.pure]
    · have bound := cost_le accounts.exists_canExecute
      have length := perm.length_eq
      simp only [List.length_cons] at length
      rw [cost_of_ne_nil _ left, length, Nat.add_sub_cancel]
      exact Nat.lt_of_le_of_lt bound (by omega)
  | none =>
    rw [hr] at found
    have perm := searchOwn_none hr
    refine ⟨⟨e, s.unfinished, s.ran⟩, k', ?_, ⟨holds, h.accounts.perm perm⟩, used, ?_⟩
    · simp [Worker.iterate, pass, found, bind, Except.bind, pure, Except.pure]
    · obtain ⟨nearer, far⟩ := searchOwn_nearer hr some
      have left' : (searchOwn s.unfinished.canExecute q).2 ≠ [] := fun nil => by
        rw [nil] at perm
        exact left perm.nil_eq.symm
      change cost s.unfinished.canExecute _ < _
      rw [cost_of_ne_nil _ left', cost_of_ne_nil _ left, perm.length_eq]
      omega

/-- With room for every push, any number of passes goes through. -/
theorem drain (room : ∀ k, Room (D := D) k) (m : Nat) (h : Draining g s k q) :
    ∃ t k' p, s.drain g m = .ok t ∧ Draining g t k' p := by
  induction m generalizing s k q with
  | zero => exact ⟨s, k, q, rfl, h⟩
  | succ m ih =>
    by_cases left : q = []
    · subst left
      obtain ⟨t, k', p, eq, h'⟩ := ih h
      exact ⟨t, k', p, by simp [Worker.drain, h.iterate_nil, bind, Except.bind, eq], h'⟩
    · obtain ⟨u, l, pass, h', _⟩ := h.iterate left fun _ => room k
      obtain ⟨t, k', p, eq, h''⟩ := ih h'
      exact ⟨t, k', p, by simp [Worker.drain, pass, bind, Except.bind, eq], h''⟩

/-- And the queue is empty after `cost` passes at most. -/
theorem drained (room : ∀ k, Room (D := D) k) (h : Draining g s k q) :
    ∃ m t k', m ≤ cost s.unfinished.canExecute q ∧ s.drain g m = .ok t ∧ Draining g t k' [] := by
  generalize bound : cost s.unfinished.canExecute q = c
  induction c using Nat.strongRecOn generalizing s k q with
  | ind c ih =>
    by_cases left : q = []
    · subst left
      exact ⟨0, s, k, Nat.zero_le _, rfl, h⟩
    · obtain ⟨u, l, pass, h', _, less⟩ := h.iterate left fun _ => room k
      obtain ⟨m, t, k', le, eq, h''⟩ := ih _ (bound ▸ less) h' rfl
      refine ⟨m + 1, t, k', by omega, ?_, h''⟩
      simp [Worker.drain, pass, bind, Except.bind, eq]

end Draining

/-- The jobs of a frame given to the only worker one after the other. -/
def LockingDeque.addJobs {J : Type} (jobs : List J) : LockingDeque J :=
  jobs.foldl LockingDeque.pushFront .empty

theorem LockingDeque.addJobs_mJobDeque {J : Type} (jobs : List J) :
    (LockingDeque.addJobs jobs).mJobDeque = jobs.reverse := by
  have push (l : List J) (d : LockingDeque J) :
      (l.foldl LockingDeque.pushFront d).mJobDeque = l.reverse ++ d.mJobDeque := by
    induction l generalizing d with
    | nil => rfl
    | cons a l ih => simp [ih]
  exact (push jobs .empty).trans (List.append_nil _)

/-- A single worker drains every graph: it never waits while a job is left, and
within a triangular number of passes every job has run once, after its
prerequisites. -/
theorem single_worker_drains (g : Graph n) (jobs : List (Fin n))
    (all : jobs.Perm (List.finRange n)) :
    let start : Worker (LockingDeque (Fin n)) n := ⟨.addJobs jobs, g.build, []⟩
    (∀ m, ∃ t, start.drain g m = .ok t ∧ (t.mJobDeque.mJobDeque ≠ [] →
      t.mJobDeque.hasExecutableJobs t.unfinished.canExecute = true)) ∧
    ∃ m t, m ≤ n * (n + 1) / 2 ∧ start.drain g m = .ok t ∧ t.mJobDeque.mJobDeque = [] ∧
      t.ran.Perm (List.finRange n) ∧
      (∀ before j after, t.ran = before ++ j :: after →
        ∀ i, Relation.TransGen g.Prerequisite i j → i ∈ before) ∧
      ∀ j, t.unfinished j = 0 := by
  intro start
  have perm : jobs.reverse.Perm (List.finRange n) := (List.reverse_perm jobs).trans all
  have begun : Draining g start 0 jobs.reverse :=
    ⟨LockingDeque.addJobs_mJobDeque jobs, .start g perm⟩
  constructor
  · intro m
    obtain ⟨t, k, p, eq, h⟩ := begun.drain (fun _ => trivial) m
    refine ⟨t, eq, fun left => ?_⟩
    have holds : t.mJobDeque.mJobDeque = p := h.holds
    exact Except.ok.inj (h.hasExecutableJobs (holds ▸ left))
  · obtain ⟨m, t, k, le, eq, h⟩ := begun.drained fun _ => trivial
    have bound := cost_le begun.accounts.exists_canExecute
    rw [perm.length_eq, List.length_finRange, Nat.mul_comm] at bound
    refine ⟨m, t, le.trans bound, eq, h.holds, ?_, ?_, fun j => h.accounts.done j (by simp)⟩
    · apply (List.perm_ext_iff_of_nodup h.accounts.ran_nodup (List.nodup_finRange n)).mpr
      intro j
      simp [h.accounts.split]
    · intro before j after split i hij
      exact h.accounts.prerequisites_before split hij

/-- front -> [job #1 depends on job #0] [job #0] [job #2 depends on job #1] <- back,
numbered here in order of construction: job #2, job #1, job #0. -/
def encapsulated : Graph 3 where
  dependants := ![[], [0], [1]]
  earlier := by decide

theorem single_worker_drains_encapsulated : ∃ m t, m ≤ 3 * (3 + 1) / 2 ∧
    (⟨.addJobs [0, 2, 1], encapsulated.build, []⟩ : Worker (LockingDeque (Fin 3)) 3).drain
      encapsulated m = .ok t ∧
    t.mJobDeque.mJobDeque = [] ∧ t.ran.Perm (List.finRange 3) ∧
    (∀ before j after, t.ran = before ++ j :: after →
      ∀ i, Relation.TransGen encapsulated.Prerequisite i j → i ∈ before) ∧
    ∀ j, t.unfinished j = 0 :=
  (single_worker_drains encapsulated [0, 2, 1] (by decide)).2

end JobStealer
