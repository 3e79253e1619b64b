import Mathlib.Algebra.BigOperators.Fin
import Mathlib.Data.List.FinRange
import Mathlib.Logic.Relation
import Mathlib.Tactic.Ring

/-!
# The jobs of a frame and their counters

Jobs are numbered in the order of their construction. A constructor is handed
pointers to its dependants, so they exist already: `Graph.earlier`. This is all
that keeps the prerequisite relation acyclic (`Graph.prerequisite_wellFounded`).

`Graph.build` runs the constructors; `Graph.build_eq` says what every
`mUnfinishedJobs` holds afterwards.
-/

namespace JobStealer

/-- The `mDependants` lists of `n` jobs, in order of construction. A list may
name a job more than once. -/
structure Graph (n : Nat) where
  dependants : Fin n → List (Fin n)
  earlier : ∀ i, ∀ d ∈ dependants i, d < i

/-- The `mUnfinishedJobs` of every job. The C++ type is `int_fast32_t`; the
counts here stay between one more than the entries naming a job and minus the
number of its executions. -/
abbrev Counters (n : Nat) := Fin n → Int

def Counters.add {n : Nat} (u : Counters n) (j : Fin n) (k : Int) : Counters n :=
  Function.update u j (u j + k)

/-- `mUnfinishedJobs.load() == 1`. -/
def Counters.canExecute {n : Nat} (u : Counters n) (j : Fin n) : Bool := u j == 1

/-- `mUnfinishedJobs.load() <= 0`. -/
def Counters.isFinished {n : Nat} (u : Counters n) (j : Fin n) : Bool := u j ≤ 0

@[simp] theorem Counters.add_self {n : Nat} (u : Counters n) (j : Fin n) (k : Int) :
    u.add j k j = u j + k := by simp [Counters.add]

theorem Counters.add_other {n : Nat} (u : Counters n) {i j : Fin n} (k : Int) (h : j ≠ i) :
    u.add i k j = u j := by simp [Counters.add, h]

theorem Counters.canExecute_iff {n : Nat} (u : Counters n) (j : Fin n) :
    u.canExecute j = true ↔ u j = 1 := by simp [Counters.canExecute]

/-- A loop over a list that adds the same amount to the counter of each job. -/
theorem Counters.foldl_add {n : Nat} (l : List (Fin n)) (k : Int) (u : Counters n) (j : Fin n) :
    l.foldl (fun u d => u.add d k) u j = u j + k * l.count j := by
  induction l generalizing u with
  | nil => simp
  | cons d rest ih =>
    rw [List.foldl_cons, ih, List.count_cons]
    by_cases h : d = j
    · subst h
      simp only [Counters.add_self, beq_self_eq_true, ↓reduceIte, Nat.cast_add, Nat.cast_one]
      ring
    · rw [Counters.add_other u k (Ne.symm h)]
      simp [h]

namespace Graph
variable {n : Nat} (g : Graph n)

/-- The constructor of job `i`: its own counter starts at 1 and every
dependant's is incremented. -/
def construct (u : Counters n) (i : Fin n) : Counters n :=
  (g.dependants i).foldl (fun u d => u.add d 1) (Function.update u i 1)

/-- All constructors, in order. No counter is read before its job is
constructed. -/
def build : Counters n := (List.finRange n).foldl g.construct fun _ => 0

/-- `i` has to finish before `j`: it names `j` among its dependants. -/
def Prerequisite (i j : Fin n) : Prop := j ∈ g.dependants i

instance : DecidableRel g.Prerequisite := fun i j =>
  inferInstanceAs (Decidable (j ∈ g.dependants i))

/-- One position of one dependants list. -/
abbrev Entry := Σ i : Fin n, Fin (g.dependants i).length

variable {g} in
/-- The job the entry names. -/
def Entry.target (e : g.Entry) : Fin n := (g.dependants e.1).get e.2

theorem earlier_of_prerequisite {i j : Fin n} (h : g.Prerequisite i j) : j < i := g.earlier i j h

theorem prerequisite_target (e : g.Entry) : g.Prerequisite e.1 e.target := List.get_mem _ _

variable {g} in
theorem Prerequisite.entry {i j : Fin n} (h : g.Prerequisite i j) :
    ∃ e : g.Entry, e.1 = i ∧ e.target = j := by
  obtain ⟨k, hk⟩ := List.get_of_mem h
  exact ⟨⟨i, k⟩, rfl, hk⟩

/-- Prerequisites are constructed later, so following them up ends. -/
theorem prerequisite_wellFounded : WellFounded g.Prerequisite := by
  apply Subrelation.wf (r := fun i j : Fin n => j < i) (fun h => g.earlier_of_prerequisite h)
  exact wellFounded_gt

/-- What the constructors of an increasing list of jobs leave in the counters
of those jobs. -/
theorem foldl_construct (l : List (Fin n)) (sorted : l.Pairwise (· < ·)) (u : Counters n)
    {j : Fin n} (hj : j ∈ l) :
    l.foldl g.construct u j = 1 + (l.map fun i => ((g.dependants i).count j : Int)).sum := by
  induction l using List.reverseRecOn with
  | nil => cases hj
  | append_singleton l i ih =>
    obtain ⟨sorted, _, last⟩ := List.pairwise_append.mp sorted
    have last : ∀ a ∈ l, a < i := fun a ha => last a ha i (by simp)
    rw [List.foldl_append, List.foldl_cons, List.foldl_nil, construct, Counters.foldl_add]
    simp only [List.map_append, List.map_cons, List.map_nil, List.sum_append, List.sum_cons,
      List.sum_nil, one_mul, add_zero]
    by_cases new : j = i
    · subst new
      have own : (g.dependants j).count j = 0 :=
        List.count_eq_zero.mpr fun h => lt_irrefl j (g.earlier j j h)
      have before : ∀ a ∈ l, ((g.dependants a).count j : Int) = 0 := by
        intro a ha
        exact_mod_cast List.count_eq_zero.mpr fun h => lt_asymm (last a ha) (g.earlier a j h)
      rw [List.map_congr_left before]
      simp [own]
    · have old : j ∈ l := by simpa [new] using hj
      rw [Function.update_of_ne new, ih sorted old]
      ring

/-- Every counter starts at one more than the entries naming its job. -/
theorem build_eq (j : Fin n) :
    g.build j = 1 + ∑ i, ((g.dependants i).count j : Int) := by
  rw [build, g.foldl_construct _ (List.pairwise_lt_finRange n) _ (List.mem_finRange j),
    Fin.sum_univ_def]

/-- The entries of the lists in `q` naming `j`. -/
theorem card_entries_from (j : Fin n) {q : List (Fin n)} (nodup : q.Nodup) :
    (Finset.univ.filter fun e : g.Entry => e.target = j ∧ e.1 ∈ q).card =
      (q.map fun i => (g.dependants i).count j).sum := by
  have one (l : List (Fin n)) :
      (∑ k : Fin l.length, if l.get k = j then 1 else 0) = l.count j := by
    rw [Fin.sum_univ_def]
    induction l with
    | nil => rfl
    | cons d rest ih =>
      simp only [List.length_cons, List.finRange_succ, List.map_cons, List.map_map, List.sum_cons,
        List.count_cons]
      rw [add_comm, ← ih]
      congr 1
      by_cases h : d = j <;> simp [h]
  rw [Finset.card_filter, Fintype.sum_sigma, ← List.sum_toFinset _ nodup]
  have member : q.toFinset = Finset.univ.filter (· ∈ q) := by
    ext i
    simp
  rw [member, Finset.sum_filter]
  apply Finset.sum_congr rfl
  intro i _
  by_cases inside : i ∈ q
  · simp only [inside, and_true, if_true]
    exact one _
  · simp [inside]

theorem card_entries (j : Fin n) :
    (Finset.univ.filter fun e : g.Entry => e.target = j).card = ∑ i, (g.dependants i).count j := by
  rw [Fin.sum_univ_def, ← g.card_entries_from j (List.nodup_finRange n)]
  simp

end Graph
end JobStealer
