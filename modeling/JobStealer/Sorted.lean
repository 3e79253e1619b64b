import JobStealer.Slots
import Mathlib.Data.List.Sort

/-!
# Jobs sorted by their open dependencies

With `HTL_SORT_JOBS` the jobs of a frame are sorted by `GetUnfinishedJobs()`
before they are added, so the fewest direct prerequisites come first. The number
says nothing about what these prerequisites wait for: `sorted_executable_iff`
says for which graphs every such order can be executed from front to back, and
the frame of `UpdateParallel` is none of them.
-/

namespace JobStealer
variable {n : Nat}

/-- Each job can be executed when the ones before it have been. -/
def Graph.executable (g : Graph n) : Counters n → List (Fin n) → Bool
  | _, [] => true
  | u, j :: rest => u.canExecute j && g.executable (g.finish u j) rest

/-- What `std::sort` may leave in `jobs`: no job has fewer unfinished jobs than
one before it. -/
def Graph.Sorted (g : Graph n) (jobs : List (Fin n)) : Prop :=
  jobs.Pairwise fun l r => ¬ g.build r < g.build l

instance (g : Graph n) (jobs : List (Fin n)) : Decidable (g.Sorted jobs) :=
  inferInstanceAs (Decidable (jobs.Pairwise _))

/-- A job is executable in its turn if no prerequisite of it comes later. -/
theorem executable_iff {g : Graph n} {q ran : List (Fin n)} {u : Counters n}
    (h : Accounts g q u ran) :
    g.executable u q = true ↔ q.Pairwise fun i j => ¬ g.Prerequisite j i := by
  induction q generalizing u ran with
  | nil => simp [Graph.executable]
  | cons j rest ih =>
    have own : ¬ g.Prerequisite j j := fun self => lt_irrefl j (g.earlier j j self)
    have can := h.canExecute_iff (List.mem_cons_self ..)
    simp only [List.mem_cons, forall_eq_or_imp, own, not_false_eq_true, true_and] at can
    rw [Graph.executable, Bool.and_eq_true, List.pairwise_cons, can]
    constructor
    · rintro ⟨free, later⟩
      exact ⟨free, (ih (h.finish (.refl _) (can.mpr free))).mp later⟩
    · rintro ⟨free, later⟩
      exact ⟨free, (ih (h.finish (.refl _) (can.mpr free))).mpr later⟩

/-! ## The worker on such an order -/

section Worker
variable {J : Type} {can : J → Bool} {a : J} (rest : List J)

theorem searchOwn_first (first : can a = true) : searchOwn can (a :: rest) = (some a, rest) := by
  cases rest with
  | nil | cons b rest => simp [searchOwn, first]

theorem reorders_first (first : can a = true) : reorders can (a :: rest) = 0 := by
  cases rest with
  | nil => rfl
  | cons b rest => simp [reorders, first]

end Worker

/-- The only worker executes such a queue from front to back, one job a pass; it
never moves a job, so it needs no slot. -/
theorem Draining.in_order {D : Type} [JobDeque D (Fin n)] [LawfulJobDeque D (Fin n)] {g : Graph n}
    {s : Worker D n} {k : Nat} {q : List (Fin n)} (h : Draining g s k q)
    (ok : g.executable s.unfinished q = true) :
    ∃ t k', s.drain g q.length = .ok t ∧ t.ran = s.ran ++ q ∧ Draining g t k' [] := by
  induction q generalizing s k with
  | nil => exact ⟨s, k, rfl, by simp, h⟩
  | cons j rest ih =>
    obtain ⟨can, later⟩ := (Bool.and_eq_true _ _).mp ok
    have search := searchOwn_first rest can
    obtain ⟨e, l, found, holds, _⟩ := getJobFromOwnQueue_spec s.unfinished.canExecute h.holds
      fun moves => absurd moves (by rw [reorders_first rest can]; decide)
    rw [search] at found holds
    have pass : s.iterate g = .ok ⟨e, g.finish s.unfinished j, s.ran ++ [j]⟩ := by
      simp [Worker.iterate, h.hasExecutableJobs (List.cons_ne_nil j rest), found, bind,
        Except.bind, pure, Except.pure]
    have next : Draining g (⟨e, g.finish s.unfinished j, s.ran ++ [j]⟩ : Worker D n) l rest :=
      ⟨holds, h.accounts.finish (.refl _) can⟩
    obtain ⟨t, k', eq, ran, h'⟩ := ih next later
    refine ⟨t, k', ?_, by simpa using ran, h'⟩
    simp [Worker.drain, pass, bind, Except.bind, eq]

/-! ## Which graphs -/

/-- Fewest unfinished jobs first, ties in order of construction: a job that ties
with its prerequisite comes before it. -/
def Graph.Precedes (g : Graph n) (a b : Fin n) : Prop :=
  g.build a < g.build b ∨ g.build a = g.build b ∧ a ≤ b

instance (g : Graph n) : DecidableRel g.Precedes := fun a b =>
  inferInstanceAs (Decidable (g.build a < g.build b ∨ g.build a = g.build b ∧ a ≤ b))

instance (g : Graph n) : Std.Total g.Precedes where
  total a b := by
    unfold Graph.Precedes
    omega

instance (g : Graph n) : IsTrans (Fin n) g.Precedes where
  trans a b c := by
    unfold Graph.Precedes
    omega

theorem sorted_precedes (g : Graph n) : g.Sorted ((List.finRange n).insertionSort g.Precedes) := by
  apply (List.pairwise_insertionSort g.Precedes _).imp
  intro a b first
  cases first with
  | inl fewer => exact not_lt_of_gt fewer
  | inr tie => exact not_lt_of_ge tie.1.le

/-- Every order `std::sort` may choose can be executed from front to back exactly
when each job has fewer open dependencies than each of its dependants. -/
theorem sorted_executable_iff (g : Graph n) :
    (∀ jobs, jobs.Perm (List.finRange n) → g.Sorted jobs → g.executable g.build jobs = true) ↔
      ∀ i j, g.Prerequisite i j → g.build i < g.build j := by
  constructor
  · intro all i j prerequisite
    by_contra more
    have earlier := g.earlier_of_prerequisite prerequisite
    have perm : ((List.finRange n).insertionSort g.Precedes).Perm (List.finRange n) :=
      List.perm_insertionSort g.Precedes _
    have ordered := (executable_iff (.start g perm)).mp (all _ perm (sorted_precedes g))
    have placed := List.pairwise_insertionSort g.Precedes (List.finRange n)
    -- neither of the two may come first
    let apart (a b : Fin n) : Prop := ¬ (a = i ∧ b = j) ∧ ¬ (a = j ∧ b = i)
    have symmetric : Std.Symm apart := ⟨fun a b h => ⟨fun eq => h.2 eq.symm, fun eq => h.1 eq.symm⟩⟩
    have never : ((List.finRange n).insertionSort g.Precedes).Pairwise apart := by
      apply (ordered.and placed).imp
      rintro a b ⟨free, first⟩
      constructor
      · rintro ⟨rfl, rfl⟩
        unfold Graph.Precedes at first
        omega
      · rintro ⟨rfl, rfl⟩
        exact free prerequisite
    have mem (k : Fin n) : k ∈ (List.finRange n).insertionSort g.Precedes :=
      perm.mem_iff.mpr (List.mem_finRange k)
    exact (never.forall (mem i) (mem j) (ne_of_gt earlier)).1 ⟨rfl, rfl⟩
  · intro fewer jobs perm sorted
    apply (executable_iff (.start g perm)).mpr
    apply sorted.imp
    intro a b le prerequisite
    exact le (fewer b a prerequisite)

/-- The frame of `UpdateParallel` sorted: of the jobs with one open dependency
collision comes first, and it depends on physics. -/
theorem sorted_frame_blocked : [7, 0, 5, 6, 2, 4, 3, 1].Perm (List.finRange 8) ∧
    frame.Sorted [7, 0, 5, 6, 2, 4, 3, 1] ∧ frame.Prerequisite 6 5 ∧
    frame.executable frame.build [7, 0, 5, 6, 2, 4, 3, 1] = false := by
  decide

end JobStealer
