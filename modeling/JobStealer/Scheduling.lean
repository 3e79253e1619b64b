import Mathlib.Algebra.BigOperators.Fin
import Mathlib.Algebra.Order.BigOperators.Group.Finset
import Mathlib.Data.Fintype.BigOperators
import Mathlib.Order.Interval.Finset.Nat

/-!
# How fast a schedule can be

Jobs that each take at least a given time are executed by workers, a worker one at a
time, and a job after those that come before it. Whatever the schedule, it takes as long
as every path through the jobs (`Schedule.path_le`), and as the work shared out evenly
among the workers (`Schedule.work_le`).
-/

namespace Scheduling
variable {J W : Type}

/-- One execution of a job. -/
structure Slot (J W : Type) where
  job : J
  worker : W
  start : Nat
  stop : Nat

/-- The moments in which a worker executes a job. -/
def Slot.moments (s : Slot J W) : Finset (W × Nat) :=
  (Finset.Ico s.start s.stop).map ⟨Prod.mk s.worker, Prod.mk_right_injective s.worker⟩

theorem Slot.mem_moments (s : Slot J W) (w : W) (t : Nat) :
    (w, t) ∈ s.moments ↔ w = s.worker ∧ s.start ≤ t ∧ t < s.stop := by
  simp only [moments, Finset.mem_map, Finset.mem_Ico, Function.Embedding.coeFn_mk, Prod.mk.injEq]
  constructor
  · rintro ⟨t, inside, rfl, rfl⟩
    exact ⟨rfl, inside⟩
  · rintro ⟨rfl, inside⟩
    exact ⟨t, inside, rfl, rfl⟩

theorem Slot.card_moments (s : Slot J W) : s.moments.card = s.stop - s.start := by
  rw [moments, Finset.card_map, Nat.card_Ico]

structure Schedule (duration : J → Nat) (Before : J → J → Prop) (slots : List (Slot J W)) :
    Prop where
  long : ∀ s ∈ slots, s.start + duration s.job ≤ s.stop
  once : (slots.map Slot.job).Nodup
  ordered : ∀ s ∈ slots, ∀ t ∈ slots, Before s.job t.job → s.stop ≤ t.start
  apart : ∀ s ∈ slots, ∀ t ∈ slots, s.job ≠ t.job → s.worker = t.worker →
    s.stop ≤ t.start ∨ t.stop ≤ s.start

namespace Schedule
variable {duration : J → Nat} {Before : J → J → Prop} {slots : List (Slot J W)}

theorem nil : Schedule duration Before ([] : List (Slot J W)) := by
  constructor <;> simp

/-- A job is executed for the first time, after those that come before it, by a worker
that is done with its other jobs. -/
theorem cons (h : Schedule duration Before slots) {s : Slot J W}
    (long : s.start + duration s.job ≤ s.stop) (new : s.job ∉ slots.map Slot.job)
    (irrefl : ¬ Before s.job s.job) (late : ∀ t ∈ slots, ¬ Before s.job t.job)
    (after : ∀ t ∈ slots, t.worker = s.worker ∨ Before t.job s.job → t.stop ≤ s.start) :
    Schedule duration Before (s :: slots) where
  long := List.forall_mem_cons.mpr ⟨long, h.long⟩
  once := List.nodup_cons.mpr ⟨new, h.once⟩
  ordered t ht u hu before := by
    rcases List.mem_cons.mp ht with rfl | old <;> rcases List.mem_cons.mp hu with rfl | old'
    · exact absurd before irrefl
    · exact absurd before (late u old')
    · exact after t old (.inr before)
    · exact h.ordered t old u old' before
  apart t ht u hu other same := by
    rcases List.mem_cons.mp ht with rfl | old <;> rcases List.mem_cons.mp hu with rfl | old'
    · exact absurd rfl other
    · exact .inr (after u old' (.inl same.symm))
    · exact .inl (after t old (.inl same))
    · exact h.apart t old u old' other same

/-- Jobs each of which comes before the next take as long as all of them together. -/
theorem path_le (h : Schedule duration Before slots) {path : List J} (linked : path.IsChain Before)
    (done : ∀ job ∈ path, ∃ s ∈ slots, s.job = job) {first last : Nat} (order : first ≤ last)
    (begins : ∀ s ∈ slots, s.job ∈ path.head? → first ≤ s.start)
    (ends : ∀ s ∈ slots, s.stop ≤ last) : first + (path.map duration).sum ≤ last := by
  induction path generalizing first with
  | nil => exact order
  | cons job rest ih =>
    obtain ⟨s, inside, rfl⟩ := done _ (List.mem_cons_self ..)
    have starts := begins s inside rfl
    have long := h.long s inside
    have next : s.stop + (rest.map duration).sum ≤ last := by
      refine ih linked.tail (fun job hj => done job (List.mem_cons_of_mem _ hj)) (ends s inside) ?_
      intro t ht head
      cases rest with
      | nil => cases head
      | cons after rest =>
        cases head
        exact h.ordered s inside t ht (List.isChain_cons_cons.mp linked).1
    rw [List.map_cons, List.sum_cons]
    omega

/-- No worker has a moment for two jobs. -/
theorem disjoint_moments [DecidableEq W] (h : Schedule duration Before slots) {s t : Slot J W}
    (hs : s ∈ slots) (ht : t ∈ slots) (other : s.job ≠ t.job) :
    Disjoint s.moments t.moments := by
  apply Finset.disjoint_left.mpr
  rintro ⟨w, moment⟩ mine yours
  rw [Slot.mem_moments] at mine yours
  have apart := h.apart s hs t ht other (mine.1.symm.trans yours.1)
  omega

/-- Nor have all workers together more moments than there are. -/
theorem work_le [Fintype W] [DecidableEq J] [DecidableEq W] (h : Schedule duration Before slots)
    {jobs : List J} (nodup : jobs.Nodup) (done : ∀ job ∈ jobs, ∃ s ∈ slots, s.job = job)
    {first last : Nat} (begins : ∀ s ∈ slots, s.job ∈ jobs → first ≤ s.start)
    (ends : ∀ s ∈ slots, s.stop ≤ last) :
    (jobs.map duration).sum ≤ Fintype.card W * (last - first) := by
  rcases isEmpty_or_nonempty (Slot J W) with none | some
  · have empty : jobs = [] := List.eq_nil_iff_forall_not_mem.mpr fun job hj =>
      none.elim (done job hj).choose
    simp [empty]
  choose! slot inside here using done
  have disjoint : (jobs.toFinset : Set J).PairwiseDisjoint fun job => (slot job).moments := by
    intro i hi j hj other
    rw [List.coe_toFinset] at hi hj
    refine h.disjoint_moments (inside i hi) (inside j hj) fun same => other ?_
    rwa [here i hi, here j hj] at same
  calc (jobs.map duration).sum
      = ∑ job ∈ jobs.toFinset, duration job := (List.sum_toFinset _ nodup).symm
    _ ≤ ∑ job ∈ jobs.toFinset, (slot job).moments.card := by
        apply Finset.sum_le_sum
        intro job hj
        have hj := List.mem_toFinset.mp hj
        have long := h.long _ (inside job hj)
        rw [here job hj] at long
        rw [Slot.card_moments]
        omega
    _ = (jobs.toFinset.biUnion fun job => (slot job).moments).card :=
        (Finset.card_biUnion disjoint).symm
    _ ≤ (Finset.univ ×ˢ Finset.Ico first last).card := by
        apply Finset.card_le_card
        rintro ⟨w, moment⟩ mine
        obtain ⟨job, hj, mine⟩ := Finset.mem_biUnion.mp mine
        have hj := List.mem_toFinset.mp hj
        obtain ⟨_, after, before⟩ := ((slot job).mem_moments w moment).mp mine
        have starts := begins _ (inside job hj) ((here job hj).symm ▸ hj)
        have stops := ends _ (inside job hj)
        simp only [Finset.mem_product, Finset.mem_univ, Finset.mem_Ico, true_and]
        omega
    _ = Fintype.card W * (last - first) := by
        rw [Finset.card_product, Finset.card_univ, Nat.card_Ico]

end Schedule
end Scheduling
