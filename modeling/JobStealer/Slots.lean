import JobStealer.SingleWorker
import Mathlib.Data.Finset.Lattice.Fold
import Mathlib.Order.Lattice.Nat

/-!
# The slots one frame uses

`PushBack` has no bounds check, and moving a blocked job to the back takes a
fresh slot although no job was added. The boundaries are reset only when the
queue loses its last job, so within a frame `mBack` only grows.

How far is decided by the order of the pushes: `passedOver` counts, on the chain
of prerequisites of a job where that is most, the links whose prerequisite was
pushed after its dependant. The job is moved to the back that often
(`passedOver_back`, `passedOver_front`), and `slots_in_bounds_iff` follows.
-/

namespace JobStealer
variable {n : Nat}

/-- A link of a prerequisite chain that goes against the order of the queue. -/
def backward (q : List (Fin n)) (i j : Fin n) : Nat := if q.idxOf i < q.idxOf j then 0 else 1

/-- The prerequisites of `j` still in the queue. -/
def Graph.blockers (g : Graph n) (q : List (Fin n)) (j : Fin n) : Finset (Fin n) :=
  Finset.univ.filter fun i => i ∈ q ∧ g.Prerequisite i j

/-- The most backward links on a chain of at most `depth` links up from `j`. -/
def Graph.chain (g : Graph n) (q : List (Fin n)) : Nat → Fin n → Nat
  | 0, _ => 0
  | depth + 1, j => (g.blockers q j).sup fun i => g.chain q depth i + backward q i j

/-- The most backward links on a chain of prerequisites of `j` in the queue.
There are no chains of more than `n` jobs. -/
def Graph.passedOver (g : Graph n) (q : List (Fin n)) (j : Fin n) : Nat := g.chain q n j

namespace Graph
variable {g : Graph n} {q : List (Fin n)}

theorem mem_blockers {i j : Fin n} : i ∈ g.blockers q j ↔ i ∈ q ∧ g.Prerequisite i j := by
  simp [blockers]

theorem chain_succ {depth : Nat} {j : Fin n} (deep : n ≤ depth + j) :
    g.chain q (depth + 1) j = g.chain q depth j := by
  induction depth generalizing j with
  | zero => exact absurd j.isLt (by omega)
  | succ depth ih =>
    rw [chain, chain]
    apply Finset.sup_congr rfl
    intro i hi
    have later : j < i := g.earlier_of_prerequisite (mem_blockers.mp hi).2
    rw [ih (by have : j.val < i.val := later; omega)]

theorem passedOver_eq (g : Graph n) (q : List (Fin n)) (j : Fin n) :
    g.passedOver q j = (g.blockers q j).sup fun i => g.passedOver q i + backward q i j := by
  rw [passedOver, ← chain_succ (by omega), chain]
  rfl

theorem passedOver_of_free {j : Fin n} (free : ∀ i ∈ q, ¬ g.Prerequisite i j) :
    g.passedOver q j = 0 := by
  have none : g.blockers q j = ∅ := by
    ext i
    simp only [mem_blockers, Finset.notMem_empty, iff_false, not_and]
    exact free i
  rw [passedOver_eq, none, Finset.sup_empty]
  rfl

end Graph

/-! ## Moving the first job to the back -/

section Move
variable {a i j : Fin n} {rest : List (Fin n)}

theorem backward_rest (ha : a ∉ rest) (hi : i ∈ rest) (hj : j ∈ rest) :
    backward (rest ++ [a]) i j = backward (a :: rest) i j := by
  have hia : a ≠ i := fun eq => ha (eq ▸ hi)
  have hja : a ≠ j := fun eq => ha (eq ▸ hj)
  simp [backward, List.idxOf_append_of_mem, hi, hj, List.idxOf_cons_ne _ hia,
    List.idxOf_cons_ne _ hja]

theorem backward_cons (ha : a ∉ rest) (hi : i ∈ rest) (hj : j ∈ rest) :
    backward rest i j = backward (a :: rest) i j := by
  have hia : a ≠ i := fun eq => ha (eq ▸ hi)
  have hja : a ≠ j := fun eq => ha (eq ▸ hj)
  simp [backward, List.idxOf_cons_ne _ hia, List.idxOf_cons_ne _ hja]

theorem backward_from_first (hj : j ≠ a) : backward (a :: rest) a j = 0 := by
  simp [backward, List.idxOf_cons_ne _ (Ne.symm hj)]

theorem backward_to_first : backward (a :: rest) i a = 1 := by simp [backward]

theorem backward_from_last (ha : a ∉ rest) (hj : j ∈ rest) :
    backward (rest ++ [a]) a j = 1 := by
  have := List.idxOf_lt_length_of_mem hj
  simp [backward, List.idxOf_append_of_mem hj, List.idxOf_append_of_notMem ha]
  omega

theorem backward_to_last (ha : a ∉ rest) (hi : i ∈ rest) :
    backward (rest ++ [a]) i a = 0 := by
  have := List.idxOf_lt_length_of_mem hi
  simp [backward, List.idxOf_append_of_mem hi, List.idxOf_append_of_notMem ha]
  omega

end Move

theorem sup_add_one {ι : Type} {s : Finset ι} (some : s.Nonempty) (f : ι → Nat) :
    (s.sup fun i => f i + 1) = s.sup f + 1 := by
  apply le_antisymm
  · exact Finset.sup_le fun i hi => Nat.succ_le_succ (Finset.le_sup hi)
  · obtain ⟨i, hi, eq⟩ := Finset.exists_mem_eq_sup s some f
    rw [eq]
    exact Finset.le_sup (f := fun i => f i + 1) hi

namespace Graph
variable (g : Graph n) {a : Fin n} {rest : List (Fin n)}

/-- Moving a blocked first job to the back takes one backward link from its own
chains, and none from those of the others: a link from it that now goes backward
makes up for the one it lost. -/
theorem passedOver_back (nodup : (a :: rest).Nodup) (blocked : ∃ i ∈ rest, g.Prerequisite i a)
    (j : Fin n) (hj : j ∈ a :: rest) :
    g.passedOver (rest ++ [a]) j + (if j = a then 1 else 0) = g.passedOver (a :: rest) j := by
  have ha : a ∉ rest := (List.nodup_cons.mp nodup).1
  have same (j : Fin n) : g.blockers (rest ++ [a]) j = g.blockers (a :: rest) j := by
    ext i
    simp [mem_blockers, or_comm]
  have no_loop : ¬ g.Prerequisite a a := fun own => lt_irrefl a (g.earlier a a own)
  induction j using g.prerequisite_wellFounded.induction with
  | _ j ih =>
    rw [passedOver_eq, passedOver_eq g (a :: rest), same]
    by_cases self : j = a
    · subst self
      obtain ⟨i, hi, prerequisite⟩ := blocked
      have some : (g.blockers (j :: rest) j).Nonempty :=
        ⟨i, mem_blockers.mpr ⟨List.mem_cons_of_mem _ hi, prerequisite⟩⟩
      rw [if_pos rfl, ← sup_add_one some]
      apply Finset.sup_congr rfl
      intro i hi
      obtain ⟨hi, prerequisite⟩ := mem_blockers.mp hi
      have other : i ≠ j := fun eq => no_loop (eq ▸ prerequisite)
      have hi' : i ∈ rest := by simpa [other] using hi
      have := ih i prerequisite hi
      rw [if_neg other] at this
      rw [backward_to_last ha hi', backward_to_first]
      omega
    · have hj' : j ∈ rest := by simpa [self] using hj
      rw [if_neg self, add_zero]
      apply Finset.sup_congr rfl
      intro i hi
      obtain ⟨hi, prerequisite⟩ := mem_blockers.mp hi
      have known := ih i prerequisite hi
      by_cases first : i = a
      · subst first
        rw [if_pos rfl] at known
        rw [backward_from_last ha hj', backward_from_first self]
        omega
      · have hi' : i ∈ rest := by simpa [first] using hi
        rw [if_neg first] at known
        rw [backward_rest ha hi' hj']
        omega

/-- Executing the first job takes nothing from the chains of the others. -/
theorem passedOver_front (nodup : (a :: rest).Nodup) (free : ∀ i ∈ a :: rest, ¬ g.Prerequisite i a)
    (j : Fin n) (hj : j ∈ rest) : g.passedOver rest j = g.passedOver (a :: rest) j := by
  have ha : a ∉ rest := (List.nodup_cons.mp nodup).1
  have zero : g.passedOver (a :: rest) a = 0 := passedOver_of_free free
  induction j using g.prerequisite_wellFounded.induction with
  | _ j ih =>
    have other : j ≠ a := fun eq => ha (eq ▸ hj)
    rw [passedOver_eq, passedOver_eq g (a :: rest)]
    apply le_antisymm
    · apply Finset.sup_le
      intro i hi
      obtain ⟨hi, prerequisite⟩ := mem_blockers.mp hi
      rw [ih i prerequisite hi, backward_cons ha hi hj]
      exact Finset.le_sup (f := fun i => g.passedOver (a :: rest) i + backward (a :: rest) i j)
        (mem_blockers.mpr ⟨List.mem_cons_of_mem _ hi, prerequisite⟩)
    · apply Finset.sup_le
      intro i hi
      obtain ⟨hi, prerequisite⟩ := mem_blockers.mp hi
      by_cases first : i = a
      · subst first
        rw [zero, backward_from_first other]
        exact Nat.zero_le _
      · have hi' : i ∈ rest := by simpa [first] using hi
        rw [← ih i prerequisite hi', ← backward_cons ha hi' hj]
        exact Finset.le_sup (f := fun i => g.passedOver rest i + backward rest i j)
          (mem_blockers.mpr ⟨hi', prerequisite⟩)

end Graph

/-! ## All slots of a frame -/

/-- The moves to the back still to come. -/
def Graph.reorderings (g : Graph n) (q : List (Fin n)) : Nat := (q.map (g.passedOver q)).sum

theorem Graph.reorderings_back (g : Graph n) {a : Fin n} {rest : List (Fin n)}
    (nodup : (a :: rest).Nodup) (blocked : ∃ i ∈ rest, g.Prerequisite i a) :
    g.reorderings (rest ++ [a]) + 1 = g.reorderings (a :: rest) := by
  have ha : a ∉ rest := (List.nodup_cons.mp nodup).1
  have moved := g.passedOver_back nodup blocked a (List.mem_cons_self ..)
  rw [if_pos rfl] at moved
  have others : rest.map (g.passedOver (rest ++ [a])) = rest.map (g.passedOver (a :: rest)) := by
    apply List.map_congr_left
    intro j hj
    have other : j ≠ a := fun eq => ha (eq ▸ hj)
    have := g.passedOver_back nodup blocked j (List.mem_cons_of_mem _ hj)
    rwa [if_neg other] at this
  simp only [reorderings, List.map_append, List.sum_append, List.map_cons, List.map_nil,
    List.sum_cons, List.sum_nil, others]
  omega

theorem Graph.reorderings_front (g : Graph n) {a : Fin n} {rest : List (Fin n)}
    (nodup : (a :: rest).Nodup) (free : ∀ i ∈ a :: rest, ¬ g.Prerequisite i a) :
    g.reorderings rest = g.reorderings (a :: rest) := by
  have others : rest.map (g.passedOver rest) = rest.map (g.passedOver (a :: rest)) :=
    List.map_congr_left fun j hj => g.passedOver_front nodup free j hj
  simp only [reorderings, List.map_cons, List.sum_cons, others, passedOver_of_free free, zero_add]

theorem reorders_le_one {J : Type} (can : J → Bool) (q : List J) : reorders can q ≤ 1 := by
  unfold reorders
  split
  · split <;> omega
  · omega

/-- Every move a search makes was still to come. -/
theorem reorderings_search {g : Graph n} {q ran : List (Fin n)} {u : Counters n}
    (h : Accounts g q u ran) (left : q ≠ []) :
    g.reorderings (searchOwn u.canExecute q).2 + reorders u.canExecute q = g.reorderings q := by
  match q with
  | [] => exact absurd rfl left
  | [a] =>
    have can : u.canExecute a = true := by simpa using h.exists_canExecute left
    have free := (h.canExecute_iff (List.mem_cons_self ..)).mp can
    rw [← g.reorderings_front h.nodup free]
    simp [searchOwn, reorders, can]
  | a :: b :: rest =>
    by_cases can : u.canExecute a = true
    · have free := (h.canExecute_iff (List.mem_cons_self ..)).mp can
      rw [← g.reorderings_front h.nodup free]
      simp [searchOwn, reorders, can]
    · have blocked : ∃ i ∈ b :: rest, g.Prerequisite i a := by
        by_contra none
        refine can ((h.canExecute_iff (List.mem_cons_self ..)).mpr fun i hi prerequisite => ?_)
        have other : i ≠ a := fun eq => lt_irrefl a (g.earlier a a (eq ▸ prerequisite))
        exact none ⟨i, by simpa [other] using hi, prerequisite⟩
      have moved := g.reorderings_back h.nodup blocked
      by_cases can' : u.canExecute b = true
      · have turned := h.perm (List.perm_append_singleton a (b :: rest))
        have free := (turned.canExecute_iff (List.mem_cons_self ..)).mp can'
        have front : g.reorderings (rest ++ [a]) = g.reorderings (b :: (rest ++ [a])) :=
          g.reorderings_front turned.nodup free
        simp only [searchOwn, reorders, can, can', Bool.false_eq_true, ↓reduceIte]
        rw [front]
        exact moved
      · simpa [searchOwn, reorders, can, can'] using moved

namespace Draining
variable {g : Graph n} {s : Worker (LocklessDeque (Fin n)) n} {k : Nat} {q : List (Fin n)}

theorem slot_le (h : Draining g s k q) : k ≤ AMOUNT := h.holds.2 ▸ h.holds.1.room

/-- With a slot for every move to come no pass goes out of bounds. -/
theorem in_bounds (h : Draining g s k q) (room : q ≠ [] → k + g.reorderings q ≤ AMOUNT) (m : Nat) :
    ∃ t, s.drain g m = .ok t := by
  induction m generalizing s k q with
  | zero => exact ⟨s, rfl⟩
  | succ m ih =>
    by_cases left : q = []
    · subst left
      obtain ⟨t, eq⟩ := ih h room
      exact ⟨t, by simp [Worker.drain, h.iterate_nil, bind, Except.bind, eq]⟩
    · have moves := reorderings_search h.accounts left
      have room := room left
      obtain ⟨u, l, pass, h', used, _⟩ := h.iterate left fun one => by
        change k < AMOUNT
        omega
      obtain ⟨t, eq⟩ := ih h' fun left' => by
        rw [used left']
        omega
      exact ⟨t, by simp [Worker.drain, pass, bind, Except.bind, eq]⟩

/-- With one slot too few some pass does. -/
theorem out_of_bounds (h : Draining g s k q) (left : q ≠ [])
    (short : AMOUNT < k + g.reorderings q) :
    ∃ m, s.drain g m = .error (.outOfBounds AMOUNT) := by
  generalize bound : cost s.unfinished.canExecute q = c
  induction c using Nat.strongRecOn generalizing s k q with
  | ind c ih =>
    have le := h.slot_le
    have moves := reorderings_search h.accounts left
    have one := reorders_le_one s.unfinished.canExecute q
    by_cases full : reorders s.unfinished.canExecute q = 1 ∧ k = AMOUNT
    · have back : s.mJobDeque.mBack = AMOUNT := h.holds.2.trans full.2
      have fault := getJobFromOwnQueue_full s.unfinished.canExecute h.holds.1 back full.1
      refine ⟨1, ?_⟩
      simp [Worker.drain, Worker.iterate, h.hasExecutableJobs left, fault, bind, Except.bind]
    · obtain ⟨u, l, pass, h', used, less⟩ := h.iterate left fun one => by
        change k < AMOUNT
        omega
      have left' : (searchOwn s.unfinished.canExecute q).2 ≠ [] := fun nil => by
        rw [nil] at moves
        have : g.reorderings [] = 0 := rfl
        omega
      obtain ⟨m, eq⟩ := ih _ (bound ▸ less) h' left' (by rw [used left']; omega) rfl
      exact ⟨m + 1, by simp [Worker.drain, pass, bind, Except.bind, eq]⟩

end Draining

/-- The jobs of a frame pushed one after the other. -/
def LocklessDeque.addJobs {J : Type} (jobs : List J) : Except Fault (LocklessDeque J) :=
  jobs.foldlM LocklessDeque.pushBack .empty

theorem LocklessDeque.foldlM_pushBack {J : Type} (jobs : List J) {d : LocklessDeque J}
    {l : List J} (h : d.Holds l) :
    if d.mBack + jobs.length ≤ AMOUNT then
      ∃ e, jobs.foldlM LocklessDeque.pushBack d = .ok e ∧ e.Holds (l ++ jobs) ∧
        e.mBack = d.mBack + jobs.length
    else jobs.foldlM LocklessDeque.pushBack d = .error (.outOfBounds AMOUNT) := by
  induction jobs generalizing d l with
  | nil =>
    rw [List.length_nil, Nat.add_zero, if_pos h.room]
    exact ⟨d, rfl, by simpa using h, rfl⟩
  | cons a rest ih =>
    have room := h.room
    by_cases full : d.mBack = AMOUNT
    · rw [if_neg (by simp; omega), List.foldlM_cons, Holds.pushBack_full d full]
      rfl
    · obtain ⟨e, eq, holds, back⟩ := h.pushBack (by omega) a
      have later := ih holds
      rw [back, List.append_assoc, List.singleton_append, Nat.add_assoc,
        Nat.add_comm 1 rest.length] at later
      rw [List.foldlM_cons, eq]
      exact later

/-- The only worker takes the frame from its fresh deque, pass after pass. -/
def drainFrame (g : Graph n) (jobs : List (Fin n)) (m : Nat) :
    Except Fault (Worker (LocklessDeque (Fin n)) n) := do
  let d ← LocklessDeque.addJobs jobs
  (⟨d, g.build, []⟩ : Worker (LocklessDeque (Fin n)) n).drain g m

/-- Every index a frame accesses is in bounds exactly when there is a slot for
each job and one for each time a job is passed over. -/
theorem slots_in_bounds_iff (g : Graph n) (jobs : List (Fin n))
    (all : jobs.Perm (List.finRange n)) :
    (∀ m i, drainFrame g jobs m ≠ .error (.outOfBounds i)) ↔
      n + (jobs.map (g.passedOver jobs)).sum ≤ AMOUNT := by
  have length : jobs.length = n := by simpa using all.length_eq
  have filled := LocklessDeque.foldlM_pushBack jobs (LocklessDeque.empty_holds (J := Fin n))
  have zero : (LocklessDeque.empty : LocklessDeque (Fin n)).mBack = 0 := rfl
  change _ ↔ n + g.reorderings jobs ≤ AMOUNT
  by_cases many : n ≤ AMOUNT
  · rw [zero, Nat.zero_add, length, if_pos many, List.nil_append] at filled
    obtain ⟨d, eq, holds, back⟩ := filled
    have frame (m : Nat) : drainFrame g jobs m = Worker.drain g m ⟨d, g.build, []⟩ := by
      simp [drainFrame, LocklessDeque.addJobs, eq, bind, Except.bind]
    have begun : Draining g ⟨d, g.build, []⟩ n jobs := ⟨⟨holds, back⟩, .start g all⟩
    constructor
    · intro never
      by_contra short
      have left : jobs ≠ [] := by
        rintro rfl
        have : g.reorderings [] = 0 := rfl
        omega
      obtain ⟨m, fault⟩ := begun.out_of_bounds left (by omega)
      exact never m AMOUNT ((frame m).trans fault)
    · intro fits m i fault
      obtain ⟨t, fine⟩ := begun.in_bounds (fun _ => fits) m
      rw [frame, fine] at fault
      cases fault
  · rw [zero, Nat.zero_add, length, if_neg many] at filled
    constructor
    · intro never
      refine absurd ?_ (never 0 AMOUNT)
      simp [drainFrame, LocklessDeque.addJobs, filled, bind, Except.bind]
    · intro fits
      omega

/-- The frame of `UpdateParallel`, in order of construction: sound, rendering,
animation, gameElements, particles, collision, physics, input. -/
def frame : Graph 8 where
  dependants := ![[], [], [1], [1], [1], [2, 4], [5, 3], [6]]
  earlier := by decide

theorem frame_sorted_in_bounds : [7, 6, 5, 3, 2, 4, 1, 0].Perm (List.finRange 8) ∧
    ∀ m i, drainFrame frame [7, 6, 5, 3, 2, 4, 1, 0] m ≠ .error (.outOfBounds i) :=
  ⟨by decide, (slots_in_bounds_iff frame [7, 6, 5, 3, 2, 4, 1, 0] (by decide)).mpr (by decide)⟩

/-- rendering, collision, physics, input, animation, particles, gameElements,
sound: the order in which `UpdateParallel` adds them. -/
def frameOrder : List (Fin 8) := [1, 5, 6, 7, 2, 4, 3, 0]

theorem frame_out_of_bounds : 8 ≤ AMOUNT ∧ frameOrder.Perm (List.finRange 8) ∧
    ∃ m i, drainFrame frame frameOrder m = .error (.outOfBounds i) :=
  ⟨by decide, by decide, 14, 16, rfl⟩

end JobStealer
