import JobStealer.OwnQueue
import Mathlib.Data.List.Rotate

/-!
# The search as a rotation

`GetJobFromOwnQueue` treats the own queue as a circle: a search that finds a job
takes it out and leaves the others in their cyclic order, and a search in vain
turns the circle by one (`searchOwn_rotates`). A blocked job is therefore never
skipped, lost or swapped with another, and the first executable one comes one
place nearer with every search until it is found (`searches_found`).
-/

namespace JobStealer
variable {J : Type} {can : J → Bool}

/-- What a search may return from a queue `q`, and what it may leave: an executable
job, and the other jobs in their cyclic order; or nothing, neither of the first two
jobs being executable, and the queue turned by one, which a queue of at most one job
does not notice. -/
structure Rotates (can : J → Bool) (q : List J) (job : Option J) (left : List J) : Prop where
  found : ∀ j, job = some j → can j = true ∧
    ∃ before after, q = before ++ j :: after ∧ left.IsRotated (before ++ after)
  missed : job = none → left = q.rotate 1 ∧ ∀ j ∈ q.take 2, can j = false

theorem Rotates.of_found {q left before after : List J} {j : J} (executable : can j = true)
    (split : q = before ++ j :: after) (rotated : left.IsRotated (before ++ after)) :
    Rotates can q (some j) left where
  found i same := by
    cases same
    exact ⟨executable, before, after, split, rotated⟩
  missed none := by cases none

theorem Rotates.of_missed {q : List J} (blocked : ∀ j ∈ q.take 2, can j = false) :
    Rotates can q none (q.rotate 1) where
  found j same := by cases same
  missed _ := ⟨rfl, blocked⟩

theorem searchOwn_rotates (can : J → Bool) (q : List J) :
    Rotates can q (searchOwn can q).1 (searchOwn can q).2 := by
  match q with
  | [] => exact .of_missed (by simp)
  | [a] =>
    cases ha : can a with
    | true =>
      have split : [a] = [] ++ a :: [] := rfl
      simp only [searchOwn, ha, ↓reduceIte]
      exact .of_found ha split (.refl _)
    | false =>
      have missed : Rotates can [a] none ([a].rotate 1) := .of_missed (by simpa using ha)
      rw [List.rotate_singleton] at missed
      simpa only [searchOwn, ha, Bool.false_eq_true, ↓reduceIte] using missed
  | a :: b :: rest =>
    cases ha : can a with
    | true =>
      have split : a :: b :: rest = [] ++ a :: b :: rest := rfl
      simp only [searchOwn, ha, ↓reduceIte]
      exact .of_found ha split (.refl _)
    | false =>
      cases hb : can b with
      | true =>
        have split : a :: b :: rest = [a] ++ b :: rest := rfl
        simp only [searchOwn, ha, hb, Bool.false_eq_true, ↓reduceIte]
        exact .of_found hb split (List.isRotated_concat a rest)
      | false =>
        have turned : (a :: b :: rest).rotate 1 = b :: rest ++ [a] :=
          List.rotate_append_length_eq [a] (b :: rest)
        simp only [searchOwn, ha, hb, Bool.false_eq_true, ↓reduceIte]
        rw [← turned]
        exact .of_missed (by simp [ha, hb])

/-! ## Consecutive searches -/

section
variable {D : Type} [JobDeque D J]

/-- `m` calls of `GetJobFromOwnQueue`, and what they return, in order. -/
def searches (can : J → Bool) : Nat → D → Except Fault (List (Option J) × D)
  | 0, d => return ([], d)
  | m + 1, d => do
    let (job, d) ← getJobFromOwnQueue can d
    let (jobs, d) ← searches can m d
    return (job :: jobs, d)

theorem searches_one {d e : D} {job : Option J} (h : getJobFromOwnQueue can d = .ok (job, e)) :
    searches can 1 d = .ok ([job], e) := by
  simp [searches, h, bind, Except.bind, pure, Except.pure]

theorem searches_succ {d e f : D} {m : Nat} {job : Option J} {jobs : List (Option J)}
    (h : getJobFromOwnQueue can d = .ok (job, e)) (rest : searches can m e = .ok (jobs, f)) :
    searches can (m + 1) d = .ok (job :: jobs, f) := by
  simp [searches, h, rest, bind, Except.bind, pure, Except.pure]

variable [LawfulJobDeque D J]
open LawfulJobDeque

theorem getJobFromOwnQueue_rotates {d : D} {k : Nat} {q : List J} (h : HoldsAt d k q)
    (room : reorders can q = 1 → Room (D := D) k) :
    ∃ job e k' left, getJobFromOwnQueue can d = .ok (job, e) ∧ HoldsAt e k' left ∧
      Rotates can q job left := by
  obtain ⟨e, k', found, holds, _⟩ := getJobFromOwnQueue_spec can h room
  exact ⟨_, e, k', _, found, holds, searchOwn_rotates can q⟩

/-- The first executable job is what the searches find first. Each of the blocked
ones before it takes a slot to get behind the others. -/
theorem searches_found {d : D} {k : Nat} {before after : List J} {job : J}
    (h : HoldsAt d k (before ++ job :: after)) (blocked : ∀ j ∈ before, can j = false)
    (executable : can job = true) (room : ∀ i < before.length, Room (D := D) (k + i)) :
    ∃ e k' left, searches can (before.length - 1 + 1) d =
        .ok (List.replicate (before.length - 1) none ++ [some job], e) ∧
      HoldsAt e k' left ∧ left.IsRotated (before ++ after) := by
  induction before generalizing d k after with
  | nil =>
    have search : searchOwn can (job :: after) = (some job, after) := by
      cases after <;> simp [searchOwn, executable]
    obtain ⟨e, k', found, holds, _⟩ := getJobFromOwnQueue_spec can h fun moves => by
      cases after <;> simp [reorders, executable] at moves
    simp only [List.nil_append, search] at found holds
    exact ⟨e, k', after, searches_one found, holds, .refl _⟩
  | cons a more ih =>
    have ha := blocked a (List.mem_cons_self ..)
    have free : Room (D := D) k := room 0 (Nat.succ_pos _)
    obtain ⟨e, k', found, holds, used⟩ := getJobFromOwnQueue_spec can h fun _ => free
    cases more with
    | nil =>
      have search : searchOwn can (a :: job :: after) = (some job, after ++ [a]) := by
        simp [searchOwn, ha, executable]
      simp only [List.cons_append, List.nil_append, search] at found holds
      exact ⟨e, k', after ++ [a], searches_one found, holds, List.isRotated_concat a after⟩
    | cons b more =>
      have hb := blocked b (by simp)
      have search : searchOwn can (a :: b :: more ++ job :: after) =
          (none, b :: more ++ job :: (after ++ [a])) := by
        simp [searchOwn, ha, hb]
      have moved : reorders can (a :: b :: more ++ job :: after) = 1 := by simp [reorders, ha]
      simp only [List.cons_append] at search moved
      simp only [List.cons_append, search, moved] at found holds used
      have next : k' = k + 1 := used (by simp)
      subst next
      obtain ⟨f, k'', left, rest, holds, rotated⟩ := ih holds
        (fun j inside => blocked j (List.mem_cons_of_mem a inside))
        (fun i less => by
          rw [Nat.add_right_comm]
          exact room (i + 1) (Nat.succ_lt_succ less))
      refine ⟨f, k'', left, searches_succ found rest, holds, rotated.trans ?_⟩
      have turn := List.isRotated_concat a (b :: more ++ after)
      simpa using turn

end

open LawfulJobDeque in
/-- Either deque is searched in turn: one call takes an executable job out of the
circle or turns it, and the first executable job, at position `before.length`, is
what the calls return first. With `LocklessDeque` that many slots must be left for
the jobs that go to the back. -/
theorem fair_rotation (can : J → Bool) :
    (∀ d : LockingDeque J,
      (∃ job e, getJobFromOwnQueue can d = .ok (job, e) ∧
        Rotates can d.mJobDeque job e.mJobDeque) ∧
      ∀ before job after, d.mJobDeque = before ++ job :: after →
        (∀ j ∈ before, can j = false) → can job = true →
        ∃ e : LockingDeque J, searches can (max before.length 1) d =
            .ok (List.replicate (max before.length 1 - 1) none ++ [some job], e) ∧
          e.mJobDeque.IsRotated (before ++ after)) ∧
    ∀ (d : LocklessDeque J) (q : List J), d.Holds q →
      (d.mBack + reorders can q ≤ AMOUNT → ∃ job e left,
        getJobFromOwnQueue can d = .ok (job, e) ∧ e.Holds left ∧ Rotates can q job left) ∧
      ∀ before job after, q = before ++ job :: after →
        (∀ j ∈ before, can j = false) → can job = true → d.mBack + before.length ≤ AMOUNT →
        ∃ e left, searches can (max before.length 1) d =
            .ok (List.replicate (max before.length 1 - 1) none ++ [some job], e) ∧
          e.Holds left ∧ left.IsRotated (before ++ after) := by
  have calls (p : Nat) : max p 1 = p - 1 + 1 := by omega
  simp only [calls, Nat.add_sub_cancel]
  constructor
  · intro d
    have h : HoldsAt d 0 d.mJobDeque := rfl
    constructor
    · obtain ⟨job, e, _, left, found, holds, rotates⟩ :=
        getJobFromOwnQueue_rotates h fun _ => trivial
      cases holds
      exact ⟨job, e, found, rotates⟩
    · intro before job after split blocked executable
      rw [split] at h
      obtain ⟨e, _, left, found, holds, rotated⟩ :=
        searches_found h blocked executable fun _ _ => trivial
      cases holds
      exact ⟨e, found, rotated⟩
  · intro d q holds
    have h : HoldsAt d d.mBack q := ⟨holds, rfl⟩
    constructor
    · intro room
      have free (one : reorders can q = 1) : d.mBack < AMOUNT := by omega
      obtain ⟨job, e, _, left, found, holds, rotates⟩ := getJobFromOwnQueue_rotates h free
      exact ⟨job, e, left, found, holds.1, rotates⟩
    · rintro before job after rfl blocked executable room
      have free (i : Nat) (less : i < before.length) : d.mBack + i < AMOUNT := by omega
      obtain ⟨e, _, left, found, holds, rotated⟩ := searches_found h blocked executable free
      exact ⟨e, left, found, holds.1, rotated⟩

/-- Three blocked jobs in front: two searches in vain, and the third finds the job. -/
theorem fair_rotation_four : ∃ (e : LocklessDeque Nat) (left : List Nat),
    searches (· == 8) 3 (⟨some, 5, 9⟩ : LocklessDeque Nat) = .ok ([none, none, some 8], e) ∧
      e.Holds left ∧ left.IsRotated [5, 6, 7] := by
  have holds : (⟨some, 5, 9⟩ : LocklessDeque Nat).Holds [5, 6, 7, 8] := ⟨rfl, by decide, by decide⟩
  exact ((fair_rotation (· == 8)).2 _ _ holds).2 [5, 6, 7] 8 [] rfl (by decide) rfl (by decide)

end JobStealer
