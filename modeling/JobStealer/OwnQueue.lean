import JobStealer.LocklessDeque

/-!
# Looking for a job in the own queue

`JobWorker::GetJobFromOwnQueue` with no other thread acting, over either deque.
`searchOwn` is what it does to the contents: it looks at the first two jobs, and
a first job that cannot run is moved to the back. `reorders` is the number of
jobs moved, and with `LocklessDeque` of slots used up.

`LawfulJobDeque` is what the two classes have in common. Its index `k` is the
slot the next push takes; `LockingDeque` has none and always has room.
-/

namespace JobStealer

/-- What a worker uses of its `mJobDeque`, whichever class that is. -/
class JobDeque (D : Type) (J : outParam Type) where
  size : D → Nat
  hasExecutableJobs : (J → Bool) → D → Except Fault Bool
  pushBack : D → J → Except Fault D
  popFront : (J → Bool) → Bool → D → Except Fault (Option J × D)

instance {J : Type} : JobDeque (LockingDeque J) J where
  size := LockingDeque.size
  hasExecutableJobs can d := .ok (d.hasExecutableJobs can)
  pushBack d job := .ok (d.pushBack job)
  popFront can allow d := .ok (d.popFront can allow)

instance {J : Type} : JobDeque (LocklessDeque J) J where
  size := LocklessDeque.size
  hasExecutableJobs := LocklessDeque.hasExecutableJobs
  pushBack := LocklessDeque.pushBack
  popFront := LocklessDeque.popFront

/-- `HoldsAt d k l`: the deque holds `l` and its next push takes slot `k`. -/
class LawfulJobDeque (D : Type) (J : outParam Type) [JobDeque D J] where
  HoldsAt : D → Nat → List J → Prop
  Room : Nat → Prop
  size_eq {d : D} {k : Nat} {l : List J} : HoldsAt d k l → JobDeque.size d = l.length
  hasExecutableJobs_eq {d : D} {k : Nat} {l : List J} (can : J → Bool) :
    HoldsAt d k l → JobDeque.hasExecutableJobs can d = .ok (l.any can)
  pushBack_ok {d : D} {k : Nat} {l : List J} (job : J) : HoldsAt d k l → Room k →
    ∃ e, JobDeque.pushBack d job = .ok e ∧ HoldsAt e (k + 1) (l ++ [job])
  popFront_ok {d : D} {k : Nat} {l : List J} (can : J → Bool) (allow : Bool) : HoldsAt d k l →
    ∃ e k', JobDeque.popFront can allow d =
        .ok ((Deque.takeFront (fun j => allow || can j) l).1, e) ∧
      HoldsAt e k' (Deque.takeFront (fun j => allow || can j) l).2 ∧
      ((Deque.takeFront (fun j => allow || can j) l).2 ≠ [] → k' = k)

instance {J : Type} : LawfulJobDeque (LockingDeque J) J where
  HoldsAt d _ l := d.mJobDeque = l
  Room _ := True
  size_eq h := by rw [← h]; exact LockingDeque.size_eq _
  hasExecutableJobs_eq can h := by rw [← h, ← LockingDeque.hasExecutableJobs_eq]; rfl
  pushBack_ok job h _ := ⟨_, rfl, by rw [← h]; rfl⟩
  popFront_ok {d k l} can allow h := by
    subst h
    have eq := d.popFront_eq can allow
    have first : (d.popFront can allow).1 =
        (Deque.takeFront (fun j => allow || can j) d.mJobDeque).1 := congrArg Prod.fst eq
    exact ⟨(d.popFront can allow).2, k, congrArg Except.ok (Prod.ext first rfl),
      congrArg Prod.snd eq, fun _ => rfl⟩

namespace LocklessDeque

theorem popFront_mBack {J : Type} {can : J → Bool} {allow : Bool} {d e : LocklessDeque J}
    {job : Option J} {l : List J} (h : d.popFront can allow = .ok (job, e)) (holds : e.Holds l)
    (left : l ≠ []) : e.mBack = d.mBack := by
  have := holds.back
  have := List.length_pos_iff.mpr left
  unfold popFront at h
  split at h
  · cases hr : d.read d.mFront with
    | error _ => rw [hr] at h; cases h
    | ok first =>
      simp only [hr, bind, Except.bind, pure, Except.pure] at h
      split at h
      · split at h <;> cases h
        · simp at *; omega
        · rfl
      · cases h; rfl
  · cases h; rfl

end LocklessDeque

instance {J : Type} : LawfulJobDeque (LocklessDeque J) J where
  HoldsAt d k l := d.Holds l ∧ d.mBack = k
  Room k := k < AMOUNT
  size_eq h := h.1.size
  hasExecutableJobs_eq can h := h.1.hasExecutableJobs can
  pushBack_ok job h room := by
    obtain ⟨e, eq, holds, back⟩ := h.1.pushBack (h.2 ▸ room) job
    exact ⟨e, eq, holds, by rw [back, h.2]⟩
  popFront_ok can allow h := by
    obtain ⟨e, eq, holds⟩ := h.1.popFront can allow
    exact ⟨e, e.mBack, eq, ⟨holds, rfl⟩, fun left =>
      (LocklessDeque.popFront_mBack eq holds left).trans h.2⟩

section
variable {D J : Type} [JobDeque D J]
open JobDeque

def getJobFromOwnQueue (can : J → Bool) (d : D) : Except Fault (Option J × D) := do
  let allowOpenDependencies := decide (size d > 1)
  match ← popFront can allowOpenDependencies d with
  | (none, d) => return (none, d)
  | (some job, d) =>
    if can job then return (some job, d)
    let d ← pushBack d job
    if size d > 1 then popFront can false d else return (none, d)

/-- What the search returns and leaves behind. -/
def searchOwn (can : J → Bool) : List J → Option J × List J
  | [] => (none, [])
  | [a] => if can a then (some a, []) else (none, [a])
  | a :: b :: rest =>
    if can a then (some a, b :: rest)
    else if can b then (some b, rest ++ [a])
    else (none, b :: rest ++ [a])

/-- The number of jobs the search moves to the back. -/
def reorders (can : J → Bool) : List J → Nat
  | a :: _ :: _ => if can a then 0 else 1
  | _ => 0

variable [LawfulJobDeque D J]
open LawfulJobDeque

theorem getJobFromOwnQueue_spec (can : J → Bool) {d : D} {k : Nat} {l : List J}
    (h : HoldsAt d k l) (room : reorders can l = 1 → Room (D := D) k) :
    ∃ e k', getJobFromOwnQueue can d = .ok ((searchOwn can l).1, e) ∧
      HoldsAt e k' (searchOwn can l).2 ∧
      ((searchOwn can l).2 ≠ [] → k' = k + reorders can l) := by
  have size := size_eq h
  match l with
  | [] =>
    obtain ⟨e, k', popped, holds, _⟩ := popFront_ok can false h
    refine ⟨e, k', ?_, holds, fun left => absurd rfl left⟩
    simp [getJobFromOwnQueue, size, popped, searchOwn, bind, Except.bind, pure, Except.pure]
  | [a] =>
    obtain ⟨e, k', popped, holds, same⟩ := popFront_ok can false h
    cases ha : can a with
    | true =>
      simp only [Deque.takeFront, Bool.false_or, ha, ↓reduceIte] at popped holds
      refine ⟨e, k', ?_, by simpa [searchOwn, ha] using holds, by simp [searchOwn, ha]⟩
      simp [getJobFromOwnQueue, size, popped, searchOwn, ha, bind, Except.bind, pure, Except.pure]
    | false =>
      simp only [Deque.takeFront, Bool.false_or, ha, Bool.false_eq_true, ↓reduceIte]
        at popped holds same
      refine ⟨e, k', ?_, by simpa [searchOwn, ha] using holds, fun _ => ?_⟩
      · simp [getJobFromOwnQueue, size, popped, searchOwn, ha, bind, Except.bind, pure, Except.pure]
      · simpa [reorders] using same
  | a :: b :: rest =>
    obtain ⟨e, k', popped, holds, same⟩ := popFront_ok can true h
    simp only [Deque.takeFront, Bool.true_or, ↓reduceIte, ne_eq, reduceCtorEq, not_false_eq_true,
      forall_const] at popped holds same
    subst same
    cases ha : can a with
    | true =>
      refine ⟨e, k', ?_, by simpa [searchOwn, ha] using holds, fun _ => by simp [reorders, ha]⟩
      simp [getJobFromOwnQueue, size, popped, searchOwn, ha, bind, Except.bind, pure, Except.pure]
    | false =>
      -- the first job goes to the back, and the second gets its only look
      obtain ⟨f, pushed, holds⟩ := pushBack_ok a holds (room (by simp [reorders, ha]))
      have size' := size_eq holds
      obtain ⟨e', k'', popped', holds', same'⟩ := popFront_ok can false holds
      have search : getJobFromOwnQueue can d = popFront can false f := by
        simp [getJobFromOwnQueue, size, popped, ha, pushed, size', bind, Except.bind]
      cases hb : can b with
      | true =>
        simp only [List.cons_append, Deque.takeFront, Bool.false_or, hb, ↓reduceIte]
          at popped' holds' same'
        refine ⟨e', k'', ?_, by simpa [searchOwn, ha, hb] using holds', fun _ => ?_⟩
        · simp [search, popped', searchOwn, ha, hb]
        · simpa [reorders, ha] using same'
      | false =>
        simp only [List.cons_append, Deque.takeFront, Bool.false_or, hb, Bool.false_eq_true,
          ↓reduceIte] at popped' holds' same'
        refine ⟨e', k'', ?_, by simpa [searchOwn, ha, hb] using holds', fun _ => ?_⟩
        · simp [search, popped', searchOwn, ha, hb]
        · simpa [reorders, ha] using same'

end

/-- A job moved to the back of a full array is written behind its end. -/
theorem getJobFromOwnQueue_full {J : Type} (can : J → Bool) {d : LocklessDeque J} {l : List J}
    (h : d.Holds l) (full : d.mBack = AMOUNT) (moves : reorders can l = 1) :
    getJobFromOwnQueue can d = .error (.outOfBounds AMOUNT) := by
  match l with
  | [] => cases moves
  | [_] => cases moves
  | a :: b :: rest =>
    have ha : can a = false := by
      cases ha : can a with
      | true => simp [reorders, ha] at moves
      | false => rfl
    have size : JobDeque.size d = rest.length + 2 := h.size
    obtain ⟨e, popped, holds⟩ := h.popFront can true
    simp only [Deque.takeFront, Bool.true_or, ↓reduceIte] at popped holds
    have back := LocklessDeque.popFront_mBack popped holds (by simp)
    have pop : JobDeque.popFront can true d = .ok (some a, e) := popped
    have push : JobDeque.pushBack e a = .error (.outOfBounds AMOUNT) :=
      LocklessDeque.Holds.pushBack_full e (back.trans full) a
    simp [getJobFromOwnQueue, size, pop, ha, push, bind, Except.bind]

end JobStealer
