import JobStealer.Deque

/-!
# The deque with a mutex

Every operation of `LockingDeque` holds `mJobDequeMutex` from start to end, so it
is one function of the deque. `can` stands for the answers `CanExecute` gives at
that moment. A job pointer a pop returns is an `Option`, `nullptr` being `none`.

`popFront_eq` and `popBack_eq` say the two pops are `Deque.takeFront` and
`Deque.takeBack` on the contents.
-/

namespace JobStealer

/-- `mSize` counts the elements of `mJobDeque`. -/
@[ext] structure LockingDeque (J : Type) where
  mJobDeque : List J
  mSize : Nat
  sized : mSize = mJobDeque.length

namespace LockingDeque
variable {J : Type}

def empty : LockingDeque J := ⟨[], 0, rfl⟩

def size (d : LockingDeque J) : Nat := d.mSize

def hasExecutableJobs (can : J → Bool) (d : LockingDeque J) : Bool :=
  (List.finRange d.mSize).any fun i => can (d.mJobDeque.get (i.cast d.sized))

/-- One `pop_front` for each of the `mSize` elements. -/
def clear (d : LockingDeque J) : LockingDeque J :=
  ⟨d.mJobDeque.drop d.mSize, 0, by simp [d.sized]⟩

def pushFront (d : LockingDeque J) (job : J) : LockingDeque J :=
  ⟨job :: d.mJobDeque, d.mSize + 1, by simp [d.sized]⟩

def pushBack (d : LockingDeque J) (job : J) : LockingDeque J :=
  ⟨d.mJobDeque ++ [job], d.mSize + 1, by simp [d.sized]⟩

theorem ne_nil {d : LockingDeque J} (h : ¬ d.mSize = 0) : d.mJobDeque ≠ [] := fun nil =>
  h (by rw [d.sized, nil]; rfl)

def popFront (can : J → Bool) (allowOpenDependencies : Bool) (d : LockingDeque J) :
    Option J × LockingDeque J :=
  if h : d.mSize = 0 then (none, d)
  else
    let job := d.mJobDeque.head (ne_nil h)
    if allowOpenDependencies || can job then
      (some job, ⟨d.mJobDeque.tail, d.mSize - 1, by simp [d.sized]⟩)
    else (none, d)

def popBack (can : J → Bool) (d : LockingDeque J) : Option J × LockingDeque J :=
  if h : d.mSize = 0 then (none, d)
  else
    let job := d.mJobDeque.getLast (ne_nil h)
    if can job then (some job, ⟨d.mJobDeque.dropLast, d.mSize - 1, by simp [d.sized]⟩)
    else (none, d)

theorem ext_jobs {d e : LockingDeque J} (h : d.mJobDeque = e.mJobDeque) : d = e :=
  LockingDeque.ext h (by rw [d.sized, e.sized, h])

@[simp] theorem empty_mJobDeque : (empty : LockingDeque J).mJobDeque = [] := rfl

@[simp] theorem pushFront_mJobDeque (d : LockingDeque J) (job : J) :
    (d.pushFront job).mJobDeque = job :: d.mJobDeque := rfl

@[simp] theorem pushBack_mJobDeque (d : LockingDeque J) (job : J) :
    (d.pushBack job).mJobDeque = d.mJobDeque ++ [job] := rfl

@[simp] theorem clear_mJobDeque (d : LockingDeque J) : d.clear.mJobDeque = [] := by
  simp [clear, d.sized]

theorem size_eq (d : LockingDeque J) : d.size = d.mJobDeque.length := d.sized

theorem hasExecutableJobs_eq (can : J → Bool) (d : LockingDeque J) :
    d.hasExecutableJobs can = d.mJobDeque.any can := by
  obtain ⟨l, _, rfl⟩ := d
  rw [Bool.eq_iff_iff, hasExecutableJobs, List.any_eq_true, List.any_eq_true]
  constructor
  · rintro ⟨i, _, h⟩
    exact ⟨_, List.get_mem _ _, h⟩
  · rintro ⟨j, hj, h⟩
    obtain ⟨i, rfl⟩ := List.get_of_mem hj
    exact ⟨i, List.mem_finRange _, h⟩

theorem popFront_eq (can : J → Bool) (allow : Bool) (d : LockingDeque J) :
    ((d.popFront can allow).1, (d.popFront can allow).2.mJobDeque) =
      Deque.takeFront (fun j => allow || can j) d.mJobDeque := by
  obtain ⟨l, _, rfl⟩ := d
  cases l with
  | nil => rfl
  | cons j rest =>
    by_cases h : (allow || can j) = true
    · simp only [popFront, List.length_cons, Nat.succ_ne_zero, ↓reduceDIte, List.head_cons, h,
        ↓reduceIte, List.tail_cons, Deque.takeFront]
    · simp only [popFront, List.length_cons, Nat.succ_ne_zero, ↓reduceDIte, List.head_cons, h,
        Bool.false_eq_true, ↓reduceIte, Deque.takeFront]

theorem popBack_eq (can : J → Bool) (d : LockingDeque J) :
    ((d.popBack can).1, (d.popBack can).2.mJobDeque) = Deque.takeBack can d.mJobDeque := by
  obtain ⟨l, _, rfl⟩ := d
  rcases List.eq_nil_or_concat l with rfl | ⟨rest, j, rfl⟩
  · rfl
  · by_cases h : can j = true
    · simp [popBack, h]
    · simp [popBack, h]

/-- A pop at the front takes the first job, executable unless the caller
allows otherwise, or leaves the deque alone. -/
theorem popFront_cases (can : J → Bool) (allow : Bool) (d : LockingDeque J) :
    (d.popFront can allow = (none, d) ∧ ∀ j ∈ d.mJobDeque.head?, (allow || can j) = false) ∨
      ∃ j e, d.popFront can allow = (some j, e) ∧ d.mJobDeque = j :: e.mJobDeque ∧
        (allow || can j) = true := by
  have eq := d.popFront_eq can allow
  rcases Deque.takeFront_spec (p := fun j => allow || can j) d.mJobDeque with
    ⟨none, no⟩ | ⟨j, rest, taken, rfl', yes⟩
  · rw [none, Prod.mk.injEq] at eq
    exact .inl ⟨Prod.ext eq.1 (ext_jobs eq.2), no⟩
  · rw [taken, Prod.mk.injEq] at eq
    exact .inr ⟨j, _, Prod.ext eq.1 rfl, by rw [eq.2, rfl'], yes⟩

theorem popBack_cases (can : J → Bool) (d : LockingDeque J) :
    (d.popBack can = (none, d) ∧ ∀ j ∈ d.mJobDeque.getLast?, can j = false) ∨
      ∃ j e, d.popBack can = (some j, e) ∧ d.mJobDeque = e.mJobDeque ++ [j] ∧ can j = true := by
  have eq := d.popBack_eq can
  rcases Deque.takeBack_spec (p := can) d.mJobDeque with
    ⟨none, no⟩ | ⟨j, rest, taken, rfl', yes⟩
  · rw [none, Prod.mk.injEq] at eq
    exact .inl ⟨Prod.ext eq.1 (ext_jobs eq.2), no⟩
  · rw [taken, Prod.mk.injEq] at eq
    exact .inr ⟨j, _, Prod.ext eq.1 rfl, by rw [eq.2, rfl'], yes⟩

/-- What a pop returns is what the deque lost. -/
theorem popFront_count [DecidableEq J] (can : J → Bool) (allow : Bool) (d : LockingDeque J)
    (job : J) : (d.popFront can allow).2.mJobDeque.count job +
      (d.popFront can allow).1.toList.count job = d.mJobDeque.count job := by
  rcases d.popFront_cases can allow with ⟨eq, _⟩ | ⟨j, e, eq, jobs, _⟩
  · simp [eq]
  · rw [eq, jobs]
    simp [List.count_cons]

theorem popBack_count [DecidableEq J] (can : J → Bool) (d : LockingDeque J) (job : J) :
    (d.popBack can).2.mJobDeque.count job + (d.popBack can).1.toList.count job =
      d.mJobDeque.count job := by
  rcases d.popBack_cases can with ⟨eq, _⟩ | ⟨j, e, eq, jobs, _⟩
  · simp [eq]
  · rw [eq, jobs]
    simp [List.count_cons]

theorem popFront_subset (can : J → Bool) (allow : Bool) (d : LockingDeque J) :
    (d.popFront can allow).2.mJobDeque ⊆ d.mJobDeque := by
  rcases d.popFront_cases can allow with ⟨eq, _⟩ | ⟨j, e, eq, jobs, _⟩
  · rw [eq]
    exact List.Subset.refl _
  · rw [eq, jobs]
    exact List.subset_cons_self ..

theorem popBack_subset (can : J → Bool) (d : LockingDeque J) :
    (d.popBack can).2.mJobDeque ⊆ d.mJobDeque := by
  rcases d.popBack_cases can with ⟨eq, _⟩ | ⟨j, e, eq, jobs, _⟩
  · rw [eq]
    exact List.Subset.refl _
  · rw [eq, jobs]
    exact List.subset_append_left ..

/-- A strict pop is of an executable job. -/
theorem popFront_can (can : J → Bool) (d : LockingDeque J) {job : J}
    (h : job ∈ (d.popFront can false).1) : can job = true := by
  rcases d.popFront_cases can false with ⟨eq, _⟩ | ⟨j, e, eq, _, yes⟩
  · simp [eq] at h
  · obtain rfl : j = job := by simpa [eq] using h
    simpa using yes

theorem popBack_can (can : J → Bool) (d : LockingDeque J) {job : J}
    (h : job ∈ (d.popBack can).1) : can job = true := by
  rcases d.popBack_cases can with ⟨eq, _⟩ | ⟨j, e, eq, _, yes⟩
  · simp [eq] at h
  · obtain rfl : j = job := by simpa [eq] using h
    exact yes

end LockingDeque
end JobStealer
