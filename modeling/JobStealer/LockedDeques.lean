import JobStealer.Monitor
import JobStealer.LocklessDeque

/-!
# Inside the mutex of a deque

`LockingDeque.code` is `locking_deque.h` an access at a time, with the two members
out of step in the middle of an operation. The counters of the jobs are not under
the mutex, so `CanExecute` may answer differently at every step; a call goes by a
`Blend` of the answers given while it lasted.
-/

namespace JobStealer
open Interleaving

/-- Each of the answers was given at some step. -/
def Blend {J : Type} (seen : List (J → Bool)) (can : J → Bool) : Prop :=
  ∀ job, ∃ answers ∈ seen, can job = answers job

/-- Each job was refused at some step. -/
def Refused {J : Type} (seen : List (J → Bool)) (jobs : List J) : Prop :=
  ∀ job ∈ jobs, ∃ answers ∈ seen, answers job = false

section
variable {J : Type} {seen : List (J → Bool)} {jobs : List J}

theorem blend_latest (can : J → Bool) : Blend (can :: seen) can :=
  fun _ => ⟨can, List.mem_cons_self .., rfl⟩

theorem blend_of_mem {can : J → Bool} (h : can ∈ seen) : Blend seen can :=
  fun _ => ⟨can, h, rfl⟩

theorem Refused.later (h : Refused seen jobs) (can : J → Bool) : Refused (can :: seen) jobs := by
  intro job inside
  obtain ⟨answers, old, no⟩ := h job inside
  exact ⟨answers, List.mem_cons_of_mem _ old, no⟩

theorem Refused.concat {can : J → Bool} (h : Refused (can :: seen) jobs) {job : J}
    (no : can job = false) : Refused (can :: seen) (jobs ++ [job]) := by
  intro other inside
  rcases List.mem_append.mp inside with old | new
  · exact h other old
  · obtain rfl := List.mem_singleton.mp new
    exact ⟨can, List.mem_cons_self .., no⟩

/-- All refused, each at a step of its own, is one answer. -/
theorem Refused.blend {can : J → Bool} (here : can ∈ seen) (h : Refused seen jobs) :
    ∃ answers, Blend seen answers ∧ jobs.any answers = false := by
  classical
  refine ⟨fun job => if job ∈ jobs then false else can job, fun job => ?_, ?_⟩
  · by_cases inside : job ∈ jobs
    · obtain ⟨answers, old, no⟩ := h job inside
      exact ⟨answers, old, (if_pos inside).trans no.symm⟩
    · exact ⟨can, here, if_neg inside⟩
  · rw [List.any_eq_false]
    intro job inside
    simp [inside]

end

/-! ## `LockingDeque` -/

inductive LockingOp (J : Type)
  | deque (op : DequeOp J)
  | pushFront (job : J)
  | front

/-- The members as they stand between two accesses. -/
structure Members (J : Type) where
  mJobDeque : List J
  mSize : Nat

/-- The end of `mJobDeque` a pop works at. -/
inductive End
  | front
  | back

def End.op {J : Type} : End → Bool → LockingOp J
  | .front, allow => .deque (.popFront allow)
  | .back, _ => .deque .popBack

def End.read {J : Type} : End → List J → Option J
  | .front, jobs => jobs.head?
  | .back, jobs => jobs.getLast?

def End.remove {J : Type} : End → List J → List J
  | .front, jobs => jobs.tail
  | .back, jobs => jobs.dropLast

inductive LockingPc (J : Type)
  | size
  -- `HasExecutableJobs`, at index `i`
  | scan (i : Nat)
  | scanTest (i : Nat)
  -- `Clear`
  | clear
  | clearPop
  | clearCount
  -- `PushFront` and `PushBack`
  | pushFront (job : J)
  | pushBack (job : J)
  | pushCount
  -- `PopFront` and `PopBack`
  | pop (e : End) (allowOpenDependencies : Bool)
  | popTest (e : End) (allowOpenDependencies : Bool)
  | popRead (e : End)
  | popRemove (e : End) (job : J)
  | popCount (job : J)
  -- `Front`
  | front
  | frontRead

namespace LockingDeque
variable {J : Type}

/-- Each operation done at once. -/
def perform (can : J → Bool) (d : LockingDeque J) : LockingOp J → DequeAnswer J × LockingDeque J
  | .deque op => d.apply can op
  | .pushFront job => (.done, d.pushFront job)
  | .front => (.job d.mJobDeque.head?, d)

def members (d : LockingDeque J) : Members J := ⟨d.mJobDeque, d.mSize⟩

/-- `front()`, `back()`, `pop_front()` and `pop_back()` of an empty `std::deque` are
undefined, and so is an index behind its end. -/
def code (J : Type) :
    Monitor.Code (Members J) (LockingOp J) (LockingPc J) (DequeAnswer J) (J → Bool) where
  enter
    | .deque (.pushBack job) => .pushBack job
    | .deque (.popFront allow) => .pop .front allow
    | .deque .popBack => .pop .back false
    | .deque .hasExecutableJobs => .scan 0
    | .deque .size => .size
    | .deque .clear => .clear
    | .pushFront job => .pushFront job
    | .front => .front
  step can
    | .size, m => some (m, .inr (.count m.mSize))
    | .scan i, m => some (m, if i < m.mSize then .inl (.scanTest i) else .inr (.yes false))
    | .scanTest i, m => m.mJobDeque[i]?.map fun job =>
      (m, if can job then .inr (.yes true) else .inl (.scan (i + 1)))
    | .clear, m => some (m, if m.mSize > 0 then .inl .clearPop else .inr .done)
    | .clearPop, m =>
      if m.mJobDeque = [] then none
      else some ({ m with mJobDeque := m.mJobDeque.tail }, .inl .clearCount)
    | .clearCount, m => some ({ m with mSize := m.mSize - 1 }, .inl .clear)
    | .pushFront job, m => some ({ m with mJobDeque := job :: m.mJobDeque }, .inl .pushCount)
    | .pushBack job, m => some ({ m with mJobDeque := m.mJobDeque ++ [job] }, .inl .pushCount)
    | .pushCount, m => some ({ m with mSize := m.mSize + 1 }, .inr .done)
    | .pop e allow, m =>
      some (m, if m.mSize = 0 then .inr (.job none) else .inl (.popTest e allow))
    | .popTest e allow, m =>
      if allow then some (m, .inl (.popRead e))
      else (e.read m.mJobDeque).map fun job =>
        (m, if can job then .inl (.popRead e) else .inr (.job none))
    | .popRead e, m => (e.read m.mJobDeque).map fun job => (m, .inl (.popRemove e job))
    | .popRemove e job, m =>
      if m.mJobDeque = [] then none
      else some ({ m with mJobDeque := e.remove m.mJobDeque }, .inl (.popCount job))
    | .popCount job, m => some ({ m with mSize := m.mSize - 1 }, .inr (.job (some job)))
    | .front, m => some (m, if m.mSize = 0 then .inr (.job none) else .inl .frontRead)
    | .frontRead, m => m.mJobDeque.head?.map fun job => (m, .inr (.job (some job)))

/-- A pop that finds the job at its end in order takes it. -/
theorem perform_take {can : J → Bool} {d : LockingDeque J} {e : End} {allow : Bool} {job : J}
    (strict : e = .back → allow = false) (found : e.read d.mJobDeque = some job)
    (takes : (allow || can job) = true) : ∃ d', d.perform can (e.op allow) = (.job (some job), d') ∧
      d'.mJobDeque = e.remove d.mJobDeque := by
  cases e with
  | front =>
    rcases d.popFront_cases can allow with ⟨_, no⟩ | ⟨j, d', eq, jobs, _⟩
    · exact absurd ((no job found).symm.trans takes) (by simp)
    · obtain rfl : j = job := by simpa [End.read, jobs] using found
      exact ⟨d', by simp [End.op, perform, apply, eq], by rw [jobs]; rfl⟩
  | back =>
    rw [strict rfl, Bool.false_or] at takes
    rcases d.popBack_cases can with ⟨_, no⟩ | ⟨j, d', eq, jobs, _⟩
    · exact absurd ((no job found).symm.trans takes) (by simp)
    · obtain rfl : j = job := by simpa [End.read, jobs] using found
      exact ⟨d', by simp [End.op, perform, apply, eq], by simp [End.remove, jobs]⟩

/-- One that does not leaves the deque alone. -/
theorem perform_refuse {can : J → Bool} {d : LockingDeque J} {e : End} {allow : Bool}
    (strict : e = .back → allow = false)
    (refuses : ∀ job, e.read d.mJobDeque = some job → (allow || can job) = false) :
    d.perform can (e.op allow) = (.job none, d) := by
  cases e with
  | front =>
    rcases d.popFront_cases can allow with ⟨eq, _⟩ | ⟨j, d', _, jobs, takes⟩
    · simp [End.op, perform, apply, eq]
    · exact absurd (takes.symm.trans (refuses j (by simp [End.read, jobs]))) (by simp)
  | back =>
    rcases d.popBack_cases can with ⟨eq, _⟩ | ⟨j, d', _, jobs, takes⟩
    · simp [End.op, perform, apply, eq]
    · have no := refuses j (by simp [End.read, jobs])
      rw [strict rfl, Bool.false_or] at no
      exact absurd (takes.symm.trans no) (by simp)

/-! ### Between two accesses -/

/-- The call takes `job` from its end of the deque, by answers given while it lasted. -/
def Takes (op : LockingOp J) (d : LockingDeque J) (seen : List (J → Bool)) (e : End) (job : J) :
    Prop :=
  e.read d.mJobDeque = some job ∧ ∃ can ∈ seen, ∃ d',
    d.perform can op = (.job (some job), d') ∧ d'.mJobDeque = e.remove d.mJobDeque

theorem Takes.later {op : LockingOp J} {d : LockingDeque J} {seen : List (J → Bool)} {e : End}
    {job : J} (h : Takes op d seen e job) (can : J → Bool) : Takes op d (can :: seen) e job := by
  obtain ⟨found, answers, old, took⟩ := h
  exact ⟨found, answers, List.mem_cons_of_mem _ old, took⟩

theorem Takes.ne_nil {op : LockingOp J} {d : LockingDeque J} {seen : List (J → Bool)} {e : End}
    {job : J} (h : Takes op d seen e job) : d.mJobDeque ≠ [] := by
  intro nil
  have found := h.1
  rw [nil] at found
  cases e <;> cases found

/-- What holds in the middle of a call that began with `d`. -/
def Mid (op : LockingOp J) (d : LockingDeque J) (seen : List (J → Bool)) :
    LockingPc J → Members J → Prop
  | .size, m => m = d.members ∧ op = .deque .size
  | .scan i, m =>
    m = d.members ∧ op = .deque .hasExecutableJobs ∧ Refused seen (d.mJobDeque.take i)
  | .scanTest i, m =>
    m = d.members ∧ op = .deque .hasExecutableJobs ∧ Refused seen (d.mJobDeque.take i) ∧
      i < d.mJobDeque.length
  | .clear, m => m.mSize = m.mJobDeque.length ∧ op = .deque .clear
  | .clearPop, m => m.mSize = m.mJobDeque.length ∧ op = .deque .clear ∧ m.mJobDeque ≠ []
  | .clearCount, m => m.mSize = m.mJobDeque.length + 1 ∧ op = .deque .clear
  | .pushFront job, m => m = d.members ∧ op = .pushFront job
  | .pushBack job, m => m = d.members ∧ op = .deque (.pushBack job)
  | .pushCount, m => m.mSize = d.mSize ∧ ∃ job,
    op = .pushFront job ∧ m.mJobDeque = job :: d.mJobDeque ∨
      op = .deque (.pushBack job) ∧ m.mJobDeque = d.mJobDeque ++ [job]
  | .pop e allow, m => m = d.members ∧ op = e.op allow ∧ (e = .back → allow = false)
  | .popTest e allow, m =>
    m = d.members ∧ op = e.op allow ∧ (e = .back → allow = false) ∧ d.mJobDeque ≠ []
  | .popRead e, m => m = d.members ∧ ∃ job, Takes op d seen e job
  | .popRemove e job, m => m = d.members ∧ Takes op d seen e job
  | .popCount job, m => m.mSize = d.mSize ∧ ∃ e, Takes op d seen e job ∧
    m.mJobDeque = e.remove d.mJobDeque
  | .front, m => m = d.members ∧ op = .front
  | .frontRead, m => m = d.members ∧ op = .front ∧ d.mJobDeque ≠ []

/-- The call did what it does at once, by a blend of the answers it got. -/
def Spec (op : LockingOp J) (d : LockingDeque J) (seen : List (J → Bool)) (answer : DequeAnswer J)
    (d' : LockingDeque J) : Prop :=
  ∃ can, Blend seen can ∧ d.perform can op = (answer, d')

/-- Where a step leads. -/
def Leads (op : LockingOp J) (d : LockingDeque J) (seen : List (J → Bool))
    (r : Option (Members J × (LockingPc J ⊕ DequeAnswer J))) : Prop :=
  ∃ m x, r = some (m, x) ∧ x.elim (fun pc => Mid op d seen pc m)
    (fun answer => ∃ d', Spec op d seen answer d' ∧ m = d'.members)

section
variable {op : LockingOp J} {d d' : LockingDeque J} {seen : List (J → Bool)} {m : Members J}

theorem Leads.on {pc : LockingPc J} (h : Mid op d seen pc m) :
    Leads op d seen (some (m, .inl pc)) := ⟨m, _, rfl, h⟩

theorem Leads.over {answer : DequeAnswer J} {can : J → Bool} (blend : Blend seen can)
    (eq : d.perform can op = (answer, d')) (same : m = d'.members) :
    Leads op d seen (some (m, .inr answer)) := ⟨m, _, rfl, d', ⟨can, blend, eq⟩, same⟩

theorem members_eq (sized : m.mSize = m.mJobDeque.length) (same : m.mJobDeque = d'.mJobDeque) :
    m = d'.members := by
  obtain ⟨jobs, size⟩ := m
  obtain rfl : size = jobs.length := sized
  obtain rfl : jobs = d'.mJobDeque := same
  rw [members, d'.sized]

variable {can : J → Bool}

theorem mid_enter (op : LockingOp J) (d : LockingDeque J) :
    Mid op d [] ((code J).enter op) d.members := by
  cases op with
  | deque op =>
    cases op with
    | hasExecutableJobs => exact ⟨rfl, rfl, fun job inside => by simp at inside⟩
    | clear => exact ⟨d.sized, rfl⟩
    | popFront allow => exact ⟨rfl, rfl, fun back => by cases back⟩
    | popBack => exact ⟨rfl, rfl, fun _ => rfl⟩
    | pushBack job | size => exact ⟨rfl, rfl⟩
  | pushFront job | front => exact ⟨rfl, rfl⟩

/-- The loop of `HasExecutableJobs`. -/
theorem scan_leads {i : Nat} (h : Mid op d seen (.scan i) m) :
    Leads op d (can :: seen) ((code J).step can (.scan i) m) := by
  obtain ⟨rfl, rfl, refused⟩ := h
  have size : d.members.mSize = d.mJobDeque.length := d.sized
  simp only [code, size]
  split
  · rename_i inside
    exact .on ⟨rfl, rfl, refused.later can, inside⟩
  · rename_i outside
    have all : Refused (can :: seen) d.mJobDeque := by
      have := refused.later can
      rwa [List.take_of_length_le (by omega)] at this
    obtain ⟨answers, blend, none⟩ := all.blend (List.mem_cons_self ..)
    rw [← hasExecutableJobs_eq] at none
    exact .over blend (by rw [perform, apply, none]) rfl

theorem scanTest_leads {i : Nat} (h : Mid op d seen (.scanTest i) m) :
    Leads op d (can :: seen) ((code J).step can (.scanTest i) m) := by
  obtain ⟨rfl, rfl, refused, inside⟩ := h
  have found : d.members.mJobDeque[i]? = some d.mJobDeque[i] := List.getElem?_eq_getElem inside
  simp only [code, found, Option.map_some]
  cases yes : can d.mJobDeque[i] with
  | true =>
    have has : d.hasExecutableJobs can = true := by
      rw [hasExecutableJobs_eq, List.any_eq_true]
      exact ⟨_, List.getElem_mem inside, yes⟩
    exact .over (blend_latest can) (by rw [perform, apply, has]) rfl
  | false =>
    refine .on ⟨rfl, rfl, ?_⟩
    rw [List.take_succ_eq_append_getElem inside]
    exact (refused.later can).concat yes

theorem popTest_leads {e : End} {allow : Bool} (h : Mid op d seen (.popTest e allow) m) :
    Leads op d (can :: seen) ((code J).step can (.popTest e allow) m) := by
  obtain ⟨rfl, rfl, strict, filled⟩ := h
  obtain ⟨job, found⟩ : ∃ job, e.read d.mJobDeque = some job := by
    cases e with
    | front => exact ⟨_, List.head?_eq_some_head filled⟩
    | back => exact ⟨_, List.getLast?_eq_some_getLast filled⟩
  have takes (yes : (allow || can job) = true) :
      Takes (e.op allow) d (can :: seen) e job := by
    obtain ⟨d', eq, left⟩ := perform_take strict found yes
    exact ⟨found, can, List.mem_cons_self .., d', eq, left⟩
  have read : e.read d.members.mJobDeque = some job := found
  cases allow with
  | true => exact .on ⟨rfl, job, takes rfl⟩
  | false =>
    simp only [code, Bool.false_eq_true, if_false, read, Option.map_some]
    cases yes : can job with
    | true => exact .on ⟨rfl, job, takes yes⟩
    | false =>
      refine .over (blend_latest can) (perform_refuse strict fun j at_ => ?_) rfl
      obtain rfl : job = j := Option.some.inj (found.symm.trans at_)
      exact yes

theorem step_leads {pc : LockingPc J} (h : Mid op d seen pc m) :
    Leads op d (can :: seen) ((code J).step can pc m) := by
  cases pc with
  | size =>
    obtain ⟨rfl, rfl⟩ := h
    exact .over (blend_latest can) rfl rfl
  | scan i => exact scan_leads h
  | scanTest i => exact scanTest_leads h
  | clear =>
    obtain ⟨sized, rfl⟩ := h
    simp only [code]
    split
    · exact .on ⟨sized, rfl, List.ne_nil_of_length_pos (by omega)⟩
    · have nil : m.mJobDeque = [] := List.eq_nil_of_length_eq_zero (by omega)
      exact .over (blend_latest can) rfl (members_eq sized (by rw [nil, clear_mJobDeque]))
  | clearPop =>
    obtain ⟨sized, rfl, filled⟩ := h
    simp only [code, if_neg filled]
    refine ⟨_, _, rfl, ?_, rfl⟩
    have := List.length_pos_iff.mpr filled
    simp only [List.length_tail]
    omega
  | clearCount =>
    obtain ⟨sized, rfl⟩ := h
    exact ⟨_, _, rfl, by simp [sized], rfl⟩
  | pushFront job =>
    obtain ⟨rfl, rfl⟩ := h
    exact ⟨_, _, rfl, rfl, job, .inl ⟨rfl, rfl⟩⟩
  | pushBack job =>
    obtain ⟨rfl, rfl⟩ := h
    exact ⟨_, _, rfl, rfl, job, .inr ⟨rfl, rfl⟩⟩
  | pushCount =>
    obtain ⟨sized, job, ⟨rfl, jobs⟩ | ⟨rfl, jobs⟩⟩ := h
    · refine .over (blend_latest can) rfl (members_eq ?_ jobs)
      rw [sized, jobs, d.sized]
      rfl
    · refine .over (blend_latest can) rfl (members_eq ?_ jobs)
      rw [sized, jobs, d.sized, List.length_append]
      rfl
  | pop e allow =>
    obtain ⟨rfl, rfl, strict⟩ := h
    have size : d.members.mSize = d.mJobDeque.length := d.sized
    simp only [code, size]
    split
    · rename_i empty
      have nil := List.eq_nil_of_length_eq_zero empty
      refine .over (blend_latest can) (perform_refuse strict fun job found => ?_) rfl
      rw [nil] at found
      cases e <;> cases found
    · rename_i filled
      exact .on ⟨rfl, rfl, strict, fun nil => filled (by rw [nil]; rfl)⟩
  | popTest e allow => exact popTest_leads h
  | popRead e =>
    obtain ⟨rfl, job, takes⟩ := h
    have read : e.read d.members.mJobDeque = some job := takes.1
    simp only [code, read, Option.map_some]
    exact .on ⟨rfl, takes.later can⟩
  | popRemove e job =>
    obtain ⟨rfl, takes⟩ := h
    have filled : d.members.mJobDeque ≠ [] := takes.ne_nil
    simp only [code, if_neg filled]
    exact ⟨_, _, rfl, rfl, e, takes.later can, rfl⟩
  | popCount job =>
    obtain ⟨sized, e, takes, jobs⟩ := h
    have filled := List.length_pos_iff.mpr takes.ne_nil
    obtain ⟨_, answers, old, d', eq, left⟩ := takes
    have blend := blend_of_mem (List.mem_cons_of_mem can old)
    refine .over blend eq (members_eq ?_ (jobs.trans left.symm))
    rw [sized, jobs, d.sized]
    cases e <;> simp [End.remove]
  | front =>
    obtain ⟨rfl, rfl⟩ := h
    have size : d.members.mSize = d.mJobDeque.length := d.sized
    simp only [code, size]
    split
    · rename_i empty
      have nil := List.eq_nil_of_length_eq_zero empty
      exact .over (blend_latest can) (by rw [perform, nil]; rfl) rfl
    · rename_i filled
      exact .on ⟨rfl, rfl, fun nil => filled (by rw [nil]; rfl)⟩
  | frontRead =>
    obtain ⟨rfl, rfl, filled⟩ := h
    have read : d.members.mJobDeque.head? = _ := List.head?_eq_some_head filled
    simp only [code, read, Option.map_some]
    exact .over (blend_latest can) (by rw [perform, List.head?_eq_some_head filled]) rfl

end

variable (J) in
def contract : Monitor.Contract (code J) (LockingDeque J) fun _ _ _ => True where
  Holds m d := m = d.members
  Mid := Mid
  Spec := Spec
  enter := by
    rintro op _ d rfl
    exact mid_enter op d
  step h _ := step_leads h

/-- With every access a step of its own, and any number of threads, `LockingDeque`
does what the functions on its contents do, one call after the other in the order
in which they unlock the mutex: no call is undefined, `mSize` counts the elements
whenever the mutex is free, and each call of a thread is carried out once. -/
theorem atomic {T : Type} [DecidableEq T]
    {s : Monitor.State T (Members J) (LockingOp J) (LockingPc J) (DequeAnswer J) (J → Bool)}
    (h : (Monitor.machine (code J) (empty : LockingDeque J).members).Reachable s) :
    ∃ d : LockingDeque J, (contract J).Serial .empty s.shared.log d ∧
      (s.shared.mutex = none → s.shared.obj = d.members) ∧
      (∀ t op seen pc, s.pc t = .inside op seen pc → s.shared.mutex = some t ∧
        ∀ can, ((code J).step can pc s.shared.obj).isSome) ∧
      ∀ t, s.shared.callsOf t = (s.pc t).pending ++ s.shared.logOf t := by
  have obeys : (Monitor.machine (code J) (empty : LockingDeque J).members).Reach
      (Monitor.Obeys fun _ _ _ => True) s := h.mono fun _ _ _ _ _ _ _ => trivial
  obtain ⟨d, inv⟩ := Monitor.Contract.serial (K := contract J) rfl obeys
  refine ⟨d, inv.serial, inv.free, ?_, Monitor.calls_logged h⟩
  intro t op seen pc here
  obtain ⟨held, defined⟩ := inv.inside here
  exact ⟨held, fun can => defined can trivial⟩

/-- A second thread comes while the first one has pushed its job and not counted it. -/
theorem atomic_two : ∃ s, (Monitor.machine (T := Bool) (code Nat) empty.members).Reachable s ∧
    s.shared.log.map Monitor.Entry.ans = [.job (some 7), .done] ∧
    ∃ d : LockingDeque Nat, s.shared.obj = d.members ∧ d.mJobDeque = [] := by
  let first : Bool × LockingOp Nat × (Nat → Bool) := (false, .pushFront 7, fun _ => true)
  let second : Bool × LockingOp Nat × (Nat → Bool) := (true, .deque .popBack, fun _ => true)
  have run : ((Monitor.machine (code Nat) empty.members).run
      (.replicate 3 first ++ .replicate 1 second ++ .replicate 2 first ++ .replicate 7 second)
      (Monitor.machine (code Nat) empty.members).start).map
        (fun s => (s.shared.log.map Monitor.Entry.ans, s.shared.mutex, s.shared.obj.mJobDeque)) =
      some ([.job (some 7), .done], none, []) := by
    decide +kernel
  obtain ⟨s, hs, same⟩ := Option.map_eq_some_iff.mp run
  simp only [Prod.mk.injEq] at same
  obtain ⟨answers, free, nil⟩ := same
  have reach := Machine.exec_start _ hs
  obtain ⟨d, _, holds, _⟩ := atomic reach
  have eq := holds free
  exact ⟨s, reach, answers, d, eq, by rw [eq] at nil; exact nil⟩

end LockingDeque
end JobStealer
