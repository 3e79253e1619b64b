import JobStealer.Threads

/-!
# Operations under a mutex

An object whose operations take one mutex first and give it back last. In between
an operation reads and writes the object a step at a time, with other threads
moving between any two steps; `Env` is what a step sees beside the object.

A `Contract` is about one operation that nobody interrupts: what holds between its
steps, and what it has done to an abstract object when it is over. `Contract.serial`
says that then the operations of any number of threads, in the order in which they
give the mutex back, are operations on the abstract object one after the other, and
`calls_logged` that each call of a thread is one of them, in the order of its calls.
-/

namespace Interleaving
namespace Monitor

/-- `step` is `none` where the program is undefined, and ends with an answer. -/
structure Code (Obj Op Pc Ans Env : Type) where
  enter : Op → Pc
  step : Env → Pc → Obj → Option (Obj × (Pc ⊕ Ans))

/-- Where a thread stands. `seen` is what the steps taken so far saw, the latest first. -/
inductive Call (Op Pc Ans Env : Type)
  | idle
  | waiting (op : Op)
  | inside (op : Op) (seen : List Env) (pc : Pc)
  | leaving (op : Op) (seen : List Env) (ans : Ans)

/-- An operation that is over. -/
structure Entry (T Op Ans Env : Type) where
  thread : T
  op : Op
  seen : List Env
  ans : Ans

/-- The two lists are no part of the program: the calls begun and the operations that
are over, the latest first. -/
structure Shared (T Obj Op Ans Env : Type) where
  obj : Obj
  mutex : Option T
  calls : List (T × Op)
  log : List (Entry T Op Ans Env)

section
variable {T Obj Op Pc Ans Env : Type} [DecidableEq T] (C : Code Obj Op Pc Ans Env)

/-- The environment chooses which operation a thread calls next. -/
def step (t : T) (choice : Op × Env) :
    Call Op Pc Ans Env → Shared T Obj Op Ans Env →
      Option (Call Op Pc Ans Env × Shared T Obj Op Ans Env)
  | .idle, s => some (.waiting choice.1, { s with calls := (t, choice.1) :: s.calls })
  | .waiting op, s =>
    if s.mutex = none then some (.inside op [] (C.enter op), { s with mutex := some t }) else none
  | .inside op seen pc, s => (C.step choice.2 pc s.obj).map fun r =>
    (r.2.elim (.inside op (choice.2 :: seen)) (.leaving op (choice.2 :: seen)),
      { s with obj := r.1 })
  | .leaving op seen ans, s =>
    some (.idle, { s with mutex := none, log := ⟨t, op, seen, ans⟩ :: s.log })

def threads (obj : Obj) :
    Threads T (fun _ => Call Op Pc Ans Env) (Shared T Obj Op Ans Env) (Op × Env) where
  shared := ⟨obj, none, [], []⟩
  start _ := .idle
  step := step C

abbrev State (T Obj Op Pc Ans Env : Type) :=
  Threads.State (fun _ : T => Call Op Pc Ans Env) (Shared T Obj Op Ans Env)

def machine (obj : Obj) : Machine (State T Obj Op Pc Ans Env) (T × Op × Env) :=
  (threads C obj).machine

/-- Every step taken inside an operation meets `ok`. -/
def Obeys (ok : Env → Pc → Obj → Prop) (s : State T Obj Op Pc Ans Env) (a : T × Op × Env) : Prop :=
  ∀ op seen pc, s.pc a.1 = .inside op seen pc → ok a.2.2 pc s.shared.obj

instance {ok : Env → Pc → Obj → Prop} [∀ env pc d, Decidable (ok env pc d)]
    (s : State T Obj Op Pc Ans Env) (a : T × Op × Env) : Decidable (Obeys ok s a) :=
  match h : s.pc a.1 with
  | .inside op seen pc =>
    decidable_of_iff (ok a.2.2 pc s.shared.obj) ⟨fun allowed op seen pc here => by
      cases h.symm.trans here
      exact allowed, fun all => all op seen pc h⟩
  | .idle | .waiting _ | .leaving _ _ _ =>
    isTrue fun op seen pc here => by cases h.symm.trans here

/-! ## The calls of a thread -/

/-- The operation a thread has called and not come back from. -/
def Call.pending : Call Op Pc Ans Env → List Op
  | .idle => []
  | .waiting op | .inside op _ _ | .leaving op _ _ => [op]

def Shared.callsOf (s : Shared T Obj Op Ans Env) (t : T) : List Op :=
  (s.calls.filter (·.1 = t)).map Prod.snd

def Shared.logOf (s : Shared T Obj Op Ans Env) (t : T) : List Op :=
  (s.log.filter (·.thread = t)).map Entry.op

variable {C}

theorem pending_elim {op : Op} {seen : List Env} (r : Pc ⊕ Ans) :
    (r.elim (.inside op seen) (.leaving op seen) : Call Op Pc Ans Env).pending = [op] := by
  cases r <;> rfl

/-- What a step adds to the calls it adds to what is pending or to the log. -/
theorem step_calls {t u : T} {choice : Op × Env} {call call' : Call Op Pc Ans Env}
    {s s' : Shared T Obj Op Ans Env} (took : step C t choice call s = some (call', s'))
    (h : s.callsOf t = call.pending ++ s.logOf t) :
    s'.callsOf t = call'.pending ++ s'.logOf t ∧
      (u ≠ t → s'.callsOf u = s.callsOf u ∧ s'.logOf u = s.logOf u) := by
  cases call with
  | idle =>
    cases took
    constructor
    · simpa [Shared.callsOf, Shared.logOf, Call.pending] using h
    · intro other
      simp [Shared.callsOf, Shared.logOf, Ne.symm other]
  | waiting op =>
    simp only [step, Option.ite_none_right_eq_some, Option.some.injEq, Prod.mk.injEq] at took
    obtain ⟨_, rfl, rfl⟩ := took
    exact ⟨h, fun _ => ⟨rfl, rfl⟩⟩
  | inside op seen pc =>
    simp only [step, Option.map_eq_some_iff, Prod.mk.injEq] at took
    obtain ⟨r, _, rfl, rfl⟩ := took
    rw [pending_elim]
    exact ⟨h, fun _ => ⟨rfl, rfl⟩⟩
  | leaving op seen ans =>
    cases took
    constructor
    · simpa [Shared.callsOf, Shared.logOf, Call.pending] using h
    · intro other
      simp [Shared.callsOf, Shared.logOf, Ne.symm other]

/-- The calls of a thread are in the log in the order it made them, each once, all
but the one it has not come back from. -/
theorem calls_logged {obj : Obj} {allowed : State T Obj Op Pc Ans Env → T × Op × Env → Prop}
    {s : State T Obj Op Pc Ans Env} (h : (machine C obj).Reach allowed s) (t : T) :
    s.shared.callsOf t = (s.pc t).pending ++ s.shared.logOf t := by
  induction h generalizing t with
  | start => rfl
  | @next s s' a _ _ move ih =>
    obtain ⟨pc, shared, took, rfl⟩ := Threads.step_cases move
    obtain ⟨own, others⟩ := step_calls (u := t) took (ih a.1)
    by_cases here : t = a.1
    · subst here
      rw [s.move_self]
      exact own
    · rw [s.move_other pc shared here]
      obtain ⟨calls, log⟩ := others here
      exact calls.trans ((ih t).trans (by rw [s.move_shared, log]))

/-! ## Contracts -/

variable (C) in
/-- What each operation does to an abstract object, when nobody interrupts it. `Mid`
is what holds between its steps, the abstract object being the one it began with. -/
structure Contract (Abs : Type) (ok : Env → Pc → Obj → Prop) where
  Holds : Obj → Abs → Prop
  Mid : Op → Abs → List Env → Pc → Obj → Prop
  Spec : Op → Abs → List Env → Ans → Abs → Prop
  enter : ∀ {op d a}, Holds d a → Mid op a [] (C.enter op) d
  step : ∀ {op a seen pc d env}, Mid op a seen pc d → ok env pc d →
    ∃ d' r, C.step env pc d = some (d', r) ∧
      r.elim (fun pc' => Mid op a (env :: seen) pc' d')
        (fun ans => ∃ a', Spec op a (env :: seen) ans a' ∧ Holds d' a')

end

namespace Contract
variable {T Obj Op Pc Ans Env Abs : Type} [DecidableEq T] {C : Code Obj Op Pc Ans Env}
  {ok : Env → Pc → Obj → Prop} (K : Contract C Abs ok)

/-- The operations of the log, the earliest first, take the abstract object from
`start` to where it is now. -/
inductive Serial (start : Abs) : List (Entry T Op Ans Env) → Abs → Prop
  | nil : Serial start [] start
  | cons {log : List (Entry T Op Ans Env)} {e : Entry T Op Ans Env} {a b : Abs} :
      Serial start log a → K.Spec e.op a e.seen e.ans b → Serial start (e :: log) b

/-- What is known of a thread; `a` is the abstract object after the log. -/
def Stands (a : Abs) (shared : Shared T Obj Op Ans Env) (t : T) : Call Op Pc Ans Env → Prop
  | .idle | .waiting _ => shared.mutex ≠ some t
  | .inside op seen pc => shared.mutex = some t ∧ K.Mid op a seen pc shared.obj
  | .leaving op seen ans => shared.mutex = some t ∧
    ∃ b, K.Spec op a seen ans b ∧ K.Holds shared.obj b

structure Inv (start : Abs) (s : State T Obj Op Pc Ans Env) (a : Abs) : Prop where
  serial : K.Serial start s.shared.log a
  free : s.shared.mutex = none → K.Holds s.shared.obj a
  stands : ∀ t, K.Stands a s.shared t (s.pc t)

variable {K} {start : Abs}

omit [DecidableEq T] in
/-- A thread outside does not notice what the one inside does. -/
theorem Stands.outside {a b : Abs} {shared shared' : Shared T Obj Op Ans Env} {t u : T}
    {call : Call Op Pc Ans Env} (other : u ≠ t) (held : shared.mutex = some t)
    (mutex : shared'.mutex ≠ some u) (h : K.Stands a shared u call) :
    K.Stands b shared' u call := by
  cases call with
  | idle | waiting op => exact mutex
  | inside op seen pc | leaving op seen ans =>
    exact absurd (Option.some.inj (h.1.symm.trans held)) other

theorem step_inv {s s' : State T Obj Op Pc Ans Env} {obj : Obj} {x : T × Op × Env} {a : Abs}
    (inv : K.Inv start s a) (allowed : Obeys ok s x) (move : (machine C obj).step x s = some s') :
    ∃ b, K.Inv start s' b := by
  obtain ⟨pc, shared, took, rfl⟩ := Threads.step_cases move
  obtain ⟨t, choice⟩ := x
  have here := inv.stands t
  have others {b : Abs} (same : ∀ u, u ≠ t → K.Stands b shared u (s.pc u))
      (own : K.Stands b shared t pc) (u : T) :
      K.Stands b shared u ((s.move t pc shared).pc u) :=
    s.move_forall (Q := fun u => K.Stands b shared u) pc shared same own u
  dsimp only [threads] at took
  generalize at_ : s.pc t = call at took here
  cases call with
  | idle =>
    cases took
    exact ⟨a, inv.serial, inv.free, others (fun u _ => inv.stands u) here⟩
  | waiting op =>
    simp only [Monitor.step, Option.ite_none_right_eq_some, Option.some.injEq,
      Prod.mk.injEq] at took
    obtain ⟨free, rfl, rfl⟩ := took
    refine ⟨a, inv.serial, fun none => (by cases none), others ?_ ⟨rfl, K.enter (inv.free free)⟩⟩
    intro u other
    have stands := inv.stands u
    cases call : s.pc u with
    | idle | waiting op => exact fun mine => other (Option.some.inj mine).symm
    | inside op seen pc | leaving op seen ans =>
      rw [call] at stands
      cases free.symm.trans stands.1
  | inside op seen pc =>
    obtain ⟨held, mid⟩ := here
    obtain ⟨d, r, next, after⟩ := K.step mid (allowed op seen pc at_)
    simp only [Monitor.step, next, Option.map_some, Option.some.injEq, Prod.mk.injEq] at took
    obtain ⟨rfl, rfl⟩ := took
    refine ⟨a, inv.serial, fun none => (by cases held.symm.trans none), others ?_ ?_⟩
    · intro u other
      exact (inv.stands u).outside other held fun mine =>
        other (Option.some.inj (mine.symm.trans held))
    · cases r with
      | inl pc => exact ⟨held, after⟩
      | inr ans => exact ⟨held, after⟩
  | leaving op seen ans =>
    obtain ⟨held, b, spec, holds⟩ := here
    cases took
    refine ⟨b, inv.serial.cons spec, fun _ => holds, others ?_ (by simp [Stands])⟩
    intro u other
    exact (inv.stands u).outside other held (by simp)

omit [DecidableEq T] in
/-- No two threads are inside, and whoever is can go on. -/
theorem Inv.inside {s : State T Obj Op Pc Ans Env} {a : Abs} (inv : K.Inv start s a) {t : T}
    {op : Op} {seen : List Env} {pc : Pc} (here : s.pc t = .inside op seen pc) :
    s.shared.mutex = some t ∧
      ∀ env, ok env pc s.shared.obj → (C.step env pc s.shared.obj).isSome := by
  have stands := inv.stands t
  rw [here] at stands
  refine ⟨stands.1, fun env allowed => ?_⟩
  obtain ⟨d, r, next, _⟩ := K.step stands.2 allowed
  rw [next]
  rfl

/-- In every interleaving the operations that are over are operations on the abstract
object one after the other. -/
theorem serial {obj : Obj} (begins : K.Holds obj start) {s : State T Obj Op Pc Ans Env}
    (h : (machine C obj).Reach (Obeys ok) s) : ∃ a, K.Inv start s a := by
  induction h with
  | start => exact ⟨start, .nil, fun _ => begins, 
    fun _ => nofun⟩
  | next _ allowed move ih =>
    obtain ⟨a, inv⟩ := ih
    exact step_inv inv allowed move

end Contract
end Monitor
end Interleaving
