import JobStealer.Conservation

/-!
# The flags of the workers

Each flag is stored by one thread, but for `mJobRunning`, which `ShutDown` lowers
from outside. What the code of that thread stores is what the flag holds:
`mJobRunning` from `raiseFlag` to `lowerFlag` while nobody shuts down
(`raised_eq`), never outside that stretch in any run (`raised_of_flag`).
-/

namespace JobStealer
open Interleaving

variable {n N : Nat}

namespace WorkerPc

/-- Between the two stores to `mJobRunning`. -/
def raised : WorkerPc n N → Bool
  | ownSize | ownPop _ | ownCheck _ | ownPushBack _ | ownSizeAgain | ownPopAgain | steal
  | stealRandom | stealPop _ | execute _ | executing _ _ | checkFinished _ | lowerFlag => true
  | _ => false

/-- `Run` has returned. -/
def gone : WorkerPc n N → Bool
  | left => true
  | _ => false

end WorkerPc

/-- After the constructor of the `JobSystem`. -/
def MainPc.constructed : MainPc N → Bool
  | construct _ => false
  | _ => true

/-- The constructor of the `JobSystem` has passed worker `w`. -/
def MainPc.introduced (w : Fin N) : MainPc N → Bool
  | construct i => w < i
  | _ => true

section Code
variable (c : Config n N)

theorem Worker.code_raised (w : Fin N) (pc : WorkerPc n N) :
    (Worker.code c w pc).Tracks (.mJobRunning w) WorkerPc.raised pc.raised := by
  cases pc <;> grind [Worker.code, Instr.Tracks, Instr.All, WorkerPc.raised]

theorem Worker.code_gone (w : Fin N) (pc : WorkerPc n N) :
    (Worker.code c w pc).Tracks (.ended (.worker w)) WorkerPc.gone pc.gone := by
  cases pc <;> grind [Worker.code, Instr.Tracks, Instr.All, WorkerPc.gone]

theorem Main.code_constructed (pc : MainPc N) :
    (Main.code pc : Instr n N _).Tracks .created MainPc.constructed pc.constructed := by
  cases pc <;> grind [Main.code, Instr.Tracks, Instr.All, MainPc.constructed]

theorem Main.code_introduced (w : Fin N) (pc : MainPc N) :
    (Main.code pc : Instr n N _).Tracks (.JobSystem w) (MainPc.introduced w) (pc.introduced w) := by
  cases pc <;> grind [Main.code, Instr.Tracks, Instr.All, MainPc.introduced]

theorem Worker.code_leaves {w : Fin N} {f : Flag N} (running : f ≠ .mJobRunning w)
    (ended : f ≠ .ended (.worker w)) (pc : WorkerPc n N) : (Worker.code c w pc).Leaves f := by
  cases pc <;> grind [Worker.code, Instr.Leaves]

theorem Runner.code_leaves {f : Flag N} (ended : f ≠ .ended .runner) (pc : RunnerPc n N) :
    (Runner.code c pc).Leaves f := by
  cases pc with
  | addJob jobs later => cases jobs <;> grind [Runner.code, Runner.push, Instr.Leaves]
  | _ => grind [Runner.code, Instr.Leaves]

theorem Main.code_leaves {f : Flag N} (created : f ≠ .created) (system : ∀ w, f ≠ .JobSystem w)
    {pc : MainPc N} (serving : pc.serving = true) : (Main.code pc : Instr n N _).Leaves f := by
  cases pc <;> grind [Main.code, Instr.Leaves, MainPc.serving]

theorem Main.code_leaves_ended (t : Thread N) (pc : MainPc N) :
    (Main.code pc : Instr n N _).Leaves (.ended t) := by
  cases pc <;> grind [Main.code, Instr.Leaves]

/-- `ShutDown` only lowers the flags of workers. -/
theorem Main.code_lowers {w : Fin N} {b : Bool} {pc next : MainPc N}
    (h : (Main.code pc : Instr n N _) = .store (.mJobRunning w) b next) :
    pc = .lowerFlag w ∧ b = false := by
  cases pc <;> grind [Main.code]

end Code

namespace System
variable {c : Config n N} {ok : State c → Action N → Prop} {s : State c}

/-- A flag that one thread stores holds what that thread's program point says. -/
theorem tracked {t : Thread N} {f : Flag N} {a : Pc n N t → Bool}
    (start : f.initial = a ((threads c).start t))
    (own : ∀ pc, (code c t pc).Tracks f a (a pc))
    (others : ∀ s, (machine c).Reach ok s → ∀ u, u ≠ t → (code c u (s.pc u)).Leaves f)
    (h : (machine c).Reach ok s) : s.shared.flag f = a (s.pc t) := by
  induction h with
  | start => exact start
  | @next s s' act run _ move ih =>
    obtain ⟨pc, shared, took, rfl⟩ := step_cases move
    obtain ⟨u, random⟩ := act
    by_cases here : u = t
    · subst here
      rw [s.move_self]
      rcases (own _).exec took with now | ⟨flag, same⟩
      · exact now
      · exact (flag.trans ih).trans same.symm
    · rw [s.move_other pc shared (Ne.symm here)]
      exact ((others s run u here).exec took).trans ih

/-- A flag nobody stores. -/
theorem untouched {f : Flag N}
    (leaves : ∀ s, (machine c).Reach ok s → ∀ t, (code c t (s.pc t)).Leaves f)
    (h : (machine c).Reach ok s) : s.shared.flag f = f.initial := by
  induction h with
  | start => rfl
  | @next s s' a run _ move ih =>
    obtain ⟨pc, shared, took, rfl⟩ := step_cases move
    exact ((leaves s run a.1).exec took).trans ih

theorem raised_eq (h : (machine c).Reach noShutDown s) (w : Fin N) :
    s.shared.flag (.mJobRunning w) = WorkerPc.raised (s.pc (.worker w)) := by
  refine tracked (t := .worker w) rfl (Worker.code_raised c w) ?_ h
  intro s run u other
  cases u with
  | worker v =>
    have apart : w ≠ v := fun same => other (by rw [same])
    exact Worker.code_leaves c (by simpa using apart) (by simp) _
  | runner => exact Runner.code_leaves c (by simp) _
  | main => exact Main.code_leaves (by simp) (by simp) (serving_of_noShutDown run)

theorem mRunning_eq (h : (machine c).Reach noShutDown s) (w : Fin N) :
    s.shared.flag (.mRunning w) = true := by
  refine untouched ?_ h
  intro s run t
  cases t with
  | worker v => exact Worker.code_leaves c (by simp) (by simp) _
  | runner => exact Runner.code_leaves c (by simp) _
  | main => exact Main.code_leaves (by simp) (by simp) (serving_of_noShutDown run)

theorem created_eq (h : (machine c).Reach ok s) :
    s.shared.flag .created = MainPc.constructed (s.pc .main) := by
  refine tracked (t := .main) rfl Main.code_constructed ?_ h
  intro s run u other
  cases u with
  | worker v => exact Worker.code_leaves c (by simp) (by simp) _
  | runner => exact Runner.code_leaves c (by simp) _
  | main => exact absurd rfl other

theorem JobSystem_eq (h : (machine c).Reach ok s) (w : Fin N) :
    s.shared.flag (.JobSystem w) = MainPc.introduced w (s.pc .main) := by
  refine tracked (t := .main) (by simp [Flag.initial, threads, MainPc.introduced])
    (Main.code_introduced w) ?_ h
  intro s run u other
  cases u with
  | worker v => exact Worker.code_leaves c (by simp) (by simp) _
  | runner => exact Runner.code_leaves c (by simp) _
  | main => exact absurd rfl other

theorem ended_eq (h : (machine c).Reach ok s) (w : Fin N) :
    s.shared.flag (.ended (.worker w)) = WorkerPc.gone (s.pc (.worker w)) := by
  refine tracked (t := .worker w) rfl (Worker.code_gone c w) ?_ h
  intro s run u other
  cases u with
  | worker v =>
    have apart : w ≠ v := fun same => other (by rw [same])
    exact Worker.code_leaves c (by simp) (by simpa using apart) _
  | runner => exact Runner.code_leaves c (by simp) _
  | main => exact Main.code_leaves_ended _ _

/-- Of the other threads only `ShutDown` stores to the flag of worker `w`. -/
theorem exec_mJobRunning {w : Fin N} {t : Thread N} (other : t ≠ .worker w) {random : Nat}
    {pc : Pc n N t} {shared : Shared c.graph N}
    (took : (code c t (s.pc t)).exec t random s.shared = some (pc, shared)) :
    shared.flag (.mJobRunning w) = s.shared.flag (.mJobRunning w) ∨
      (t = .main ∧ s.pc .main = .lowerFlag w ∧ shared.flag (.mJobRunning w) = false) := by
  cases t with
  | worker v =>
    have apart : w ≠ v := fun same => other (by rw [same])
    exact .inl ((Worker.code_leaves c (by simpa using apart) (by simp) _).exec took)
  | runner => exact .inl ((Runner.code_leaves c (by simp) _).exec took)
  | main =>
    rcases Instr.exec_flag took with same | ⟨f, b, store, eq⟩
    · exact .inl (congrFun same _)
    · by_cases stored : f = .mJobRunning w
      · subst stored
        obtain ⟨here, rfl⟩ := Main.code_lowers store
        exact .inr ⟨rfl, here, by rw [eq, Function.update_self]⟩
      · exact .inl (by rw [eq, Function.update_of_ne (Ne.symm stored)])

/-- Whoever lowers it, the flag is never up outside the stretch where the worker
raised it itself. -/
theorem raised_of_flag (h : (machine c).Reach ok s) (w : Fin N)
    (flag : s.shared.flag (.mJobRunning w) = true) :
    WorkerPc.raised (s.pc (.worker w)) = true := by
  induction h with
  | start => cases flag
  | @next s s' a run _ move ih =>
    obtain ⟨pc, shared, took, rfl⟩ := step_cases move
    obtain ⟨u, random⟩ := a
    rw [s.move_shared] at flag
    by_cases here : u = .worker w
    · subst here
      rw [s.move_self]
      rcases (Worker.code_raised c w _).exec took with now | ⟨before, same⟩
      · exact now.symm.trans flag
      · exact same.trans (ih (before.symm.trans flag))
    · rw [s.move_other pc shared (Ne.symm here)]
      rcases exec_mJobRunning here took with same | ⟨_, _, lowered⟩
      · exact ih (same.symm.trans flag)
      · exact absurd (lowered.symm.trans flag) (by simp)

end System
end JobStealer
