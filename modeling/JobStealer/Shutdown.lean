import JobStealer.Flags

/-!
# What `ShutDown` leaves behind

`ShutDown` clears the deque of a worker and joins its thread, one worker after
the other. A joined worker has lowered its flag for good, and a cleared deque
stays empty until somebody pushes: `quiescent` says that the system is idle after
`ShutDown` as long as nobody pushes onto a deque that was cleared.

Two pushes can: the runner may still be adding jobs (`refilled`), and a worker
that holds a job for re-ordering puts it back.
-/

namespace JobStealer
open Interleaving

variable {n N : Nat}

namespace MainPc

/-- `ShutDown` has cleared the deque of worker `w`. -/
def cleared (w : Fin N) : MainPc N → Bool
  | shutDown i => w < i
  | lowerFlag i | clear i => w < i
  | lock i | notify i | unlock i | join i => w ≤ i
  | joinRunner | left => true
  | _ => false

/-- `ShutDown` has joined worker `w`. -/
def joined (w : Fin N) : MainPc N → Bool
  | shutDown i => w < i
  | lowerFlag i | clear i | lock i | notify i | unlock i | join i => w < i
  | joinRunner | left => true
  | _ => false

/-- `ShutDown` has returned. -/
def down : MainPc N → Bool
  | joinRunner | left => true
  | _ => false

theorem cleared_of_down {pc : MainPc N} (h : pc.down = true) (w : Fin N) : pc.cleared w = true := by
  cases pc with
  | joinRunner | left => rfl
  | _ => cases h

theorem joined_of_down {pc : MainPc N} (h : pc.down = true) (w : Fin N) : pc.joined w = true := by
  cases pc with
  | joinRunner | left => rfl
  | _ => cases h

end MainPc

/-- What `JobSystem::AllJobsFinished` answers if nobody else moves. -/
def Shared.allJobsFinished {g : Graph n} (s : Shared g N) : Bool :=
  (List.finRange N).all fun i => !((s.mJobDeque i).size > 0 || s.flag (.mJobRunning i))

section Code

/-- Only the `Clear` of a deque gets `ShutDown` past it. -/
theorem Main.code_cleared (w : Fin N) (pc : MainPc N) : pc = .clear w ∨
    (Main.code pc : Instr n N _).All fun next => next.cleared w = true → pc.cleared w = true := by
  cases pc with
  | clear i =>
    by_cases here : i = w
    · exact .inl (by rw [here])
    · right
      intro passed
      have le : w ≤ i := by simpa [MainPc.cleared] using passed
      simpa [MainPc.cleared] using lt_of_le_of_ne le (Ne.symm here)
  | _ => grind [Main.code, Instr.All, MainPc.cleared]

/-- Only the `join` of a thread gets `ShutDown` past it. -/
theorem Main.code_joined (w : Fin N) (pc : MainPc N) : pc = .join w ∨
    (Main.code pc : Instr n N _).All fun next => next.joined w = true → pc.joined w = true := by
  cases pc with
  | join i =>
    by_cases here : i = w
    · exact .inl (by rw [here])
    · right
      intro passed
      have le : w.val < i + 1 := by simpa [MainPc.joined] using passed
      have apart : i.val ≠ w.val := fun same => here (Fin.ext same)
      simp only [MainPc.joined, decide_eq_true_eq, Fin.lt_def]
      omega
  | _ => grind [Main.code, Instr.All, MainPc.joined]

theorem Worker.left_of_gone {pc : WorkerPc n N} (h : pc.gone = true) : pc = .left := by
  cases pc with
  | left => rfl
  | _ => cases h

end Code

namespace System
variable {c : Config n N} {s : State c}

/-- Nobody pushes onto a deque that `ShutDown` has cleared. -/
def leavesCleared (s : State c) (a : Action N) : Prop :=
  ∀ w, (code c a.1 (s.pc a.1)).pushes w = true → MainPc.cleared w (s.pc .main) = false

instance (s : State c) (a : Action N) : Decidable (leavesCleared s a) :=
  inferInstanceAs (Decidable (∀ _, _))

theorem cleared_empty (h : (machine c).Reach leavesCleared s) (w : Fin N)
    (passed : MainPc.cleared w (s.pc .main) = true) : (s.shared.mJobDeque w).mJobDeque = [] := by
  induction h with
  | start => cases passed
  | @next s s' a _ ok move ih =>
    obtain ⟨pc, shared, took, rfl⟩ := step_cases move
    have keeps (old : MainPc.cleared w (s.pc .main) = true) :
        (shared.mJobDeque w).mJobDeque = [] := by
      refine Instr.exec_empty ?_ (ih old) took
      by_contra pushed
      exact absurd (ok w ((Bool.not_eq_false _).mp pushed)) (by simp [old])
    obtain ⟨t, random⟩ := a
    cases t with
    | worker v | runner =>
      rw [s.move_other pc shared (by simp)] at passed
      exact keeps passed
    | main =>
      rw [s.move_self] at passed
      cases Main.code_cleared (n := n) w (s.pc .main) with
      | inl here =>
        rw [code, here] at took
        cases took
        simp
      | inr all => exact keeps (all.exec took passed)

theorem joined_gone {ok : State c → Action N → Prop} (h : (machine c).Reach ok s) (w : Fin N)
    (passed : MainPc.joined w (s.pc .main) = true) :
    WorkerPc.gone (s.pc (.worker w)) = true := by
  induction h with
  | start => cases passed
  | @next s s' a run _ move ih =>
    obtain ⟨pc, shared, took, rfl⟩ := step_cases move
    obtain ⟨t, random⟩ := a
    cases t with
    | worker v =>
      rw [s.move_other pc shared (by simp)] at passed
      have gone := ih passed
      by_cases here : v = w
      · subst here
        -- a thread that has returned takes no step
        rw [code, Worker.left_of_gone gone] at took
        cases took
      · rwa [s.move_other pc shared (by simpa using Ne.symm here)]
    | runner =>
      rw [s.move_other pc shared (by simp)] at passed
      rw [s.move_other pc shared (by simp)]
      exact ih passed
    | main =>
      rw [s.move_self] at passed
      rw [s.move_other pc shared (by simp)]
      cases Main.code_joined (n := n) w (s.pc .main) with
      | inl here =>
        rw [code, here] at took
        obtain ⟨ended, _, _⟩ := Instr.exec_await took
        exact (ended_eq run w).symm.trans ended
      | inr all => exact ih (all.exec took passed)

/-- After `ShutDown` every deque is empty and every flag is down, if nobody
pushed onto a deque after it was cleared. -/
theorem quiescent (h : (machine c).Reach leavesCleared s)
    (down : MainPc.down (s.pc .main) = true) :
    (∀ w, (s.shared.mJobDeque w).mJobDeque = [] ∧ s.shared.flag (.mJobRunning w) = false) ∧
      s.shared.allJobsFinished = true := by
  have empty (w : Fin N) : (s.shared.mJobDeque w).mJobDeque = [] :=
    cleared_empty h w (MainPc.cleared_of_down down w)
  have lowered (w : Fin N) : s.shared.flag (.mJobRunning w) = false := by
    by_contra up
    have raised := raised_of_flag h w ((Bool.not_eq_false _).mp up)
    have gone := joined_gone h w (MainPc.joined_of_down down w)
    rw [Worker.left_of_gone gone] at raised
    cases raised
  refine ⟨fun w => ⟨empty w, lowered w⟩, ?_⟩
  simp [Shared.allJobsFinished, LockingDeque.size_eq, empty, lowered]

theorem quiescent_pair : ∃ s, (machine pairConfig).Reach leavesCleared s ∧
    MainPc.down (s.pc .main) = true ∧ s.shared.allJobsFinished = true := by
  have run : ((machine pairConfig).exec leavesCleared
      (steps 3 .main ++ steps 7 .runner ++ steps 8 .main ++ steps 2 (.worker 0) ++ steps 7 .main ++
        steps 2 (.worker 1) ++ steps 2 .main)
      (machine pairConfig).start).map (fun s => MainPc.down (s.pc .main)) = some true := by
    decide +kernel
  obtain ⟨s, hs, down⟩ := Option.map_eq_some_iff.mp run
  have reach := Machine.exec_start _ hs
  exact ⟨s, reach, down, (quiescent reach down).2⟩

/-- One worker and one job. -/
def soloConfig : Config 1 1 where
  graph := ⟨![[]], by decide⟩
  frames := [[0]]
  once := by decide
  together := by decide
  workers := by decide
  usingLockless := true
  waitForAvailableJobs := true

/-- The runner adds its only job after `ShutDown` has joined the worker. -/
def refillRun : List (Action 1) :=
  steps 2 .main ++ steps 2 .runner ++ steps 8 .main ++ steps 2 (.worker 0) ++ steps 2 .main ++
  steps 5 .runner

/-- `ShutDown` has returned, no `AddJob` is left, and `AllJobsFinished()` will
answer false forever. -/
theorem refilled : ∃ s, (machine soloConfig).Reachable s ∧ MainPc.down (s.pc .main) = true ∧
    s.pc .runner = .scanSize 0 ⟨0, []⟩ ∧ (s.shared.mJobDeque 0).mJobDeque = [0] ∧
    s.shared.allJobsFinished = false := by
  have run : ((machine soloConfig).run refillRun (machine soloConfig).start).map
      (fun s => (MainPc.down (s.pc .main), s.pc .runner, (s.shared.mJobDeque 0).mJobDeque,
        s.shared.allJobsFinished)) = some (true, .scanSize 0 ⟨0, []⟩, [0], false) := by
    decide +kernel
  obtain ⟨s, hs, same⟩ := Option.map_eq_some_iff.mp run
  simp only [Prod.mk.injEq] at same
  exact ⟨s, Machine.exec_start _ hs, same⟩

end System
end JobStealer
