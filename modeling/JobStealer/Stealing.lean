import JobStealer.DequeRaces

/-!
# Nobody but thieves

The owner of a deque is asleep and nobody pushes to it, while thieves call
`PopBack` as often as they like. Then `mBack` only decreases. A thief's copy of
it is never below it, and where the two are equal the slot under them is the one
the thief has read: its `compare_exchange` takes exactly what it returns.
-/

namespace JobStealer
open Interleaving

variable {J T : Type}

/-- Any indices in order with a job in each slot between them. -/
structure LocklessDeque.WellFormed (d : LocklessDeque J) : Prop where
  order : d.mFront ≤ d.mBack
  filled : ∀ i, d.mFront ≤ i → i < d.mBack → ∃ job, d.mEntries i = some job

namespace Stealing

/-- The jobs handed out so far, the latest first. -/
def returned : List (DequeEvent J) → List J
  | [] => []
  | .pushed _ :: log => returned log
  | .returned job :: log => job :: returned log

/-- What a thief may hold, `d` being the deque it found and `back` its `mBack` now. -/
def Snapshot (d : LocklessDeque J) (now : Nat) : PopBackPc J → Prop
  | .idle => True
  | .loadFront back => now ≤ back ∧ back ≤ d.mBack
  | .readSlot back => d.mFront < back ∧ now ≤ back ∧ back ≤ d.mBack
  | .test back job | .exchange back job =>
    d.mFront < back ∧ now ≤ back ∧ back ≤ d.mBack ∧ d.mEntries (back - 1) = some job

theorem Snapshot.mono {d : LocklessDeque J} {now later : Nat} (less : later ≤ now)
    {pc : PopBackPc J} (h : Snapshot d now pc) : Snapshot d later pc := by
  cases pc with
  | idle => trivial
  | loadFront back => exact ⟨less.trans h.1, h.2⟩
  | readSlot back | test back job | exchange back job => exact ⟨h.1, less.trans h.2.1, h.2.2⟩

/-- The slots from the back of the deque now up to its first one are those
handed out. -/
structure Stolen (d : LocklessDeque J) (s : Races.State J T) : Prop where
  front : s.deque.mFront = d.mFront
  entries : s.deque.mEntries = d.mEntries
  order : d.mFront ≤ s.deque.mBack
  back : s.deque.mBack ≤ d.mBack
  taken : (returned s.log).map some =
    (List.range' s.deque.mBack (d.mBack - s.deque.mBack)).map d.mEntries
  thieves : ∀ t, Snapshot d s.deque.mBack (s.thief t)

variable (T) in
/-- The deque `d`, its owner asleep and no thief at work. -/
def asleep (d : LocklessDeque J) (can : J → Bool) : Races.State J T :=
  ⟨d, can, .idle, fun _ => .idle, []⟩

/-- Only thieves move; a job may become executable, or cease to be, at any time. -/
def thievesOnly (_ : Races.State J T) : Races.Action J T → Prop
  | .thief _ | .answer _ _ => True
  | .runnerPush _ | .ownerPush _ | .ownerPop _ | .owner => False

instance (s : Races.State J T) (a : Races.Action J T) : Decidable (thievesOnly s a) :=
  match a with
  | .thief _ | .answer _ _ => .isTrue trivial
  | .runnerPush _ | .ownerPush _ | .ownerPop _ | .owner => .isFalse id

variable {d : LocklessDeque J} {can : J → Bool} {s s' : Races.State J T}

theorem asleep_stolen (h : d.WellFormed) : Stolen d (asleep T d can) where
  front := rfl
  entries := rfl
  order := h.order
  back := Nat.le_refl _
  taken := by simp [asleep, returned]
  thieves _ := trivial

/-- What was handed out is a tail of what the deque held. -/
theorem Stolen.sublist (h : Stolen d s) : ((returned s.log).map some).Sublist d.content := by
  have order := h.order
  have back := h.back
  have split : List.range' d.mFront (d.mBack - d.mFront) =
      List.range' d.mFront (s.deque.mBack - d.mFront) ++
        List.range' s.deque.mBack (d.mBack - s.deque.mBack) := by
    have := @List.range'_append d.mFront (s.deque.mBack - d.mFront) (d.mBack - s.deque.mBack) 1
    rw [show d.mFront + 1 * (s.deque.mBack - d.mFront) = s.deque.mBack by omega,
      show s.deque.mBack - d.mFront + (d.mBack - s.deque.mBack) = d.mBack - d.mFront by omega]
      at this
    exact this.symm
  rw [h.taken, LocklessDeque.content, split, List.map_append]
  exact List.sublist_append_right ..

variable [DecidableEq T]

/-- A step of a thief that leaves the deque alone. -/
theorem Stolen.look (h : Stolen d s) {t : T} {pc : PopBackPc J}
    (seen : Snapshot d s.deque.mBack pc) :
    Stolen d { s with thief := Function.update s.thief t pc } := by
  refine ⟨h.front, h.entries, h.order, h.back, h.taken, ?_⟩
  intro u
  dsimp only
  by_cases same : u = t
  · subst same
    rwa [Function.update_self]
  · rw [Function.update_of_ne same]
    exact h.thieves u

/-- The exchange that succeeds: `mBack` is what this thief loaded. -/
theorem Stolen.take (h : Stolen d s) {t : T} {job : J} (inside : d.mFront < s.deque.mBack)
    (slot : d.mEntries (s.deque.mBack - 1) = some job) :
    Stolen d { s with
      deque := { s.deque with mBack := s.deque.mBack - 1 }
      thief := Function.update s.thief t .idle
      log := .returned job :: s.log } := by
  have back := h.back
  refine ⟨h.front, h.entries, Nat.le_pred_of_lt inside, (Nat.pred_le _).trans back, ?_, ?_⟩
  · have room : d.mBack - (s.deque.mBack - 1) = d.mBack - s.deque.mBack + 1 := by omega
    have next : s.deque.mBack - 1 + 1 = s.deque.mBack := by omega
    simp only [returned, List.map_cons, room, List.range'_succ, next, slot, h.taken]
  · intro u
    by_cases same : u = t
    · subst same
      simp [Snapshot]
    · simpa [Function.update_of_ne same] using (h.thieves u).mono (Nat.pred_le _)

variable [DecidableEq J]

theorem Stolen.step_thief (h : Stolen d s) {t : T} (move : Races.step (.thief t) s = some s') :
    Stolen d s' ∧ (s'.deque = s.deque ∧ s'.log = s.log ∨
      ∃ job, s'.log = .returned job :: s.log ∧ s'.thief t = .idle) := by
  have seen := h.thieves t
  simp only [Races.step, Option.map_eq_some_iff] at move
  obtain ⟨⟨e, pc, job⟩, move, rfl⟩ := move
  generalize hpc : s.thief t = now at move seen
  cases now with
  | idle =>
    cases move
    exact ⟨h.look ⟨Nat.le_refl _, h.back⟩, .inl ⟨rfl, rfl⟩⟩
  | loadFront back =>
    cases move
    refine ⟨h.look ?_, .inl ⟨rfl, rfl⟩⟩
    split
    · rename_i inside
      rw [h.front] at inside
      exact ⟨inside.1, seen⟩
    · trivial
  | readSlot back =>
    simp only [LocklessDeque.stepBack, Option.map_eq_some_iff, Prod.mk.injEq] at move
    obtain ⟨job, slot, rfl, rfl, rfl⟩ := move
    rw [h.entries] at slot
    exact ⟨h.look ⟨seen.1, seen.2.1, seen.2.2, slot⟩, .inl ⟨rfl, rfl⟩⟩
  | test back job =>
    cases move
    refine ⟨h.look ?_, .inl ⟨rfl, rfl⟩⟩
    split
    · exact seen
    · trivial
  | exchange back job =>
    simp only [LocklessDeque.stepBack] at move
    split at move
    · rename_i same
      subst same
      cases move
      exact ⟨h.take seen.1 seen.2.2.2, .inr ⟨job, rfl, Function.update_self ..⟩⟩
    · cases move
      exact ⟨h.look trivial, .inl ⟨rfl, rfl⟩⟩

theorem reach_stolen (ok : d.WellFormed)
    (h : ((Races.machine J T).after (asleep T d can)).Reach thievesOnly s) : Stolen d s := by
  apply h.invariant (I := Stolen d) (asleep_stolen ok)
  intro s s' a _ ih allowed move
  cases a with
  | answer job b =>
    cases move
    exact ⟨ih.front, ih.entries, ih.order, ih.back, ih.taken, ih.thieves⟩
  | thief t => exact (ih.step_thief move).1
  | runnerPush job | ownerPush job | ownerPop allow | owner => exact allowed.elim

/-- No thief ever comes to a slot that was not filled. -/
theorem thief_moves (ok : d.WellFormed)
    (h : ((Races.machine J T).after (asleep T d can)).Reach thievesOnly s) (t : T) :
    ∃ s', Races.step (.thief t) s = some s' := by
  have stolen := reach_stolen ok h
  have seen := stolen.thieves t
  generalize hpc : s.thief t = now at seen
  cases now with
  | idle | loadFront back | test back job => exact ⟨_, by rw [Races.step, hpc]; rfl⟩
  | readSlot back =>
    obtain ⟨job, slot⟩ := ok.filled (back - 1) (Nat.le_pred_of_lt seen.1) (by
      have := seen.1
      have := seen.2.2
      omega)
    rw [← stolen.entries] at slot
    exact ⟨_, by rw [Races.step, hpc, LocklessDeque.stepBack, slot]; rfl⟩
  | exchange back job =>
    by_cases same : s.deque.mBack = back
    · exact ⟨_, by rw [Races.step, hpc, LocklessDeque.stepBack, if_pos same]; rfl⟩
    · exact ⟨_, by rw [Races.step, hpc, LocklessDeque.stepBack, if_neg same]; rfl⟩

/-- Thieves alone share out the slots from the back of the deque, each slot to
one call: what they returned is what lay between `mBack` now and `mBack` at the
start, and the rest is untouched. A call changes the deque with its last step,
returning a job, or not at all. -/
theorem stealing_exact (ok : d.WellFormed)
    (h : ((Races.machine J T).after (asleep T d can)).Reach thievesOnly s) :
    (s.deque.mFront = d.mFront ∧ s.deque.mFront ≤ s.deque.mBack ∧ s.deque.mBack ≤ d.mBack) ∧
    (returned s.log).map some =
      (List.range' s.deque.mBack (d.mBack - s.deque.mBack)).map d.mEntries ∧
    (∀ job, (returned s.log).count job ≤ d.content.count (some job)) ∧
    (d.content.Nodup → (returned s.log).Nodup) ∧
    ∀ t s', Races.step (.thief t) s = some s' → s'.deque = s.deque ∧ s'.log = s.log ∨
      ∃ job, s'.log = .returned job :: s.log ∧ s'.thief t = .idle := by
  have stolen := reach_stolen ok h
  refine ⟨⟨stolen.front, ?_, stolen.back⟩, stolen.taken, ?_, ?_, ?_⟩
  · rw [stolen.front]
    exact stolen.order
  · intro job
    rw [← List.count_map_of_injective _ _ (Option.some_injective J)]
    exact stolen.sublist.count_le _
  · intro distinct
    exact (stolen.sublist.nodup distinct).of_map some
  · intro t s' move
    exact (stolen.step_thief move).2

/-- Two jobs, and indices that have moved. -/
def twoJobs : LocklessDeque Nat := ⟨fun i => some (i + 1), 3, 5⟩

/-- Both thieves read the last slot, and one of them gets it; the other comes
back for the job before it. -/
def twoThieves : List (Races.Action Nat Bool) :=
  [.answer 5 true, .thief false, .thief true, .thief false, .thief true, .thief false, .thief true,
    .thief false, .thief true, .thief true, .thief false, .answer 4 true, .thief false,
    .thief false, .thief false, .thief false, .thief false]

theorem stealing_exact_two : ∃ s : Races.State Nat Bool,
    ((Races.machine Nat Bool).after (asleep _ twoJobs fun _ => false)).exec thievesOnly twoThieves
      (asleep _ twoJobs fun _ => false) = some s ∧
    s.log = [.returned 4, .returned 5] ∧ s.deque.mBack = 3 ∧ s.deque.mFront = 3 ∧
    (returned s.log).Nodup := by
  have ok : twoJobs.WellFormed := ⟨by decide, fun i _ _ => ⟨i + 1, rfl⟩⟩
  have run : ∃ s, ((Races.machine Nat Bool).after (asleep _ twoJobs fun _ => false)).exec
      thievesOnly twoThieves (asleep _ twoJobs fun _ => false) = some s ∧
      s.log = [.returned 4, .returned 5] ∧ s.deque.mBack = 3 := ⟨_, rfl, rfl, rfl⟩
  obtain ⟨s, run, log, back⟩ := run
  have all := stealing_exact ok (Machine.exec_start twoThieves run)
  exact ⟨s, run, log, back, all.1.1, all.2.2.2.1 (by decide)⟩

end Stealing
end JobStealer
