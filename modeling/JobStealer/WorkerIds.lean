import JobStealer.ArgumentParser
import JobStealer.Wakeup
import Mathlib.Data.Int.CardIntervalMod

/-!
# The ids of the workers

How many workers `main` asks for, and the arithmetic with their ids that the
`JobSystem` does afterwards: whose turn it is to get the next job, and from whom a
worker steals. All of it is on `uint32_t`.

`System` has the same on `Fin N`, where an id is valid by its type. This module
says why that is so: `getNumThreads_bounds` gives a number of workers that is not
0, and `addJob_eq` and `getRandomWorkerThreadId_eq` say that with such a number
the two functions do what `Runner.advance` and the stealing of `System` do.
-/

namespace JobStealer
open Interleaving

/-! ## The number of workers -/

/-- `hardwareConcurrency` is what `std::thread::hardware_concurrency()` returns. -/
def getNumThreads (argParser : ArgumentParser) (hardwareConcurrency : UInt32) :
    Except ArgumentFault UInt32 := do
  let maxThreads := max hardwareConcurrency 2 - 1
  if ← argParser.checkIfExists "-t" "--threads" then
    let threads := UInt32.ofInt (← argParser.getInt "-t" "--threads")
    if threads > maxThreads then return maxThreads
    else if threads = 0 then return 1
    else return threads
  else return maxThreads

/-- A number that an `int` holds stands behind the first argument that is one of the
names, if there is one. -/
def ArgumentParser.Numbered (p : ArgumentParser) (shortArg longArg : String) : Prop :=
  ∀ i, p.FirstAt shortArg longArg i →
    ∃ value k, p.argv[i + 1]? = some value ∧ stoi 10 value = .ok k

theorem clamp_bounds (threads : UInt32) {maxThreads : UInt32} (some : 1 ≤ maxThreads.toNat) :
    let n := if threads > maxThreads then maxThreads else if threads = 0 then 1 else threads
    1 ≤ n.toNat ∧ n.toNat ≤ maxThreads.toNat := by
  intro n
  unfold n
  split
  · exact ⟨some, Nat.le_refl _⟩
  · rename_i less
    split
    · exact ⟨Nat.le_refl _, some⟩
    · rename_i zero
      have pos : threads.toNat ≠ 0 := fun eq => zero (UInt32.toNat_inj.mp eq)
      have le : ¬ maxThreads.toNat < threads.toNat := less
      omega

theorem maxThreads_toNat (hardwareConcurrency : UInt32) :
    (max hardwareConcurrency 2 - 1).toNat = max hardwareConcurrency.toNat 2 - 1 := by
  change ((if hardwareConcurrency ≤ 2 then 2 else hardwareConcurrency) - 1).toNat = _
  split
  · rename_i few
    have few : hardwareConcurrency.toNat ≤ 2 := few
    rw [Nat.max_eq_right few]
    rfl
  · rename_i many
    have many : ¬ hardwareConcurrency.toNat ≤ 2 := many
    have one : (1 : UInt32).toNat = 1 := rfl
    have more : (1 : UInt32).toNat ≤ hardwareConcurrency.toNat := by omega
    rw [UInt32.toNat_sub_of_le _ _ more]
    omega

/-- Whatever the command line says, short of an option without a number: a negative
number is a large one here, and is clamped like any other. -/
theorem getNumThreads_bounds {p : ArgumentParser} (numbered : p.Numbered "-t" "--threads")
    (hardwareConcurrency : UInt32) : ∃ n, getNumThreads p hardwareConcurrency = .ok n ∧
      1 ≤ n.toNat ∧ n.toNat ≤ max hardwareConcurrency.toNat 2 - 1 := by
  have maxThreads := maxThreads_toNat hardwareConcurrency
  have pos : 1 ≤ (max hardwareConcurrency 2 - 1).toNat := by omega
  rw [← maxThreads]
  cases p.first_or_absent "-t" "--threads" with
  | inl occurs =>
    obtain ⟨i, first⟩ := occurs
    obtain ⟨value, k, next, int⟩ := numbered i first
    have read : p.getInt "-t" "--threads" = .ok k := by
      rw [ArgumentParser.getInt, ArgumentParser.get_first _ _ first, ArgumentParser.argument, next]
      simp [Except.bind, int, Except.mapError]
    refine ⟨_, ?_, clamp_bounds (.ofInt k) pos⟩
    simp only [getNumThreads, ArgumentParser.checkIfExists_first first, read, bind, Except.bind,
      pure, Except.pure, ↓reduceIte]
    split
    · rfl
    · split <;> rfl
  | inr absent =>
    refine ⟨_, ?_, pos, Nat.le_refl _⟩
    simp [getNumThreads, ArgumentParser.checkIfExists_absent absent, bind, Except.bind, pure,
      Except.pure]

/-! ## Their ids -/

/-- A number taken modulo 0, or an element of `mWorkers` that is not there. -/
inductive WorkerFault
  | moduloByZero
  | outOfBounds (i : UInt32)
  deriving DecidableEq

def modulo (a b : UInt32) : Except WorkerFault UInt32 :=
  if b = 0 then .error .moduloByZero else .ok (a % b)

/-- `Random::Rand`, `random` being what `rand()` returns. -/
def rand (random : Int) (min max : UInt32) : Except WorkerFault UInt32 := do
  return (← modulo (.ofInt random) max) + min

structure JobWorker where
  mId : UInt32
  deriving DecidableEq

structure JobSystem where
  mCurrentWorkerId : UInt32
  mNumWorkers : UInt32
  mWorkers : List JobWorker
  deriving DecidableEq

namespace JobSystem

/-- The constructor. Each new worker takes its `mId` from `sWorkerCounter` and
increments it. -/
def construct (sWorkerCounter numThreads : UInt32) : JobSystem where
  mCurrentWorkerId := 0
  mNumWorkers := numThreads
  mWorkers := (List.range numThreads.toNat).map fun i => ⟨sWorkerCounter + .ofNat i⟩

/-- The worker that is given the job, by its index in `mWorkers`, and the job. -/
def addJob {J : Type} (s : JobSystem) (job : J) :
    Except WorkerFault ((UInt32 × J) × JobSystem) := do
  if s.mWorkers.length ≤ s.mCurrentWorkerId.toNat then
    throw (.outOfBounds s.mCurrentWorkerId)
  let mCurrentWorkerId ← modulo (s.mCurrentWorkerId + 1) s.mNumWorkers
  return ((s.mCurrentWorkerId, job), { s with mCurrentWorkerId })

/-- One `AddJob` after the other. -/
def addJobs {J : Type} (s : JobSystem) : List J → Except WorkerFault (List (UInt32 × J) × JobSystem)
  | [] => return ([], s)
  | job :: jobs => do
    let (call, s) ← s.addJob job
    let (calls, s) ← s.addJobs jobs
    return (call :: calls, s)

def getRandomWorkerThreadId (s : JobSystem) (threadId : UInt32) (random : Int) :
    Except WorkerFault UInt32 := do
  let randomNumber ← rand random 0 s.mNumWorkers
  if threadId = randomNumber then modulo (randomNumber + 1) s.mNumWorkers else return randomNumber

end JobSystem

/-- The `JobSystem` that `main` builds; it needs none when it runs in serial. -/
def mainJobSystem (argParser : ArgumentParser) (hardwareConcurrency : UInt32) :
    Except ArgumentFault (Option JobSystem) := do
  let isRunningParallel ← argParser.checkIfExists "-p" "--parallel"
  if isRunningParallel then
    let numThreads ← getNumThreads argParser hardwareConcurrency
    return some (.construct 0 numThreads)
  else return none

/-! ## The same on `Fin N` -/

section
variable {N : Nat}

theorem getRandomWorkerThreadId_ne (two : 2 ≤ N) (w : Fin N) (random : Nat) :
    getRandomWorkerThreadId w random ≠ w := by
  have less := w.isLt
  unfold getRandomWorkerThreadId
  dsimp only
  split
  · rename_i own
    have here : w.val = random % N := congrArg Fin.val own
    rw [ne_eq, Fin.ext_iff]
    dsimp only
    rw [← here]
    -- the next id, or 0 after the last one
    by_cases last : w.val + 1 = N
    · rw [last, Nat.mod_self]
      omega
    · rw [Nat.mod_eq_of_lt (by omega)]
      omega
  · rename_i other
    exact Ne.symm other

/-- Any other worker is a possible victim. -/
theorem getRandomWorkerThreadId_of_ne {v w : Fin N} (other : v ≠ w) :
    getRandomWorkerThreadId w v = v := by
  have same : (⟨v.val % N, Nat.mod_lt _ w.pos⟩ : Fin N) = v := Fin.ext (Nat.mod_eq_of_lt v.isLt)
  unfold getRandomWorkerThreadId
  dsimp only
  rw [same, if_neg (Ne.symm other)]

theorem Runner.advance_val (i : Fin N) : (Runner.advance i).val = (i + 1) % N := rfl

theorem modulo_ok (a : UInt32) {b : UInt32} (pos : 0 < b.toNat) :
    ∃ c, modulo a b = .ok c ∧ c.toNat = a.toNat % b.toNat := by
  have some : b ≠ 0 := by
    rintro rfl
    exact absurd pos (Nat.lt_irrefl 0)
  exact ⟨a % b, if_neg some, UInt32.toNat_mod a b⟩

theorem succ_toNat {a b : UInt32} (less : a.toNat < b.toNat) : (a + 1).toNat = a.toNat + 1 := by
  have one : (1 : UInt32).toNat = 1 := rfl
  have := b.toNat_lt
  rw [UInt32.toNat_add, one, Nat.mod_eq_of_lt (by omega)]

theorem ofInt_toNat (a : UInt32) : UInt32.ofInt a.toNat = a := by
  have less : (a.toNat : Int) < 2 ^ 32 := Int.ofNat_lt.mpr a.toNat_lt
  rw [UInt32.ofInt, Int.emod_eq_of_lt (Int.natCast_nonneg _) less, Int.toNat_natCast,
    UInt32.ofNat_toNat]

namespace JobSystem

/-- There are `N` workers, and the next job is for worker `i`. -/
structure Turn (s : JobSystem) (i : Fin N) : Prop where
  numWorkers : s.mNumWorkers.toNat = N
  workers : s.mWorkers.length = N
  current : s.mCurrentWorkerId.toNat = i

variable {s : JobSystem} {i : Fin N} {J : Type}

theorem construct_turn (sWorkerCounter : UInt32) {n : UInt32} (pos : 0 < n.toNat) :
    (construct sWorkerCounter n).Turn (⟨0, pos⟩ : Fin n.toNat) where
  numWorkers := rfl
  workers := by simp [construct]
  current := rfl

theorem addJob_eq (h : s.Turn i) (job : J) :
    ∃ t, s.addJob job = .ok ((s.mCurrentWorkerId, job), t) ∧ t.Turn (Runner.advance i) ∧
      t.mWorkers = s.mWorkers := by
  obtain ⟨numWorkers, workers, current⟩ := h
  have less : s.mCurrentWorkerId.toNat < s.mNumWorkers.toNat := by
    rw [numWorkers, current]
    exact i.isLt
  have inside : ¬ s.mWorkers.length ≤ s.mCurrentWorkerId.toNat := by omega
  obtain ⟨next, eq, value⟩ := modulo_ok (s.mCurrentWorkerId + 1) (Nat.zero_lt_of_lt less)
  refine ⟨{ s with mCurrentWorkerId := next }, ?_, ⟨numWorkers, workers, ?_⟩, rfl⟩
  · simp [addJob, inside, eq, bind, Except.bind, pure, Except.pure]
  · rw [Runner.advance_val, value, succ_toNat less, current, numWorkers]

/-- The jobs go to the workers in turn, from the one whose turn it is. -/
theorem addJobs_eq (h : s.Turn i) (jobs : List J) :
    ∃ calls t, s.addJobs jobs = .ok (calls, t) ∧
      (calls.map fun call => (call.1.toNat, call.2)) =
        jobs.mapIdx (fun k job => ((i + k) % N, job)) ∧
      (∃ i' : Fin N, t.Turn i') ∧ t.mWorkers = s.mWorkers := by
  induction jobs generalizing s i with
  | nil => exact ⟨[], s, rfl, rfl, ⟨i, h⟩, rfl⟩
  | cons job jobs ih =>
    obtain ⟨t, eq, next, workers⟩ := addJob_eq h job
    obtain ⟨calls, u, rest, given, turn, same⟩ := ih next
    refine ⟨(s.mCurrentWorkerId, job) :: calls, u, ?_, ?_, turn, same.trans workers⟩
    · simp [addJobs, eq, rest, bind, Except.bind, pure, Except.pure]
    · have first : (i.val + 0) % N = i := Nat.mod_eq_of_lt i.isLt
      have shift (k : Nat) : ((Runner.advance i).val + k) % N = (i + (k + 1)) % N := by
        rw [Runner.advance_val, Nat.mod_add_mod, Nat.add_assoc, Nat.add_comm 1 k]
      rw [List.map_cons, given, List.mapIdx_cons, first, h.current]
      simp only [shift]

/-- The thief gets the id of a worker, and not its own. -/
theorem getRandomWorkerThreadId_eq (h : s.Turn i) {threadId : UInt32} {w : Fin N}
    (thief : threadId.toNat = w) (random : Int) :
    ∃ victim, s.getRandomWorkerThreadId threadId random = .ok victim ∧
      victim.toNat = JobStealer.getRandomWorkerThreadId w (UInt32.ofInt random).toNat := by
  obtain ⟨numWorkers, _, _⟩ := h
  have pos : 0 < s.mNumWorkers.toNat := by
    rw [numWorkers]
    exact w.pos
  obtain ⟨r, eq, value⟩ := modulo_ok (.ofInt random) pos
  have drawn : getRandomWorkerThreadId s threadId random =
      if threadId = r then modulo (r + 1) s.mNumWorkers else .ok r := by
    simp [getRandomWorkerThreadId, rand, eq, bind, Except.bind, pure, Except.pure]
  have same : threadId = r ↔ w = ⟨(UInt32.ofInt random).toNat % N, Nat.mod_lt _ w.pos⟩ := by
    rw [← UInt32.toNat_inj, Fin.ext_iff, thief, value, numWorkers]
  rw [drawn, JobStealer.getRandomWorkerThreadId]
  by_cases own : threadId = r
  · have less : r.toNat < s.mNumWorkers.toNat := value ▸ Nat.mod_lt _ pos
    obtain ⟨next, eq, value'⟩ := modulo_ok (r + 1) pos
    refine ⟨next, (if_pos own).trans eq, ?_⟩
    simp only [if_pos (same.mp own)]
    rw [value', succ_toNat less, value, numWorkers]
  · refine ⟨r, if_neg own, ?_⟩
    simp only [if_neg fun here => own (same.mpr here)]
    rw [value, numWorkers]

/-- Given out in turn, the jobs are shared out evenly. -/
theorem countP_turns {w : Nat} (less : w < N) (jobs : List J) :
    (jobs.mapIdx fun k job => (k % N, job)).countP (fun call => call.1 = w) =
      jobs.length / N + if w < jobs.length % N then 1 else 0 := by
  have count : (jobs.mapIdx fun k job => (k % N, job)).countP (fun call => call.1 = w) =
      jobs.length.count (· ≡ w [MOD N]) := by
    induction jobs using List.reverseRecOn with
    | nil => rfl
    | append_singleton jobs job ih =>
      have here : jobs.length % N = w ↔ jobs.length ≡ w [MOD N] := by
        rw [Nat.ModEq, Nat.mod_eq_of_lt less]
      simp [List.mapIdx_append, Nat.count_succ, ih, here, List.countP_append, List.countP_cons]
  rw [count, Nat.count_modEq_card _ (Nat.zero_lt_of_lt less), Nat.mod_eq_of_lt less]

theorem balanced {calls : List (UInt32 × J)} {jobs : List J}
    (given : (calls.map fun call => (call.1.toNat, call.2)) =
      jobs.mapIdx fun k job => (k % N, job)) {w v : UInt32} (hw : w.toNat < N) (hv : v.toNat < N) :
    calls.countP (·.1 = w) ≤ calls.countP (·.1 = v) + 1 := by
  have share (w : UInt32) (less : w.toNat < N) : calls.countP (·.1 = w) =
      jobs.length / N + if w.toNat < jobs.length % N then 1 else 0 := by
    rw [← countP_turns less, ← given, List.countP_map]
    simp only [Function.comp_def, UInt32.toNat_inj]
  rw [share w hw, share v hv]
  split <;> omega

theorem construct_mId (n : UInt32) :
    ((construct 0 n).mWorkers.map fun worker => worker.mId.toNat) = List.range n.toNat := by
  apply List.ext_getElem (by simp [construct])
  intro k _ less
  have less : k < n.toNat := by simpa using less
  simp only [construct, List.getElem_map, List.getElem_range, UInt32.zero_add]
  exact UInt32.toNat_ofNat_of_lt' (Nat.lt_trans less n.toNat_lt)

variable {threadId : UInt32}

theorem steals_from_other (h : s.Turn i) (two : 2 ≤ N) (thief : threadId.toNat < N)
    (random : Int) : ∃ victim, s.getRandomWorkerThreadId threadId random = .ok victim ∧
      victim.toNat < N ∧ victim ≠ threadId := by
  let w : Fin N := ⟨threadId.toNat, thief⟩
  obtain ⟨victim, eq, value⟩ := getRandomWorkerThreadId_eq h (w := w) rfl random
  refine ⟨victim, eq, ?_, ?_⟩
  · rw [value]
    exact Fin.isLt _
  · rintro rfl
    exact getRandomWorkerThreadId_ne two w _ (Fin.ext value.symm)

theorem steals_from_any (h : s.Turn i) (thief : threadId.toNat < N) {victim : UInt32}
    (inside : victim.toNat < N) (other : victim ≠ threadId) :
    s.getRandomWorkerThreadId threadId victim.toNat = .ok victim := by
  let w : Fin N := ⟨threadId.toNat, thief⟩
  let v : Fin N := ⟨victim.toNat, inside⟩
  have apart : v ≠ w := by
    intro same
    exact other (UInt32.toNat_inj.mp (Fin.mk.inj same))
  obtain ⟨drawn, eq, value⟩ := getRandomWorkerThreadId_eq h (w := w) rfl victim.toNat
  rw [ofInt_toNat, getRandomWorkerThreadId_of_ne apart] at value
  obtain rfl : drawn = victim := UInt32.toNat_inj.mp value
  exact eq

end JobSystem
end

theorem mainJobSystem_eq {p : ArgumentParser} {hardwareConcurrency n : UInt32}
    (asked : getNumThreads p hardwareConcurrency = .ok n) :
    mainJobSystem p hardwareConcurrency =
      .ok (if "-p" ∈ p.argv ∨ "--parallel" ∈ p.argv then some (.construct 0 n) else none) := by
  cases p.first_or_absent "-p" "--parallel" with
  | inl occurs =>
    obtain ⟨i, first⟩ := occurs
    obtain ⟨current, eq, named⟩ := first.named
    have inside : current ∈ p.argv := List.mem_of_getElem? eq
    have parallel : "-p" ∈ p.argv ∨ "--parallel" ∈ p.argv := by
      rcases named with ⟨_, rfl⟩ | ⟨_, rfl⟩
      · exact .inl inside
      · exact .inr inside
    rw [if_pos parallel]
    simp [mainJobSystem, ArgumentParser.checkIfExists_first first, asked, bind, Except.bind, pure,
      Except.pure]
  | inr absent =>
    have serial : ¬ ("-p" ∈ p.argv ∨ "--parallel" ∈ p.argv) := by
      rintro (inside | inside)
      · exact absent _ inside (.inl ⟨by decide, rfl⟩)
      · exact absent _ inside (.inr ⟨by decide, rfl⟩)
    rw [if_neg serial]
    simp [mainJobSystem, ArgumentParser.checkIfExists_absent absent, bind, Except.bind, pure,
      Except.pure]

/-- With a number behind the thread option, `main` asks for at least one worker and
leaves one thread of the hardware free; it builds a `JobSystem` if it is to run in
parallel. That gives the k-th job to worker k mod n, so no worker gets two more than
another; and a thief steals from another worker, any of which it may draw. -/
theorem worker_ids {J : Type} {p : ArgumentParser} (numbered : p.Numbered "-t" "--threads")
    (hardwareConcurrency : UInt32) :
    ∃ n, getNumThreads p hardwareConcurrency = .ok n ∧
      (1 ≤ n.toNat ∧ n.toNat ≤ max hardwareConcurrency.toNat 2 - 1) ∧
      mainJobSystem p hardwareConcurrency =
        .ok (if "-p" ∈ p.argv ∨ "--parallel" ∈ p.argv then some (.construct 0 n) else none) ∧
      ∀ jobs : List J, ∃ calls s, (JobSystem.construct 0 n).addJobs jobs = .ok (calls, s) ∧
        (calls.map fun call => (call.1.toNat, call.2)) =
          jobs.mapIdx (fun k job => (k % n.toNat, job)) ∧
        (∀ w v : UInt32, w.toNat < n.toNat → v.toNat < n.toNat →
          calls.countP (·.1 = w) ≤ calls.countP (·.1 = v) + 1) ∧
        (s.mWorkers.map fun worker => worker.mId.toNat) = List.range n.toNat ∧
        (2 ≤ n.toNat → ∀ threadId : UInt32, threadId.toNat < n.toNat →
          (∀ random, ∃ victim, s.getRandomWorkerThreadId threadId random = .ok victim ∧
            victim.toNat < n.toNat ∧ victim ≠ threadId) ∧
          ∀ victim : UInt32, victim.toNat < n.toNat → victim ≠ threadId →
            ∃ random : Nat, random < n.toNat ∧
              s.getRandomWorkerThreadId threadId random = .ok victim) := by
  obtain ⟨n, asked, some, most⟩ := getNumThreads_bounds numbered hardwareConcurrency
  refine ⟨n, asked, ⟨some, most⟩, mainJobSystem_eq asked, ?_⟩
  intro jobs
  obtain ⟨calls, s, eq, given, ⟨i, turn⟩, workers⟩ :=
    JobSystem.addJobs_eq (JobSystem.construct_turn 0 some) jobs
  simp only [Nat.zero_add] at given
  refine ⟨calls, s, eq, given, ?_, ?_, ?_⟩
  · intro w v hw hv
    exact JobSystem.balanced given hw hv
  · rw [workers]
    exact JobSystem.construct_mId n
  · intro two threadId thief
    constructor
    · exact JobSystem.steals_from_other turn two thief
    · intro victim inside other
      exact ⟨victim.toNat, inside, JobSystem.steals_from_any turn thief inside other⟩

/-- A negative number is clamped to the hardware: three workers here. -/
theorem worker_ids_negative : ∃ calls s,
    getNumThreads ⟨["job_stealer", "-p", "--threads", "-2"]⟩ 4 = .ok 3 ∧
      mainJobSystem ⟨["job_stealer", "-p", "--threads", "-2"]⟩ 4 =
        .ok (some (.construct 0 3)) ∧
      (JobSystem.construct 0 3).addJobs [10, 11, 12, 13] = .ok (calls, s) ∧
      (calls.map fun call => (call.1.toNat, call.2)) = [(0, 10), (1, 11), (2, 12), (0, 13)] ∧
      ∃ victim, s.getRandomWorkerThreadId 2 5 = .ok victim ∧ victim.toNat < 3 ∧ victim ≠ 2 := by
  let p : ArgumentParser := ⟨["job_stealer", "-p", "--threads", "-2"]⟩
  have position : p.getPosition "-t" "--threads" = .ok 2 := by decide
  have numbered : p.Numbered "-t" "--threads" := by
    intro i first
    obtain rfl : i = 2 := by
      have same := (ArgumentParser.getPosition_first first).symm.trans position
      exact Int.ofNat.inj (Except.ok.inj same)
    exact ⟨"-2", -2, rfl, by decide⟩
  have three : getNumThreads p 4 = .ok 3 := by decide
  obtain ⟨n, asked, _, built, given⟩ := worker_ids (J := Nat) numbered 4
  obtain rfl : n = 3 := Except.ok.inj (asked.symm.trans three)
  obtain ⟨calls, s, eq, turns, _, _, steals⟩ := given [10, 11, 12, 13]
  exact ⟨calls, s, three, built, eq, turns, (steals (by decide) 2 (by decide)).1 5⟩

/-! ## In the running system -/

section
variable {n N : Nat}

/-- Each `AddJob` is for the next worker, and nothing else moves the turn on. -/
theorem Runner.code_turn (c : Config n N) (pc : RunnerPc n N) :
    (Runner.code c pc).All fun next =>
      (next.later.mCurrentWorkerId = pc.later.mCurrentWorkerId ∧ next.toAdd = pc.toAdd) ∨
      (next.later.mCurrentWorkerId = Runner.advance pc.later.mCurrentWorkerId ∧
        ∃ job, pc.toAdd = job :: next.toAdd) := by
  cases pc with
  | addJob jobs later =>
    cases jobs <;> grind [Runner.code, Runner.push, Instr.All, RunnerPc.later, RunnerPc.toAdd]
  | _ => grind [Runner.code, Runner.nextFrame, Instr.All, RunnerPc.later, RunnerPc.toAdd]

theorem Runner.code_target (c : Config n N) {pc : RunnerPc n N} {w : Fin N} {job : Fin n}
    (h : (Runner.code c pc).pushesJob w job = true) :
    pc.later.mCurrentWorkerId = w ∧ ∃ rest, pc.toAdd = job :: rest := by
  cases pc with
  | addJob jobs later =>
    cases jobs <;>
      grind [Runner.code, Runner.push, Instr.pushesJob, RunnerPc.later, RunnerPc.toAdd]
  | _ => grind [Runner.code, Instr.pushesJob]

namespace System
variable {c : Config n N} {ok : State c → Action N → Prop} {s : State c}

/-- Whatever the other threads do, `done.length` jobs have been added, and the next
one is for that worker modulo `N`. -/
theorem turn (h : (machine c).Reach ok s) :
    ∃ done, c.frames.flatten = done ++ RunnerPc.toAdd (s.pc .runner) ∧
      (RunnerPc.later (s.pc .runner)).mCurrentWorkerId.val = done.length % N := by
  refine Threads.local_invariant (P := threads c) (t := .runner)
    (Q := fun pc => ∃ done, c.frames.flatten = done ++ RunnerPc.toAdd pc ∧
      (RunnerPc.later pc).mCurrentWorkerId.val = done.length % N)
    ⟨[], rfl, (Nat.zero_mod N).symm⟩ ?_ h
  rintro s _ pc shared _ ⟨done, split, current⟩ took
  rcases (Runner.code_turn c (s.pc .runner)).exec took with ⟨same, left⟩ | ⟨next, job, left⟩
  · exact ⟨done, left ▸ split, same ▸ current⟩
  · refine ⟨done ++ [job], ?_, ?_⟩
    · rw [split, left, List.append_assoc]
      rfl
    · rw [next, Runner.advance_val, current, List.length_append, Nat.mod_add_mod]
      rfl

/-- The k-th job of all frames is pushed to the deque of worker k mod `N`. -/
theorem adds_in_turn (h : (machine c).Reach ok s) {w : Fin N} {job : Fin n}
    (pushes : (Runner.code c (s.pc .runner)).pushesJob w job = true) :
    ∃ done rest, c.frames.flatten = done ++ job :: rest ∧ w.val = done.length % N := by
  obtain ⟨done, split, current⟩ := turn h
  obtain ⟨rfl, rest, first⟩ := Runner.code_target c pushes
  exact ⟨done, rest, first ▸ split, current⟩

end System
end

end JobStealer
