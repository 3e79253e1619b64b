import JobStealer.Instructions

/-!
# The job system

The code of the three kinds of threads, an instruction for each program point:
`Worker.code` is `JobWorker::Run` with what it calls, `Runner.code` the loop of
the `main_runner` thread around `UpdateParallel`, and `Main.code` the constructor
of the `JobSystem`, the wait for a key and `ShutDown`.

`Config` fixes the build, the number of workers and the jobs of all frames. The
constructors of all frames run at the start: no step looks at a job before it is
added, and no two frames share one.

In every build the deques are `LockingDeque`s, without a bound and with each operation
one step. The `delete` at the end of `UpdateParallel` does nothing here: a run that goes
on to look at a deleted job is none of the program's. `Frames` says which runs do not.
-/

namespace JobStealer
open Interleaving

variable {n N : Nat}

/-- Each frame adds the jobs it constructed, in any order, each once. The
prerequisites of a job are jobs of the same frame. -/
structure Config (n N : Nat) where
  graph : Graph n
  frames : List (List (Fin n))
  once : frames.flatten.Nodup
  together : ∀ frame ∈ frames, ∀ j ∈ frame, ∀ i, graph.Prerequisite i j → i ∈ frame
  workers : 0 < N
  /-- `HTL_USING_LOCKLESS`, only as far as the end goes at which `AddJob` pushes -/
  usingLockless : Bool
  /-- `HTL_WAIT_FOR_AVAILABLE_JOBS` -/
  waitForAvailableJobs : Bool

/-- `JobSystem::GetRandomWorkerThreadId`. Worker `w` has `mId` = `w`. -/
def getRandomWorkerThreadId (threadId : Fin N) (rand : Nat) : Fin N :=
  have pos : 0 < N := threadId.pos
  let randomNumber : Fin N := ⟨rand % N, Nat.mod_lt _ pos⟩
  if threadId = randomNumber then ⟨(randomNumber + 1) % N, Nat.mod_lt _ pos⟩ else randomNumber

/-! ## The worker threads -/

inductive WorkerPc (n N : Nat)
  -- `Run`, up to `GetJob`
  | whileRunning
  | checkJobs
  | checkJobSystem
  | raiseFlag
  -- `JobSystem::WakeThreads`, at worker `i`
  | wakeThreads (i : Nat)
  | wakeLock (i : Fin N)
  | wakeNotify (i : Fin N)
  | wakeUnlock (i : Fin N)
  -- `WaitForJob`
  | waitLock
  | waitJobs
  | waitRunning (available : Bool)
  | waitBlock
  | waitBlocked
  | waitUnlock
  -- `GetJobFromOwnQueue`
  | ownSize
  | ownPop (allowOpenDependencies : Bool)
  | ownCheck (job : Fin n)
  | ownPushBack (job : Fin n)
  | ownSizeAgain
  | ownPopAgain
  -- `StealJobFromOtherQueue`
  | steal
  | stealRandom
  | stealPop (i : Fin N)
  -- `Run`, from `Execute` on
  | execute (job : Fin n)
  | executing (job : Fin n) (call : Call n)
  | checkFinished (job : Fin n)
  | lowerFlag
  | leave
  | left
  deriving DecidableEq

namespace Worker
open WorkerPc

def code (c : Config n N) (w : Fin N) : WorkerPc n N → Instr n N (WorkerPc n N)
  | whileRunning => .load (.mRunning w) fun running => if running then checkJobs else leave
  | checkJobs =>
    if c.waitForAvailableJobs then
      .hasExecutableJobs w fun has => if has then raiseFlag else checkJobSystem
    else .size w fun size => if size = 0 then waitLock else raiseFlag
  | checkJobSystem => .load (.JobSystem w) fun set => if set then wakeThreads 0 else waitLock
  | raiseFlag => .store (.mJobRunning w) true ownSize
  | wakeThreads i =>
    if h : i < N then
      .hasExecutableJobs ⟨i, h⟩ fun has => if has then wakeLock ⟨i, h⟩ else wakeThreads (i + 1)
    else .skip waitLock
  | wakeLock i => .lock i (wakeNotify i)
  | wakeNotify i => .notify i (wakeUnlock i)
  | wakeUnlock i => .unlock i (wakeThreads (i + 1))
  | waitLock => .lock w waitJobs
  | waitJobs =>
    if c.waitForAvailableJobs then .hasExecutableJobs w waitRunning
    else .size w fun size => waitRunning (size > 0)
  | waitRunning available => .load (.mRunning w) fun running =>
    if available || !running then waitUnlock else waitBlock
  | waitBlock => .wait w waitBlocked
  | waitBlocked => .wake w waitLock
  | waitUnlock => .unlock w raiseFlag
  | ownSize => .size w fun size => ownPop (size > 1)
  | ownPop allow => .popFront w allow fun
    | some job => ownCheck job
    | none => steal
  | ownCheck job => .canExecute job fun can => if can then execute job else ownPushBack job
  | ownPushBack job => .pushBack w job ownSizeAgain
  | ownSizeAgain => .size w fun size => if size > 1 then ownPopAgain else steal
  | ownPopAgain => .popFront w false fun
    | some job => execute job
    | none => steal
  | steal => .load (.JobSystem w) fun set => if !set || N < 2 then lowerFlag else stealRandom
  | stealRandom => .rand fun rand => stealPop (getRandomWorkerThreadId w rand)
  | stealPop i => .popBack i fun
    | some job => execute job
    | none => lowerFlag
  | execute job => .start job (executing job (.running job))
  | executing job call => .call call fun
    | .idle => checkFinished job
    | call => executing job call
  | checkFinished job => .isFinished job fun _ => lowerFlag
  | lowerFlag => .store (.mJobRunning w) false whileRunning
  | leave => .store (.ended (.worker w)) true left
  | left => .halt

end Worker

/-! ## The thread that runs the frames -/

/-- What the runner has still to do after the current frame, and where the next
job goes. -/
structure Later (n N : Nat) where
  mCurrentWorkerId : Fin N
  frames : List (List (Fin n))
  deriving DecidableEq

inductive RunnerPc (n N : Nat)
  | begin (later : Later n N)
  | whileRunning (later : Later n N)
  -- `AddJob` of the first of `jobs`; then to worker `i`
  | addJob (jobs : List (Fin n)) (later : Later n N)
  | addLock (i : Fin N) (jobs : List (Fin n)) (later : Later n N)
  | addNotify (i : Fin N) (jobs : List (Fin n)) (later : Later n N)
  | addUnlock (i : Fin N) (jobs : List (Fin n)) (later : Later n N)
  -- `AllJobsFinished`, at worker `i`
  | scanSize (i : Nat) (later : Later n N)
  | scanFlag (i : Fin N) (later : Later n N)
  | deleteJobs (later : Later n N)
  | leave (later : Later n N)
  | left (later : Later n N)
  deriving DecidableEq

namespace Runner
open RunnerPc

/-- `JobWorker::AddJob` pushes at the end the deque of the build has for it. -/
def push {α : Type} (c : Config n N) (i : Fin N) (job : Fin n) (next : α) : Instr n N α :=
  if c.usingLockless then .pushBack i job next else .pushFront i job next

/-- `mCurrentWorkerId = (++mCurrentWorkerId) % mNumWorkers`. -/
def advance (i : Fin N) : Fin N := ⟨(i + 1) % N, Nat.mod_lt _ i.pos⟩

/-- `UpdateParallel` for the next frame. The thread ends after the last one. -/
def nextFrame (later : Later n N) : RunnerPc n N :=
  match later.frames with
  | frame :: frames => addJob frame { later with frames }
  | [] => leave later

def code (c : Config n N) : RunnerPc n N → Instr n N (RunnerPc n N)
  | begin later => .await .created (whileRunning later)
  | whileRunning later => .load .isRunning fun running =>
    if running then nextFrame later else leave later
  | addJob [] later => .skip (scanSize 0 later)
  | addJob (job :: jobs) later =>
    let i := later.mCurrentWorkerId
    push c i job (addLock i jobs { later with mCurrentWorkerId := advance i })
  | addLock i jobs later => .lock i (addNotify i jobs later)
  | addNotify i jobs later => .notify i (addUnlock i jobs later)
  | addUnlock i jobs later => .unlock i (addJob jobs later)
  | scanSize i later =>
    if h : i < N then
      .size ⟨i, h⟩ fun size => if size > 0 then scanSize 0 later else scanFlag ⟨i, h⟩ later
    else .skip (deleteJobs later)
  | scanFlag i later => .load (.mJobRunning i) fun running =>
    if running then scanSize 0 later else scanSize (i + 1) later
  -- a deleted job stays as it was
  | deleteJobs later => .skip (whileRunning later)
  | leave later => .store (.ended .runner) true (left later)
  | left _ => .halt

end Runner

/-! ## The main thread -/

inductive MainPc (N : Nat)
  -- the constructor of the `JobSystem`, at worker `i`
  | construct (i : Nat)
  | waitForKey
  | quit
  -- `ShutDown`, at worker `i`
  | shutDown (i : Nat)
  | lowerFlag (i : Fin N)
  | clear (i : Fin N)
  | lock (i : Fin N)
  | notify (i : Fin N)
  | unlock (i : Fin N)
  | join (i : Fin N)
  | joinRunner
  | left
  deriving DecidableEq

namespace Main
open MainPc

def code : MainPc N → Instr n N (MainPc N)
  | construct i =>
    if h : i < N then .store (.JobSystem ⟨i, h⟩) true (construct (i + 1))
    else .store .created true waitForKey
  | waitForKey => .skip quit
  | quit => .store .isRunning false (shutDown 0)
  | shutDown i =>
    if h : i < N then .store (.mRunning ⟨i, h⟩) false (lowerFlag ⟨i, h⟩) else .skip joinRunner
  | lowerFlag i => .store (.mJobRunning i) false (clear i)
  | clear i => .clear i (lock i)
  | lock i => .lock i (notify i)
  | notify i => .notify i (unlock i)
  | unlock i => .unlock i (join i)
  | join i => .await (.ended (.worker i)) (shutDown (i + 1))
  | joinRunner => .await (.ended .runner) left
  | left => .halt

end Main

/-! ## All threads -/

abbrev Pc (n N : Nat) : Thread N → Type
  | .worker _ => WorkerPc n N
  | .runner => RunnerPc n N
  | .main => MainPc N

def code (c : Config n N) : (t : Thread N) → Pc n N t → Instr n N (Pc n N t)
  | .worker w => Worker.code c w
  | .runner => Runner.code c
  | .main => Main.code

def Flag.initial : Flag N → Bool
  | .mRunning _ | .isRunning => true
  | _ => false

def threads (c : Config n N) : Threads (Thread N) (Pc n N) (Shared c.graph N) Nat where
  shared :=
    { jobs := .built c.graph
      flag := Flag.initial
      mJobDeque := fun _ => .empty
      mAwakeMutex := fun _ => none
      mAwakeCondition := fun _ => .awake }
  start
    | .worker _ => .whileRunning
    | .runner => .begin ⟨⟨0, c.workers⟩, c.frames⟩
    | .main => .construct 0
  step t random pc s := (code c t pc).exec t random s

namespace System

abbrev State (c : Config n N) := Threads.State (Pc n N) (Shared c.graph N)

/-- A thread moves; the number is what `rand()` gives if it asks. -/
abbrev Action (N : Nat) := Thread N × Nat

def machine (c : Config n N) : Machine (State c) (Action N) := (threads c).machine

/-- No `ShutDown`: nobody types a key. -/
def noShutDown {c : Config n N} (s : State c) (a : Action N) : Prop :=
  a.1 = .main → s.pc .main ≠ .waitForKey

instance {c : Config n N} (s : State c) (a : Action N) : Decidable (noShutDown s a) :=
  inferInstanceAs (Decidable (_ → _))

theorem step_cases {c : Config n N} {s s' : State c} {a : Action N}
    (h : (machine c).step a s = some s') : ∃ pc shared,
      (code c a.1 (s.pc a.1)).exec a.1 a.2 s.shared = some (pc, shared) ∧
        s' = s.move a.1 pc shared := Threads.step_cases h

end System
end JobStealer
