import JobStealer.Interleaving
import JobStealer.Graph
import JobStealer.Execution
import JobStealer.Progress
import JobStealer.Deque
import JobStealer.LockingDeque
import JobStealer.LocklessDeque
import JobStealer.OwnQueue
import JobStealer.Rotation
import JobStealer.SingleWorker
import JobStealer.Slots
import JobStealer.Sorted
import JobStealer.Boundaries
import JobStealer.Snapshot
import JobStealer.DequeRaces
import JobStealer.Publication
import JobStealer.Views
import JobStealer.Stealing
import JobStealer.Monitor
import JobStealer.LockedDeques
import JobStealer.ExtraLocks
import JobStealer.Logger
import JobStealer.Threads
import JobStealer.Instructions
import JobStealer.System
import JobStealer.Conservation
import JobStealer.Flags
import JobStealer.Alone
import JobStealer.Finished
import JobStealer.Shutdown
import JobStealer.Wakeup
import JobStealer.Notified
import JobStealer.RunningFlag
import JobStealer.Sleeping
import JobStealer.Frames
import JobStealer.Settling
import JobStealer.Hunting
import JobStealer.Completion
import JobStealer.Joining
import JobStealer.Searches
import JobStealer.Livelock
import JobStealer.Fairness
import JobStealer.FairRuns
import JobStealer.Spinning
import JobStealer.Scheduling
import JobStealer.Timing
import JobStealer.ArgumentParser
import JobStealer.WorkerIds
