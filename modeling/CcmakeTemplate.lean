import CcmakeTemplate.Concurrency.Machine
import CcmakeTemplate.Concurrency.Sync
import CcmakeTemplate.Concurrency.Deadlock
import CcmakeTemplate.Concurrency.Threads
import CcmakeTemplate.Concurrency.Linearization
import CcmakeTemplate.Pipeline.Model
import CcmakeTemplate.Pipeline.Steps
import CcmakeTemplate.Pipeline.Frames
import CcmakeTemplate.Pipeline.Locks
import CcmakeTemplate.Pipeline.Calls
import CcmakeTemplate.Pipeline.Sharing
import CcmakeTemplate.Pipeline.Deadlock
import CcmakeTemplate.Pipeline.Barrier
import CcmakeTemplate.Pipeline.Activity
import CcmakeTemplate.Pipeline.Wakeup
import CcmakeTemplate.Pipeline.Destruction
import CcmakeTemplate.Pipeline.Belt
import CcmakeTemplate.Pipeline.Flow
import CcmakeTemplate.Pipeline.Conservation
import CcmakeTemplate.Pipeline.Order
import CcmakeTemplate.Pipeline.Hiring
import CcmakeTemplate.Pipeline.Roster
import CcmakeTemplate.Pipeline.History
import CcmakeTemplate.Pipeline.JobWakeup
import CcmakeTemplate.Pipeline.Counts
import CcmakeTemplate.Pipeline.Numbered
import CcmakeTemplate.Pipeline.Completion
import CcmakeTemplate.Semaphore.Model
import CcmakeTemplate.Semaphore.Invariants
import CcmakeTemplate.Semaphore.Wakeup
import CcmakeTemplate.Semaphore.Capacity
import CcmakeTemplate.Semaphore.OneAcquirer
import CcmakeTemplate.Semaphore.Linearization
import CcmakeTemplate.PeriodicWork.Model
import CcmakeTemplate.PeriodicWork.Steps
import CcmakeTemplate.PeriodicWork.LifeCycle
import CcmakeTemplate.PeriodicWork.Running
import CcmakeTemplate.PeriodicWork.Callers
import CcmakeTemplate.PeriodicWork.Locks
import CcmakeTemplate.PeriodicWork.Rounds
import CcmakeTemplate.PeriodicWork.Capacity
import CcmakeTemplate.PeriodicWork.Epochs
import CcmakeTemplate.PeriodicWork.Overlap
import CcmakeTemplate.PeriodicWork.Period
import CcmakeTemplate.PeriodicWork.PeriodWakeup
import CcmakeTemplate.PeriodicWork.Halting
import CcmakeTemplate.PeriodicWork.Joining
import CcmakeTemplate.PeriodicWork.Expiry
import CcmakeTemplate.PeriodicWork.Requests
import CcmakeTemplate.PeriodicWork.Replacement
import CcmakeTemplate.ThreadPool.Model
import CcmakeTemplate.ThreadPool.Steps
import CcmakeTemplate.ThreadPool.Locks
import CcmakeTemplate.ThreadPool.Execution
import CcmakeTemplate.ThreadPool.Submissions
import CcmakeTemplate.ThreadPool.Requests
import CcmakeTemplate.ThreadPool.Wakeup
import CcmakeTemplate.ThreadPool.OneWorker
import CcmakeTemplate.MessageDistribute.Model
import CcmakeTemplate.MessageDistribute.Steps
import CcmakeTemplate.MessageDistribute.Registry
import CcmakeTemplate.MessageDistribute.Delivery
import CcmakeTemplate.MessageDistribute.Requests
import CcmakeTemplate.MessageDistribute.Order
import CcmakeTemplate.TickObservers.Model
import CcmakeTemplate.TickObservers.Components
import CcmakeTemplate.TickObservers.Deadlock
import CcmakeTemplate.ConnectPipeline.Model
import CcmakeTemplate.ConnectPipeline.Steps
import CcmakeTemplate.ConnectPipeline.Feed
import CcmakeTemplate.ConnectPipeline.Arrival
import CcmakeTemplate.SqliteSink.Model
import CcmakeTemplate.SqliteSink.Row
import CcmakeTemplate.SqliteSink.Levels
import CcmakeTemplate.SqliteSink.Access
import CcmakeTemplate.Posix.FileSystem
import CcmakeTemplate.Posix.Path
import CcmakeTemplate.Posix.OutputStream
import CcmakeTemplate.ProjectArchieve.Model
import CcmakeTemplate.ProjectArchieve.Save
import CcmakeTemplate.Containers.Window
import CcmakeTemplate.Spdlog.CircularQ
import CcmakeTemplate.Concurrency.Watch
import CcmakeTemplate.BlockingQueue.Model
import CcmakeTemplate.BlockingQueue.Steps
import CcmakeTemplate.BlockingQueue.Contents
import CcmakeTemplate.BlockingQueue.Methods
import CcmakeTemplate.BlockingQueue.Wakeup
import CcmakeTemplate.BlockingQueue.Linearization
import CcmakeTemplate.AsyncPool.Model
import CcmakeTemplate.AsyncPool.Steps
import CcmakeTemplate.AsyncPool.LifeCycle
import CcmakeTemplate.AsyncPool.Delivery
import CcmakeTemplate.AsyncPool.Shutdown
import CcmakeTemplate.AsyncPool.Completion
import CcmakeTemplate.AsyncPool.Progress
import CcmakeTemplate.AsyncPool.Order
import CcmakeTemplate.Spdlog.Logger
import CcmakeTemplate.Spdlog.Backtrace
import CcmakeTemplate.Spdlog.Registry
import CcmakeTemplate.Spdlog.DefaultLogger
import CcmakeTemplate.Spdlog.Settings
import CcmakeTemplate.Args.Model
import CcmakeTemplate.Args.Grammar
import CcmakeTemplate.Args.Outcome
import CcmakeTemplate.Posix.Removal
import CcmakeTemplate.Startup.Model
import CcmakeTemplate.Startup.Logging
import CcmakeTemplate.Startup.FileLogging
import CcmakeTemplate.Containers.Chunks
import CcmakeTemplate.RotatingFileSink.Model
import CcmakeTemplate.RotatingFileSink.Names
import CcmakeTemplate.RotatingFileSink.Order
import CcmakeTemplate.RotatingFileSink.Retention
