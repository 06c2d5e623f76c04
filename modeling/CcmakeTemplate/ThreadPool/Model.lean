import CcmakeTemplate.Concurrency.Machine
import CcmakeTemplate.Concurrency.Sync
import Mathlib.Logic.Function.Basic

/-!
# `thread_pool` as a machine

The threads that touch a pool are its workers and the clients. There is one step for
each lock, unlock, wait, notification, thread creation, join and access to the shared
fields of `thread_pool.h`. A task runs between its begin and its end, and may itself
call `enqueue`, `enqueue_future` and `pending_tasks`. Tasks do not throw.

`T` stands for the tasks. A worker carries the number of its task beside the task: the
place the task has among all that were taken so far. No step reads the number, nor the
fields under "history", which record what happened. The future that `enqueue_future`
returns is left out.
-/

namespace ThreadPool

open Concurrency

/-! ## Data -/

inductive Thread where
  | worker (i : ℕ)
  | client (c : ℕ)
deriving DecidableEq

/-- The two ways to submit a task. -/
inductive Submit where
  | enqueue | enqueueFuture
deriving DecidableEq

/-- How a stopped pool refuses: `enqueue` returns, `enqueue_future` throws a
`std::runtime_error`. -/
def Submit.refusal : Submit → Option String
  | .enqueue => none
  | .enqueueFuture => some "enqueue on stopped thread_pool"

/-- Program points of the methods that a task may call, too. -/
inductive CallPc (T : Type) where
  | lock (how : Submit) (task : T)
  | test (how : Submit) (task : T)
  | refuse (how : Submit) (task : T)
  | emplace (task : T)
  | unlock
  | notify
  | pendingLock
  | pendingSize
  | pendingUnlock (size : ℕ)
deriving DecidableEq

/-- Program points of a worker's loop. -/
inductive WorkerPc (T : Type) where
  | lock
  | check
  | block
  | waiting
  | exitTest
  | leaveExit
  | take
  | leaveTake (task : T) (n : ℕ)
  | run (task : T) (n : ℕ)
  | running (task : T) (n : ℕ) (call : Option (CallPc T))
  | ended
deriving DecidableEq

/-- Program points of a client; `construct` and `destroy` are the constructor's and the
destructor's. -/
inductive ClientPc (T : Type) where
  | out
  | call (pc : CallPc T)
  | construct
  | destroyLock
  | destroySet
  | destroyUnlock
  | destroyNotify
  | destroyJoin (i : ℕ)
deriving DecidableEq

/-- The call into the pool that a task makes, if any. -/
def WorkerPc.call {T : Type} : WorkerPc T → Option (CallPc T)
  | .running _ _ call => call
  | _ => none

def ClientPc.call? {T : Type} : ClientPc T → Option (CallPc T)
  | .call pc => some pc
  | _ => none

inductive Phase where
  | constructing | alive | destroying | destroyed
deriving DecidableEq

structure State (T : Type) where
  tasks_ : List T
  queue_mutex_ : Mutex Thread
  condition_ : CondVar Thread
  stop_ : Bool
  /-- The number of threads in `workers_`. -/
  workers_ : ℕ
  workerPc : ℕ → WorkerPc T
  clientPc : ℕ → ClientPc T
  phase : Phase
  /-- History: the tasks pushed, in order. -/
  accepted : List T
  /-- History: the tasks popped, in order. -/
  taken : List T
  /-- History: the tasks whose execution has begun, with their numbers. -/
  begun : List (T × ℕ)
  /-- History: the tasks whose execution has ended, with their numbers. -/
  finished : List (T × ℕ)
  /-- History: the tasks that the pool refused, with what was thrown, if anything. -/
  refused : List (T × Option String)

namespace State

variable {T : Type}

/-- The call into the pool that a thread is in, if any. -/
def call (s : State T) : Thread → Option (CallPc T)
  | .worker i => (s.workerPc i).call
  | .client c => (s.clientPc c).call?

theorem call_worker {s : State T} {i : ℕ} {pc : CallPc T} :
    s.call (.worker i) = some pc ↔ ∃ task n, s.workerPc i = .running task n (some pc) := by
  cases hpc : s.workerPc i <;> simp [call, WorkerPc.call, hpc]

theorem call_client {s : State T} {c : ℕ} {pc : CallPc T} :
    s.call (.client c) = some pc ↔ s.clientPc c = .call pc := by
  cases hpc : s.clientPc c <;> simp [call, ClientPc.call?, hpc]

abbrev goWorker (s : State T) (i : ℕ) (pc : WorkerPc T) : State T :=
  { s with workerPc := Function.update s.workerPc i pc }

abbrev goClient (s : State T) (c : ℕ) (pc : ClientPc T) : State T :=
  { s with clientPc := Function.update s.clientPc c pc }

theorem goWorker_self (s : State T) (i : ℕ) (pc : WorkerPc T) :
    (s.goWorker i pc).workerPc i = pc := Function.update_self ..

theorem goClient_self (s : State T) (c : ℕ) (pc : ClientPc T) :
    (s.goClient c pc).clientPc c = pc := Function.update_self ..

end State

variable {T : Type}

/-! ## `enqueue`, `enqueue_future` and `pending_tasks` -/

/-- One step of thread `t`; no program point is left when the method returns, or throws
(`enqueue_future` on a stopped pool). -/
def callStep (t : Thread) (wake : Option Thread) (pc : CallPc T) (s : State T) :
    Option (State T × Option (CallPc T)) :=
  match pc with
  | .lock how task =>
      (s.queue_mutex_.lock t).map fun m => ({ s with queue_mutex_ := m }, some (.test how task))
  | .test how task => some (s, some (if s.stop_ then .refuse how task else .emplace task))
  | .refuse how task =>
      some ({ s with
        queue_mutex_ := none
        refused := s.refused ++ [(task, how.refusal)] }, none)
  | .emplace task =>
      some ({ s with tasks_ := s.tasks_ ++ [task], accepted := s.accepted ++ [task] },
        some .unlock)
  | .unlock => some ({ s with queue_mutex_ := none }, some .notify)
  | .notify => (s.condition_.notifyOne wake).map fun cv => ({ s with condition_ := cv }, none)
  | .pendingLock =>
      (s.queue_mutex_.lock t).map fun m => ({ s with queue_mutex_ := m }, some .pendingSize)
  | .pendingSize => some (s, some (.pendingUnlock s.tasks_.length))
  | .pendingUnlock _ => some ({ s with queue_mutex_ := none }, none)

/-! ## The workers -/

def workerStep (i : ℕ) (wake : Option Thread) (s : State T) : Option (State T) :=
  match s.workerPc i with
  | .lock =>
      (s.queue_mutex_.lock (.worker i)).map fun m =>
        { s with queue_mutex_ := m }.goWorker i .check
  | .check =>
      some (s.goWorker i (if s.stop_ || !s.tasks_.isEmpty then .exitTest else .block))
  | .block =>
      some ({ s with
        queue_mutex_ := none
        condition_ := s.condition_.block (.worker i) }.goWorker i .waiting)
  | .waiting =>
      if .worker i ∈ s.condition_ then none
      else (s.queue_mutex_.lock (.worker i)).map fun m =>
        { s with queue_mutex_ := m }.goWorker i .check
  | .exitTest =>
      some (s.goWorker i (if s.stop_ && s.tasks_.isEmpty then .leaveExit else .take))
  | .leaveExit => some ({ s with queue_mutex_ := none }.goWorker i .ended)
  | .take =>
      match s.tasks_ with
      | [] => none
      | task :: rest =>
          some ({ s with tasks_ := rest, taken := s.taken ++ [task] }.goWorker i
            (.leaveTake task s.taken.length))
  | .leaveTake task n => some ({ s with queue_mutex_ := none }.goWorker i (.run task n))
  | .run task n =>
      some ({ s with begun := s.begun ++ [(task, n)] }.goWorker i (.running task n none))
  | .running task n none =>
      some ({ s with finished := s.finished ++ [(task, n)] }.goWorker i .lock)
  | .running task n (some pc) =>
      (callStep (.worker i) wake pc s).map fun (s', call) => s'.goWorker i (.running task n call)
  | .ended => none

/-! ## The clients -/

/-- `threads` is the constructor's argument; `0` is raised to `1`. -/
def clientStep (threads c : ℕ) (wake : Option Thread) (s : State T) : Option (State T) :=
  match s.clientPc c with
  | .out => none
  | .call pc =>
      (callStep (.client c) wake pc s).map fun (s', call) =>
        s'.goClient c (match call with | none => .out | some pc' => .call pc')
  | .construct =>
      if s.workers_ < max threads 1 then
        some ({ s with workers_ := s.workers_ + 1 }.goWorker s.workers_ .lock)
      else some ({ s with phase := .alive }.goClient c .out)
  | .destroyLock =>
      (s.queue_mutex_.lock (.client c)).map fun m =>
        { s with queue_mutex_ := m }.goClient c .destroySet
  | .destroySet => some ({ s with stop_ := true }.goClient c .destroyUnlock)
  | .destroyUnlock => some ({ s with queue_mutex_ := none }.goClient c .destroyNotify)
  | .destroyNotify => some ({ s with condition_ := [] }.goClient c (.destroyJoin 0))
  | .destroyJoin i =>
      if i < s.workers_ then
        match s.workerPc i with
        | .ended => some (s.goClient c (.destroyJoin (i + 1)))
        | _ => none
      else some ({ s with phase := .destroyed }.goClient c .out)

/-! ## The machine -/

inductive Op (T : Type) where
  | enqueue (task : T)
  | enqueueFuture (task : T)
  | pendingTasks

def Op.entry : Op T → CallPc T
  | .enqueue task => .lock .enqueue task
  | .enqueueFuture task => .lock .enqueueFuture task
  | .pendingTasks => .pendingLock

/-- What the scheduler picks. `wake` is the worker that a `notify_one` unblocks. -/
inductive Action (T : Type) where
  | worker (i : ℕ) (wake : Option Thread)
  | client (c : ℕ) (wake : Option Thread)
  | call (c : ℕ) (op : Op T)
  | nest (i : ℕ) (op : Op T)
  | destroy (c : ℕ)
  | spurious (t : Thread)

/-- The thread that runs. -/
def Action.thread : Action T → Option Thread
  | .worker i _ => some (.worker i)
  | .client c _ => some (.client c)
  | _ => none

/-- The start of a call is the caller's choice, the other actions are not. -/
def Action.starts : Action T → Bool
  | .call .. | .nest .. => true
  | _ => false

def step (threads : ℕ) (s : State T) : Action T → Option (State T)
  | .worker i wake => if i < s.workers_ then workerStep i wake s else none
  | .client c wake => clientStep threads c wake s
  | .call c op =>
      match s.phase, s.clientPc c with
      | .alive, .out | .destroying, .out => some (s.goClient c (.call op.entry))
      | _, _ => none
  | .nest i op =>
      match s.workerPc i with
      | .running task n none =>
          if i < s.workers_ then some (s.goWorker i (.running task n (some op.entry))) else none
      | _ => none
  | .destroy c =>
      match s.phase, s.clientPc c with
      | .alive, .out => some ({ s with phase := .destroying }.goClient c .destroyLock)
      | _, _ => none
  | .spurious t => some { s with condition_ := s.condition_.erase t }

/-- `thread_pool(threads)` about to create its workers, called by client 0. -/
def State.initial : State T where
  tasks_ := []
  queue_mutex_ := none
  condition_ := []
  stop_ := false
  workers_ := 0
  workerPc := fun _ => .lock
  clientPc := Function.update (fun _ => .out) 0 .construct
  phase := .constructing
  accepted := []
  taken := []
  begun := []
  finished := []
  refused := []

def machine (threads : ℕ) : Machine (State T) (Action T) where
  init := fun s => s = State.initial
  step := step threads

/-! ## Schedules -/

/-- A call by client 0 that takes `n` steps and wakes nobody. -/
def runCall (op : Op T) (n : ℕ) : List (Action T) :=
  .call 0 op :: List.replicate n (.client 0 none)

def runWorker (n : ℕ) : List (Action T) := List.replicate n (.worker 0 none)

end ThreadPool
