import CcmakeTemplate.Concurrency.Machine
import CcmakeTemplate.Concurrency.Sync
import Mathlib.Logic.Function.Basic

/-!
# `pipeline<Tinput, Toutput>` as a machine

Every thread that touches a pipeline is modelled with one step for each lock,
unlock, wait, notification and shared access of `pipeline.hpp` and
`threadInfo.h`: the process workers (`processWorkerJob`), the callback workers
(`callbackJob`) and the clients, which run the public methods, the constructor
and the destructor. Local computation is merged into the shared access before
it.

`I`, `O` and `F` stand for `Tinput`, `Toutput` and the callbacks that
`setCallback` installs (`none` is a null `std::function`). Workers are numbered
in the order of their creation; the number is the address of the worker's
`threadInfo`.

The fields under "history" record what happened. No step reads them.
-/

namespace Pipeline

open Concurrency

/-! ## Data -/

/-- `threadStatus` (`threadInfo.h`). -/
inductive ThreadStatus where
  | UNKNOW | BUSY | IDLE | EXITED
deriving DecidableEq

/-- The part of `threadInfo` that other threads read or write. -/
structure ThreadInfo where
  quit : Bool := false
  status : ThreadStatus := .UNKNOW
deriving DecidableEq

/-- Which worker list `hireFireWorker` is called for. -/
inductive Crew where
  | process | callback
deriving DecidableEq

inductive Thread where
  | worker (crew : Crew) (i : ℕ)
  | client (c : ℕ)
deriving DecidableEq

/-- Program points of `processWorkerJob`. A point that comes after the pop
carries the worker's local `jobInfo` or `product`. -/
inductive ProcessPc (I O : Type) where
  | start
  | loop
  | idle
  | lockProcess
  | check
  | block
  | wait
  | busy
  | branch
  | leaveQuit
  | leaveEmpty
  | leaveTake (jobInfo : I)
  | callProcess (jobInfo : I)
  | lockOutput (product : O)
  | push (product : O)
  | unlockOutput
  | testCallback
  | notify
  | exit
  | ended
  | pureVirtualCall (jobInfo : I)
deriving DecidableEq

/-- Program points of `hireFireWorker`, with `~threadInfo` inlined. -/
inductive HirePc where
  | hire
  | pushBack (id : ℕ)
  | early
  | fire
  | status (id : ℕ)
  | setQuit (id : ℕ)
  | notifyAll (id : ℕ)
  | join (id : ℕ)
  | popFront
deriving DecidableEq

/-- What runs after `hireFireWorker` returns: the caller of a public setter, the
second hiring of the constructor, or the rest of the destructor. -/
inductive Return where
  | caller
  | constructorProcess (workerCnt : ℕ)
  | constructorEnd
  | destructorOutput
  | destructorEnd
deriving DecidableEq

/-- Program points of the public methods; `out` is outside all of them. -/
inductive CallPc (I F : Type) where
  | out
  | addJobLock (meterial : I)
  | addJobPush (meterial : I)
  | addJobNotify
  | addJobUnlock
  | getProductLock
  | getProductTake
  | getProductUnlock
  | countLock
  | countSizes
  | countScan (rest : List ℕ) (pendingCnt finishedCnt processingCnt : ℕ)
  | countUnlock (pendingCnt finishedCnt processingCnt : ℕ)
  | setCallbackLock (method : Option F)
  | setCallbackAssign (method : Option F)
  | setCallbackUnlock
  | hireFire (crew : Crew) (count : ℕ) (pc : HirePc) (ret : Return)
  | clearProcessLock
  | clearProcessSwap
  | clearProcessUnlock
  | clearOutputLock
  | clearOutputSwap
  | clearOutputUnlock
deriving DecidableEq

/-- Program points of `callbackJob`. `inCallback` runs the user's callback, which
may itself be inside a call to the pipeline; `unlockShared` carries the product
that is to be put back when `callbackFail` is set. -/
inductive CallbackPc (I O F : Type) where
  | start
  | loop
  | idle
  | lockOutput
  | tryShared
  | check
  | unlockCheck (notGonnaLock : Bool)
  | block
  | wait
  | busy
  | branch
  | leaveQuit
  | leaveEmpty
  | leaveTake (jobResult : O)
  | lockShared (jobResult : O)
  | test (jobResult : O)
  | inCallback (outputCallback : F) (jobResult : O) (call : CallPc I F)
  | unlockShared (callbackFail : Option O)
  | lockRequeue (jobResult : O)
  | requeue (jobResult : O)
  | unlockRequeue
  | exit
  | ended
deriving DecidableEq

/-- The life of the object. The override of `process` exists in phase `alive`
only: it is not built yet while the base constructor runs, and it is gone before
the body of `~pipeline` starts. -/
inductive Phase where
  | constructing | alive | destroying | destroyed
deriving DecidableEq

structure State (I O F : Type) where
  queue_process : List I
  queue_output : List O
  outputCallback : Option F
  mutex_process : Mutex Thread
  mutex_output : Mutex Thread
  mutex_outputCallback : SharedMutex Thread
  cv_jobAdd : CondVar Thread
  cv_processFinish : CondVar Thread
  /-- `processWorkerList` and `callbackWorkerList`. -/
  workerList : Crew → List ℕ
  /-- The number of `threadInfo` objects created so far. -/
  hired : Crew → ℕ
  info : Crew → ℕ → ThreadInfo
  processPc : ℕ → ProcessPc I O
  callbackPc : ℕ → CallbackPc I O F
  clientPc : ℕ → CallPc I F
  phase : Phase
  /-- History: the jobs pushed by `addJob`, in order. -/
  added : List I
  /-- History: the products returned by `getProduct`. -/
  fetched : List O
  /-- History: the callback invocations, in the order of their starts. -/
  invoked : List (F × O)
  /-- History: the jobs with which `process` was called without an override. -/
  pureCalls : List I

namespace State

variable {I O F : Type}

abbrev processWorkerList (s : State I O F) : List ℕ := s.workerList .process

abbrev callbackWorkerList (s : State I O F) : List ℕ := s.workerList .callback

abbrev goProcess (s : State I O F) (i : ℕ) (pc : ProcessPc I O) : State I O F :=
  { s with processPc := Function.update s.processPc i pc }

abbrev goCallback (s : State I O F) (i : ℕ) (pc : CallbackPc I O F) : State I O F :=
  { s with callbackPc := Function.update s.callbackPc i pc }

abbrev goClient (s : State I O F) (c : ℕ) (pc : CallPc I F) : State I O F :=
  { s with clientPc := Function.update s.clientPc c pc }

abbrev setInfo (s : State I O F) (crew : Crew) (i : ℕ) (info : ThreadInfo) : State I O F :=
  { s with info := Function.update s.info crew (Function.update (s.info crew) i info) }

abbrev setStatus (s : State I O F) (crew : Crew) (i : ℕ) (status : ThreadStatus) :
    State I O F :=
  s.setInfo crew i { s.info crew i with status := status }

/-- The thread of a worker has returned, so `join` succeeds. -/
def ended (s : State I O F) : Crew → ℕ → Bool
  | .process, i => match s.processPc i with | .ended => true | _ => false
  | .callback, i => match s.callbackPc i with | .ended => true | _ => false

end State

variable {I O F : Type}

/-! ## `processWorkerJob` -/

def processStep (process : I → O) (i : ℕ) (wake : Option Thread) (s : State I O F) :
    Option (State I O F) :=
  match s.processPc i with
  | .start => some ((s.setStatus .process i .IDLE).goProcess i .loop)
  | .loop => some (s.goProcess i (if (s.info .process i).quit then .exit else .idle))
  | .idle => some ((s.setStatus .process i .IDLE).goProcess i .lockProcess)
  | .lockProcess =>
      (s.mutex_process.lock (.worker .process i)).map fun m =>
        { s with mutex_process := m }.goProcess i .check
  | .check =>
      some (s.goProcess i
        (if (s.info .process i).quit || !s.queue_process.isEmpty then .busy else .block))
  | .block =>
      some ({ s with
        mutex_process := none
        cv_jobAdd := s.cv_jobAdd.block (.worker .process i) }.goProcess i .wait)
  | .wait =>
      if .worker .process i ∈ s.cv_jobAdd then none
      else (s.mutex_process.lock (.worker .process i)).map fun m =>
        { s with mutex_process := m }.goProcess i .check
  | .busy => some ((s.setStatus .process i .BUSY).goProcess i .branch)
  | .branch =>
      if (s.info .process i).quit then some (s.goProcess i .leaveQuit)
      else match s.queue_process with
        | [] => some (s.goProcess i .leaveEmpty)
        | job :: rest => some ({ s with queue_process := rest }.goProcess i (.leaveTake job))
  | .leaveQuit => some ({ s with mutex_process := none }.goProcess i .exit)
  | .leaveEmpty => some ({ s with mutex_process := none }.goProcess i .loop)
  | .leaveTake job => some ({ s with mutex_process := none }.goProcess i (.callProcess job))
  | .callProcess job =>
      -- a call without an override is a pure virtual call: the program aborts there
      if s.phase = .alive then some (s.goProcess i (.lockOutput (process job)))
      else some ({ s with pureCalls := s.pureCalls ++ [job] }.goProcess i (.pureVirtualCall job))
  | .lockOutput product =>
      (s.mutex_output.lock (.worker .process i)).map fun m =>
        { s with mutex_output := m }.goProcess i (.push product)
  | .push product =>
      some ({ s with queue_output := s.queue_output ++ [product] }.goProcess i .unlockOutput)
  | .unlockOutput => some ({ s with mutex_output := none }.goProcess i .testCallback)
  | .testCallback =>
      some (s.goProcess i (if s.outputCallback.isSome then .notify else .loop))
  | .notify =>
      (s.cv_processFinish.notifyOne wake).map fun cv =>
        { s with cv_processFinish := cv }.goProcess i .loop
  | .exit => some ((s.setStatus .process i .EXITED).goProcess i .ended)
  | .ended => none
  | .pureVirtualCall _ => none

/-! ## The public methods -/

/-- The statements after `hireFireWorker` returns. -/
def resume (s : State I O F) : Return → State I O F × CallPc I F
  | .caller => (s, .out)
  | .constructorProcess workerCnt => (s, .hireFire .process workerCnt .hire .constructorEnd)
  | .constructorEnd => ({ s with phase := .alive }, .out)
  | .destructorOutput => (s, .clearOutputLock)
  | .destructorEnd => ({ s with phase := .destroyed }, .out)

/-- The thread of a new worker begins at the start of its function. -/
def startWorker (s : State I O F) (i : ℕ) : Crew → State I O F
  | .process => s.goProcess i .start
  | .callback => s.goCallback i .start

/-- `cv.notify_all()` of `~threadInfo`, for the condition variable of the list. -/
def notifyAll (s : State I O F) : Crew → State I O F
  | .process => { s with cv_jobAdd := [] }
  | .callback => { s with cv_processFinish := [] }

/-- `hireFireWorker(count, workerList, cv, m, creater)`. -/
def hireStep (crew : Crew) (count : ℕ) (ret : Return) (pc : HirePc) (s : State I O F) :
    Option (State I O F × CallPc I F) :=
  match pc with
  | .hire =>
      if (s.workerList crew).length < count then
        let id := s.hired crew
        some (startWorker ({ s with hired := Function.update s.hired crew (id + 1) }.setInfo
          crew id {}) id crew, .hireFire crew count (.pushBack id) ret)
      else some (s, .hireFire crew count .early ret)
  | .pushBack id =>
      some ({ s with
        workerList := Function.update s.workerList crew (s.workerList crew ++ [id]) },
        .hireFire crew count .hire ret)
  | .early =>
      -- the test looks at `callbackWorkerList`, whichever list the call is about
      if s.callbackWorkerList.length = count then some (resume s ret)
      else some (s, .hireFire crew count .fire ret)
  | .fire =>
      match s.workerList crew with
      | [] => some (resume s ret)
      | id :: rest =>
          if count < (id :: rest).length then
            some (s, .hireFire crew count (.status id) ret)
          else some (resume s ret)
  | .status id =>
      if (s.info crew id).status = .EXITED then some (s, .hireFire crew count (.join id) ret)
      else some (s, .hireFire crew count (.setQuit id) ret)
  | .setQuit id =>
      some (s.setInfo crew id { s.info crew id with quit := true },
        .hireFire crew count (.notifyAll id) ret)
  | .notifyAll id => some (notifyAll s crew, .hireFire crew count (.status id) ret)
  | .join id =>
      if s.ended crew id then some (s, .hireFire crew count .popFront ret) else none
  | .popFront =>
      some ({ s with
        workerList := Function.update s.workerList crew (s.workerList crew).tail },
        .hireFire crew count .fire ret)

/-- One step of a public method run by thread `t`. -/
def callStep (t : Thread) (wake : Option Thread) (pc : CallPc I F) (s : State I O F) :
    Option (State I O F × CallPc I F) :=
  match pc with
  | .out => none
  | .addJobLock meterial =>
      (s.mutex_process.lock t).map fun m => ({ s with mutex_process := m }, .addJobPush meterial)
  | .addJobPush meterial =>
      some ({ s with
        queue_process := s.queue_process ++ [meterial]
        added := s.added ++ [meterial] }, .addJobNotify)
  | .addJobNotify =>
      (s.cv_jobAdd.notifyOne wake).map fun cv => ({ s with cv_jobAdd := cv }, .addJobUnlock)
  | .addJobUnlock => some ({ s with mutex_process := none }, .out)
  | .getProductLock =>
      (s.mutex_output.lock t).map fun m => ({ s with mutex_output := m }, .getProductTake)
  | .getProductTake =>
      match s.queue_output with
      | [] => some (s, .getProductUnlock)
      | product :: rest =>
          some ({ s with queue_output := rest, fetched := s.fetched ++ [product] },
            .getProductUnlock)
  | .getProductUnlock => some ({ s with mutex_output := none }, .out)
  | .countLock =>
      -- `std::scoped_lock` ends up with both mutexes and never sleeps on one holding the other
      (s.mutex_process.lock t).bind fun m => (s.mutex_output.lock t).map fun m' =>
        ({ s with mutex_process := m, mutex_output := m' }, .countSizes)
  | .countSizes =>
      some (s, .countScan s.processWorkerList s.queue_process.length s.queue_output.length 0)
  | .countScan [] pendingCnt finishedCnt processingCnt =>
      some (s, .countUnlock pendingCnt finishedCnt processingCnt)
  | .countScan (id :: rest) pendingCnt finishedCnt processingCnt =>
      some (s, .countScan rest pendingCnt finishedCnt
        (if (s.info .process id).status = .BUSY then processingCnt + 1 else processingCnt))
  | .countUnlock _ _ _ => some ({ s with mutex_process := none, mutex_output := none }, .out)
  | .setCallbackLock method =>
      (s.mutex_outputCallback.lock t).map fun m =>
        ({ s with mutex_outputCallback := m }, .setCallbackAssign method)
  | .setCallbackAssign method => some ({ s with outputCallback := method }, .setCallbackUnlock)
  | .setCallbackUnlock =>
      some ({ s with mutex_outputCallback := s.mutex_outputCallback.unlock }, .out)
  | .hireFire crew count pc ret => hireStep crew count ret pc s
  | .clearProcessLock =>
      (s.mutex_process.lock t).map fun m => ({ s with mutex_process := m }, .clearProcessSwap)
  | .clearProcessSwap => some ({ s with queue_process := [] }, .clearProcessUnlock)
  | .clearProcessUnlock =>
      some ({ s with mutex_process := none }, .hireFire .process 0 .hire .destructorOutput)
  | .clearOutputLock =>
      (s.mutex_output.lock t).map fun m => ({ s with mutex_output := m }, .clearOutputSwap)
  | .clearOutputSwap => some ({ s with queue_output := [] }, .clearOutputUnlock)
  | .clearOutputUnlock =>
      some ({ s with mutex_output := none }, .hireFire .callback 0 .hire .destructorEnd)

/-! ## `callbackJob` -/

def callbackStep (i : ℕ) (wake : Option Thread) (s : State I O F) : Option (State I O F) :=
  match s.callbackPc i with
  | .start => some ((s.setStatus .callback i .IDLE).goCallback i .loop)
  | .loop => some (s.goCallback i (if (s.info .callback i).quit then .exit else .idle))
  | .idle => some ((s.setStatus .callback i .IDLE).goCallback i .lockOutput)
  | .lockOutput =>
      (s.mutex_output.lock (.worker .callback i)).map fun m =>
        { s with mutex_output := m }.goCallback i .tryShared
  | .tryShared =>
      -- `try_lock_shared`: the predicate answers `false` when the lock is held exclusively; the
      -- standard also lets it fail for no reason, and here it does not
      match s.mutex_outputCallback.lockShared (.worker .callback i) with
      | none => some (s.goCallback i .block)
      | some m => some ({ s with mutex_outputCallback := m }.goCallback i .check)
  | .check =>
      some (s.goCallback i (.unlockCheck ((s.info .callback i).quit ||
        (!s.queue_output.isEmpty && s.outputCallback.isSome))))
  | .unlockCheck notGonnaLock =>
      some ({ s with mutex_outputCallback :=
        s.mutex_outputCallback.unlockShared (.worker .callback i) }.goCallback i
          (if notGonnaLock then .busy else .block))
  | .block =>
      some ({ s with
        mutex_output := none
        cv_processFinish := s.cv_processFinish.block (.worker .callback i) }.goCallback i .wait)
  | .wait =>
      if .worker .callback i ∈ s.cv_processFinish then none
      else (s.mutex_output.lock (.worker .callback i)).map fun m =>
        { s with mutex_output := m }.goCallback i .tryShared
  | .busy => some ((s.setStatus .callback i .BUSY).goCallback i .branch)
  | .branch =>
      if (s.info .callback i).quit then some (s.goCallback i .leaveQuit)
      else match s.queue_output with
        | [] => some (s.goCallback i .leaveEmpty)
        | product :: rest =>
            some ({ s with queue_output := rest }.goCallback i (.leaveTake product))
  | .leaveQuit => some ({ s with mutex_output := none }.goCallback i .exit)
  | .leaveEmpty => some ({ s with mutex_output := none }.goCallback i .loop)
  | .leaveTake product => some ({ s with mutex_output := none }.goCallback i (.lockShared product))
  | .lockShared product =>
      (s.mutex_outputCallback.lockShared (.worker .callback i)).map fun m =>
        { s with mutex_outputCallback := m }.goCallback i (.test product)
  | .test product =>
      match s.outputCallback with
      | none => some (s.goCallback i (.unlockShared (some product)))
      | some f =>
          some ({ s with invoked := s.invoked ++ [(f, product)] }.goCallback i
            (.inCallback f product .out))
  | .inCallback _ _ .out => some (s.goCallback i (.unlockShared none))
  | .inCallback f product call =>
      (callStep (.worker .callback i) wake call s).map fun (s', call') =>
        s'.goCallback i (.inCallback f product call')
  | .unlockShared callbackFail =>
      some ({ s with mutex_outputCallback :=
        s.mutex_outputCallback.unlockShared (.worker .callback i) }.goCallback i
          (match callbackFail with | none => .loop | some product => .lockRequeue product))
  | .lockRequeue product =>
      (s.mutex_output.lock (.worker .callback i)).map fun m =>
        { s with mutex_output := m }.goCallback i (.requeue product)
  | .requeue product =>
      some ({ s with queue_output := s.queue_output ++ [product] }.goCallback i .unlockRequeue)
  | .unlockRequeue => some ({ s with mutex_output := none }.goCallback i .loop)
  | .exit => some ((s.setStatus .callback i .EXITED).goCallback i .ended)
  | .ended => none

/-! ## The machine -/

/-- The calls a thread can make on a pipeline that is alive. -/
inductive Op (I F : Type) where
  | addJob (meterial : I)
  | getProduct
  | getQueueCount
  | setCallback (method : Option F)
  | setProcessWorkerCount (count : ℕ)
  | setCallbackWorkerCount (count : ℕ)

def Op.entry : Op I F → CallPc I F
  | .addJob meterial => .addJobLock meterial
  | .getProduct => .getProductLock
  | .getQueueCount => .countLock
  | .setCallback method => .setCallbackLock method
  | .setProcessWorkerCount count => .hireFire .process count .hire .caller
  | .setCallbackWorkerCount count => .hireFire .callback count .hire .caller

/-- The calls a callback may make on the pipeline that runs it. In `setCallback`
it would lock `mutex_outputCallback` a second time, which a `std::shared_mutex`
does not allow. -/
def Op.nestable : Op I F → Bool
  | .setCallback _ => false
  | _ => true

/-- What the scheduler picks. `wake` is the sleeper that a `notify_one` unblocks. -/
inductive Action (I F : Type) where
  | process (i : ℕ) (wake : Option Thread)
  | callback (i : ℕ) (wake : Option Thread)
  | client (c : ℕ) (wake : Option Thread)
  | call (c : ℕ) (op : Op I F)
  | nest (i : ℕ) (op : Op I F)
  | destroy (c : ℕ)
  | spurious (t : Thread)

def step (process : I → O) (s : State I O F) : Action I F → Option (State I O F)
  | .process i wake => if i < s.hired .process then processStep process i wake s else none
  | .callback i wake => if i < s.hired .callback then callbackStep i wake s else none
  | .client c wake =>
      (callStep (.client c) wake (s.clientPc c) s).map fun (s', pc) => s'.goClient c pc
  | .call c op =>
      match s.phase, s.clientPc c with
      | .alive, .out => some (s.goClient c op.entry)
      | _, _ => none
  | .nest i op =>
      match s.callbackPc i with
      | .inCallback f product .out =>
          if i < s.hired .callback ∧ op.nestable then
            some (s.goCallback i (.inCallback f product op.entry))
          else none
      | _ => none
  | .destroy c =>
      -- the derived part is gone from here on; the body of `~pipeline` follows
      match s.phase, s.clientPc c with
      | .alive, .out => some ({ s with phase := .destroying }.goClient c .clearProcessLock)
      | _, _ => none
  | .spurious t =>
      some { s with
        cv_jobAdd := s.cv_jobAdd.erase t
        cv_processFinish := s.cv_processFinish.erase t }

/-- `pipeline(workerCnt)` about to hire, called by client 0. -/
def State.initial (workerCnt : ℕ) : State I O F where
  queue_process := []
  queue_output := []
  outputCallback := none
  mutex_process := none
  mutex_output := none
  mutex_outputCallback := {}
  cv_jobAdd := []
  cv_processFinish := []
  workerList := fun _ => []
  hired := fun _ => 0
  info := fun _ _ => {}
  processPc := fun _ => .start
  callbackPc := fun _ => .start
  clientPc := Function.update (fun _ => .out) 0
    (.hireFire .callback 1 .hire (.constructorProcess workerCnt))
  phase := .constructing
  added := []
  fetched := []
  invoked := []
  pureCalls := []

def machine (process : I → O) (workerCnt : ℕ) : Machine (State I O F) (Action I F) where
  init := fun s => s = State.initial workerCnt
  step := step process

/-! ## Schedules -/

/-- The schedule that runs `pipeline(1)` to its end. -/
def runConstructor : List (Action I F) := List.replicate 8 (.client 0 none)

/-- A call by client 0 that takes `n` steps and wakes nobody. -/
def runCall (op : Op I F) (n : ℕ) : List (Action I F) :=
  .call 0 op :: List.replicate n (.client 0 none)

def runProcess (n : ℕ) : List (Action I F) := List.replicate n (.process 0 none)

def runCallback (n : ℕ) : List (Action I F) := List.replicate n (.callback 0 none)

end Pipeline
