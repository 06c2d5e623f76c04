import CcmakeTemplate.Semaphore.Model
import Mathlib.Algebra.Group.Nat.Defs

/-!
# `periodicWork` as a machine

The threads of a `periodicWork` are its timers (`timerJob`), its workers
(`workerJob`) and the clients, which run `start`, `stop`, `setPeriod` and
`setCallback`. There is one step for each load, store, lock, unlock, wait,
notification, thread creation, join and deletion of `periodicWork.h`, and the calls
on `sem_` run the steps of `counting_semaphore`. A callback runs inside its round
and may itself call `setPeriod` and `setCallback`. The atomics are sequentially
consistent.

Timers, workers and semaphores are numbered in the order of their creation; the
number is the address of the object. A thread that dereferences a null pointer, or
uses a deleted `std::thread`, is at `fault`. `tickObservers_.distribute()` is one
step.

`F` stands for the callbacks (`none` is a null `std::function`), and times are in
nanoseconds. The fields under "history" record what happened. No step reads them.
-/

namespace PeriodicWork

open Concurrency Semaphore

/-! ## Data -/

inductive Job where
  | timer | worker
deriving DecidableEq

inductive Thread where
  | job (j : Job) (i : ℕ)
  | client (c : ℕ)
deriving DecidableEq

/-- A `std::thread` on the heap. -/
structure ThreadObject where
  joined : Bool := false
  deleted : Bool := false
deriving DecidableEq

/-- What a worker does that can be seen from outside. -/
inductive Event (F : Type) where
  | began
  | called (f : F)
  | distributed
deriving DecidableEq

/-- Program points of `timerJob`. The `try_release` before the loop and the one
inside it are told apart by `first`, and `timedOut` is what `wait_until` reported
last. -/
inductive TimerPc where
  | semTest (first : Bool)
  | semDeref (first : Bool)
  | release (first : Bool) (k : ℕ) (pc : SemPc)
  | now
  | loop
  | addPeriod
  | lock
  | testQuit (timedOut : Bool)
  | testChanged (timedOut : Bool)
  | block
  | waiting
  | relock (timedOut : Bool)
  | quitTest
  | leaveQuit
  | unlock
  | changedTest
  | clearChanged
  | resetNow
  | ended
  | fault
deriving DecidableEq

/-- Program points of `setPeriod` and `setCallback`. -/
inductive SetPc (F : Type) where
  | periodStore (period : ℕ)
  | periodChanged
  | periodNotify
  | callbackLock (f : Option F)
  | callbackAssign (f : Option F)
  | callbackUnlock
deriving DecidableEq

/-- Program points of `workerJob`. `inTask` runs the callback, which may itself be
inside a call. -/
inductive WorkerPc (F : Type) where
  | loop
  | semTest
  | semDeref
  | acquire (k : ℕ) (pc : SemPc)
  | quitTest
  | lockTask
  | copyTask
  | unlockTask (localTask : Option F)
  | callTask (localTask : Option F)
  | inTask (f : F) (call : Option (SetPc F))
  | distribute
  | ended
  | fault
deriving DecidableEq

inductive StopPc where
  | lock
  | setQuit
  | unlock
  | notify
  | semTest
  | semDeref
  | sem (k : ℕ) (pc : SemPc)
  | joinTest (j : Job)
  | joinable (j : Job)
  | join (j : Job)
  | delete (j : Job)
  | null (j : Job)
  | resetSem
  | deleteSem (k : ℕ)
deriving DecidableEq

/-- Program points of `start` after its call of `stop`. -/
inductive StartPc where
  | quit
  | changed
  | sem
  | deleteSem (k : ℕ)
  | create (j : Job)
  | assign (j : Job) (i : ℕ)
deriving DecidableEq

/-- Program points of the public methods; `out` is outside all of them, and `again`
marks the `stop` at the beginning of a `start`. -/
inductive CallPc (F : Type) where
  | out
  | set (pc : SetPc F)
  | stop (again : Bool) (pc : StopPc)
  | start (pc : StartPc)
  | fault
deriving DecidableEq

structure State (F : Type) where
  task : Option F
  periodMs : ℕ
  threadQuit : Bool
  periodChanged_ : Bool
  /-- `timerThread_` and `workerThread_`. -/
  thread_ : Job → Option ℕ
  sem_ : Option ℕ
  workLock : Mutex Thread
  workCv : CondVar Thread
  clock : ℕ
  /-- The semaphores created so far are those below `semCnt`. -/
  sems : ℕ → CountingSemaphore Thread
  semCnt : ℕ
  semDeleted : ℕ → Bool
  /-- The threads created so far are those below `created`. -/
  created : Job → ℕ
  object : Job → ℕ → ThreadObject
  timerPc : ℕ → TimerPc
  nextRun : ℕ → ℕ
  workerPc : ℕ → WorkerPc F
  clientPc : ℕ → CallPc F
  /-- History: what each worker did. -/
  log : ℕ → List (Event F)
  /-- History: the period that each timer's deadline was computed from. -/
  planned : ℕ → ℕ
  /-- History: the waits of each timer that ended at their deadline. -/
  expired : ℕ → ℕ
  /-- History: the calls of `try_release` of each timer. -/
  tries : ℕ → ℕ

namespace State

variable {F : Type}

abbrev goTimer (s : State F) (i : ℕ) (pc : TimerPc) : State F :=
  { s with timerPc := Function.update s.timerPc i pc }

abbrev goWorker (s : State F) (i : ℕ) (pc : WorkerPc F) : State F :=
  { s with workerPc := Function.update s.workerPc i pc }

abbrev goClient (s : State F) (c : ℕ) (pc : CallPc F) : State F :=
  { s with clientPc := Function.update s.clientPc c pc }

abbrev setNextRun (s : State F) (i : ℕ) (time : ℕ) : State F :=
  { s with nextRun := Function.update s.nextRun i time }

abbrev record (s : State F) (i : ℕ) (event : Event F) : State F :=
  { s with log := Function.update s.log i (s.log i ++ [event]) }

abbrev setThread (s : State F) (j : Job) (thread : Option ℕ) : State F :=
  { s with thread_ := Function.update s.thread_ j thread }

abbrev setObject (s : State F) (j : Job) (i : ℕ) (object : ThreadObject) : State F :=
  { s with object := Function.update s.object j (Function.update (s.object j) i object) }

abbrev setSem (s : State F) (k : ℕ) (sem : CountingSemaphore Thread) : State F :=
  { s with sems := Function.update s.sems k sem }

/-- The function of the thread has returned, so `join` succeeds. -/
def ended (s : State F) : Job → ℕ → Bool
  | .timer, i => match s.timerPc i with | .ended => true | _ => false
  | .worker, i => match s.workerPc i with | .ended => true | _ => false

/-- A step of thread `t` inside a call on semaphore `k`. -/
def semCall (s : State F) (t : Thread) (fails : Bool) (wake : Option Thread) (k : ℕ)
    (pc : SemPc) : Option (State F × SemPc) :=
  (semStep t fails wake pc (s.sems k)).map fun (sem, pc') => (s.setSem k sem, pc')

end State

variable {F : Type}

/-- `static_cast<std::ptrdiff_t>(maxLag_)`. -/
def ptrdiff (maxLag : ℕ) : ℤ := Int.bmod maxLag (2 ^ 64)

/-! ## `timerJob` -/

/-- What follows a `try_release`. -/
def afterTick (first : Bool) : TimerPc := if first then .now else .loop

def timerJobStep (i : ℕ) (fails : Bool) (wake : Option Thread) (timedOut : Bool)
    (s : State F) : Option (State F) :=
  match s.timerPc i with
  | .semTest first =>
      some (s.goTimer i (if s.sem_.isSome then .semDeref first else afterTick first))
  | .semDeref first =>
      match s.sem_ with
      | none => some (s.goTimer i .fault)
      | some k =>
          some ({ s with tries := Function.update s.tries i (s.tries i + 1) }.goTimer i
            (.release first k SemOp.tryRelease.entry))
  | .release first _ .out => some (s.goTimer i (afterTick first))
  | .release first k pc =>
      (s.semCall (.job .timer i) fails wake k pc).map fun (s', pc') =>
        s'.goTimer i (.release first k pc')
  | .now => some ((s.setNextRun i s.clock).goTimer i .loop)
  | .loop => some (s.goTimer i (if s.threadQuit then .ended else .addPeriod))
  | .addPeriod =>
      some (({ s with planned := Function.update s.planned i s.periodMs }.setNextRun i
        (s.nextRun i + s.periodMs * 1000000)).goTimer i .lock)
  | .lock =>
      (s.workLock.lock (.job .timer i)).map fun m =>
        { s with workLock := m }.goTimer i (.testQuit false)
  | .testQuit timedOut =>
      some (s.goTimer i (if s.threadQuit then .quitTest else .testChanged timedOut))
  | .testChanged timedOut =>
      if s.periodChanged_ then some (s.goTimer i .quitTest)
      else if timedOut then
        some ({ s with expired := Function.update s.expired i (s.expired i + 1) }.goTimer i
          .quitTest)
      else some (s.goTimer i .block)
  | .block =>
      some ({ s with
        workLock := none
        workCv := s.workCv.block (.job .timer i) }.goTimer i .waiting)
  | .waiting =>
      -- a sleeper that nobody notified goes on only once its deadline has passed
      if (.job .timer i ∈ s.workCv → timedOut) ∧ (timedOut → s.nextRun i ≤ s.clock) then
        some ({ s with workCv := s.workCv.erase (.job .timer i) }.goTimer i (.relock timedOut))
      else none
  | .relock timedOut =>
      (s.workLock.lock (.job .timer i)).map fun m =>
        { s with workLock := m }.goTimer i (.testQuit timedOut)
  | .quitTest => some (s.goTimer i (if s.threadQuit then .leaveQuit else .unlock))
  | .leaveQuit => some ({ s with workLock := none }.goTimer i .ended)
  | .unlock => some ({ s with workLock := none }.goTimer i .changedTest)
  | .changedTest => some (s.goTimer i (if s.periodChanged_ then .clearChanged else .semTest false))
  | .clearChanged => some ({ s with periodChanged_ := false }.goTimer i .resetNow)
  | .resetNow => some ((s.setNextRun i s.clock).goTimer i .loop)
  | .ended => none
  | .fault => none

/-! ## `setPeriod` and `setCallback` -/

/-- One step of thread `t`; no program point is left when the method returns. -/
def setStep (t : Thread) (wake : Option Thread) (pc : SetPc F) (s : State F) :
    Option (State F × Option (SetPc F)) :=
  match pc with
  | .periodStore period => some ({ s with periodMs := period }, some .periodChanged)
  | .periodChanged => some ({ s with periodChanged_ := true }, some .periodNotify)
  | .periodNotify => (s.workCv.notifyOne wake).map fun cv => ({ s with workCv := cv }, none)
  | .callbackLock f =>
      (s.workLock.lock t).map fun m => ({ s with workLock := m }, some (.callbackAssign f))
  | .callbackAssign f => some ({ s with task := f }, some .callbackUnlock)
  | .callbackUnlock => some ({ s with workLock := none }, none)

/-! ## `workerJob` -/

def workerJobStep (i : ℕ) (fails : Bool) (wake : Option Thread) (s : State F) :
    Option (State F) :=
  match s.workerPc i with
  | .loop => some (s.goWorker i (if s.threadQuit then .ended else .semTest))
  | .semTest => some (s.goWorker i (if s.sem_.isSome then .semDeref else .ended))
  | .semDeref =>
      match s.sem_ with
      | none => some (s.goWorker i .fault)
      | some k => some (s.goWorker i (.acquire k SemOp.acquire.entry))
  | .acquire _ .out => some (s.goWorker i .quitTest)
  | .acquire k pc =>
      (s.semCall (.job .worker i) fails wake k pc).map fun (s', pc') =>
        s'.goWorker i (.acquire k pc')
  | .quitTest =>
      if s.threadQuit then some (s.goWorker i .ended)
      else some ((s.record i .began).goWorker i .lockTask)
  | .lockTask =>
      (s.workLock.lock (.job .worker i)).map fun m => { s with workLock := m }.goWorker i .copyTask
  | .copyTask => some (s.goWorker i (.unlockTask s.task))
  | .unlockTask localTask => some ({ s with workLock := none }.goWorker i (.callTask localTask))
  | .callTask none => some (s.goWorker i .distribute)
  | .callTask (some f) => some ((s.record i (.called f)).goWorker i (.inTask f none))
  | .inTask _ none => some (s.goWorker i .distribute)
  | .inTask f (some pc) =>
      (setStep (.job .worker i) wake pc s).map fun (s', call) => s'.goWorker i (.inTask f call)
  | .distribute => some ((s.record i .distributed).goWorker i .loop)
  | .ended => none
  | .fault => none

/-! ## `stop` and `start` -/

/-- What follows a `stop`: the rest of the `start` that called it, or nothing. -/
def afterStop (again : Bool) : CallPc F := if again then .start .quit else .out

def afterJoin : Job → StopPc
  | .timer => .joinTest .worker
  | .worker => .delete .timer

def afterDelete : Job → StopPc
  | .timer => .delete .worker
  | .worker => .null .timer

def afterNull : Job → StopPc
  | .timer => .null .worker
  | .worker => .resetSem

def afterAssign : Job → CallPc F
  | .timer => .start (.create .worker)
  | .worker => .out

def stopStep (t : Thread) (fails : Bool) (wake : Option Thread) (again : Bool) (pc : StopPc)
    (s : State F) : Option (State F × CallPc F) :=
  match pc with
  | .lock => (s.workLock.lock t).map fun m => ({ s with workLock := m }, .stop again .setQuit)
  | .setQuit => some ({ s with threadQuit := true }, .stop again .unlock)
  | .unlock => some ({ s with workLock := none }, .stop again .notify)
  | .notify =>
      (s.workCv.notifyOne wake).map fun cv => ({ s with workCv := cv }, .stop again .semTest)
  | .semTest => some (s, .stop again (if s.sem_.isSome then .semDeref else .joinTest .timer))
  | .semDeref =>
      match s.sem_ with
      | none => some (s, .fault)
      | some k => some (s, .stop again (.sem k SemOp.stop.entry))
  | .sem _ .out => some (s, .stop again (.joinTest .timer))
  | .sem k pc => (s.semCall t fails wake k pc).map fun (s', pc') => (s', .stop again (.sem k pc'))
  | .joinTest j =>
      some (s, .stop again (if (s.thread_ j).isSome then .joinable j else afterJoin j))
  | .joinable j =>
      match s.thread_ j with
      | none => some (s, .fault)
      | some i =>
          if (s.object j i).deleted then some (s, .fault)
          else some (s, .stop again (if (s.object j i).joined then afterJoin j else .join j))
  | .join j =>
      match s.thread_ j with
      | none => some (s, .fault)
      | some i =>
          if (s.object j i).deleted || (s.object j i).joined then some (s, .fault)
          else if s.ended j i then
            some (s.setObject j i { s.object j i with joined := true }, .stop again (afterJoin j))
          else none
  | .delete j =>
      match s.thread_ j with
      | none => some (s, .stop again (afterDelete j))
      | some i =>
          -- `~thread` of a thread that was not joined terminates the program
          if (s.object j i).deleted || !(s.object j i).joined then some (s, .fault)
          else some (s.setObject j i { s.object j i with deleted := true },
            .stop again (afterDelete j))
  | .null j => some (s.setThread j none, .stop again (afterNull j))
  | .resetSem =>
      match s.sem_ with
      | none => some (s, afterStop again)
      | some k => some ({ s with sem_ := none }, .stop again (.deleteSem k))
  | .deleteSem k =>
      some ({ s with semDeleted := Function.update s.semDeleted k true }, afterStop again)

/-- The thread begins at the start of its function. -/
def startThread (s : State F) (i : ℕ) : Job → State F
  | .timer => s.goTimer i (.semTest true)
  | .worker => s.goWorker i .loop

def startStep (maxLag : ℕ) (pc : StartPc) (s : State F) : Option (State F × CallPc F) :=
  match pc with
  | .quit => some ({ s with threadQuit := false }, .start .changed)
  | .changed => some ({ s with periodChanged_ := false }, .start .sem)
  | .sem =>
      some ({ s with sem_ := some s.semCnt, semCnt := s.semCnt + 1 }.setSem s.semCnt
          (CountingSemaphore.new (ptrdiff maxLag)),
        .start (match s.sem_ with | none => .create .timer | some k => .deleteSem k))
  | .deleteSem k =>
      some ({ s with semDeleted := Function.update s.semDeleted k true }, .start (.create .timer))
  | .create j =>
      let i := s.created j
      some (startThread ({ s with created := Function.update s.created j (i + 1) }.setObject j i {})
        i j, .start (.assign j i))
  | .assign j i => some (s.setThread j (some i), afterAssign j)

/-! ## The machine -/

/-- The calls that are open to every thread, and to the callbacks. -/
inductive SetOp (F : Type) where
  | setPeriod (period : ℕ)
  | setCallback (f : Option F)

def SetOp.entry : SetOp F → SetPc F
  | .setPeriod period => .periodStore period
  | .setCallback f => .callbackLock f

def callStep (maxLag : ℕ) (t : Thread) (fails : Bool) (wake : Option Thread) (pc : CallPc F)
    (s : State F) : Option (State F × CallPc F) :=
  match pc with
  | .out => none
  | .set pc =>
      (setStep t wake pc s).map fun (s', call) =>
        (s', match call with | none => .out | some pc' => .set pc')
  | .stop again pc => stopStep t fails wake again pc s
  | .start pc => startStep maxLag pc s
  | .fault => none

/-- What the scheduler picks: `fails` makes a weak exchange fail, `wake` is the
sleeper that a `notify_one` unblocks, and `timedOut` ends a wait at its deadline. -/
inductive Action (F : Type) where
  | timer (i : ℕ) (fails : Bool) (wake : Option Thread) (timedOut : Bool)
  | worker (i : ℕ) (fails : Bool) (wake : Option Thread)
  | client (c : ℕ) (fails : Bool) (wake : Option Thread)
  | set (c : ℕ) (op : SetOp F)
  | nest (i : ℕ) (op : SetOp F)
  | start (c : ℕ)
  | stop (c : ℕ)
  | tick (time : ℕ)
  | spurious (t : Thread)

/-- The thread that an action moves. -/
def Action.mover : Action F → Option Thread
  | .timer i _ _ _ => some (.job .timer i)
  | .worker i _ _ | .nest i _ => some (.job .worker i)
  | .client c _ _ | .set c _ | .start c | .stop c => some (.client c)
  | .tick _ | .spurious _ => none

def step (maxLag : ℕ) (s : State F) : Action F → Option (State F)
  | .timer i fails wake timedOut =>
      if i < s.created .timer then timerJobStep i fails wake timedOut s else none
  | .worker i fails wake => if i < s.created .worker then workerJobStep i fails wake s else none
  | .client c fails wake =>
      (callStep maxLag (.client c) fails wake (s.clientPc c) s).map fun (s', pc) =>
        s'.goClient c pc
  | .set c op =>
      match s.clientPc c with
      | .out => some (s.goClient c (.set op.entry))
      | _ => none
  | .nest i op =>
      match s.workerPc i with
      | .inTask f none =>
          if i < s.created .worker then some (s.goWorker i (.inTask f (some op.entry))) else none
      | _ => none
  | .start c =>
      match s.clientPc c with
      | .out => some (s.goClient c (.stop true .lock))
      | _ => none
  | .stop c =>
      match s.clientPc c with
      | .out => some (s.goClient c (.stop false .lock))
      | _ => none
  | .tick time => some { s with clock := s.clock + time }
  | .spurious t =>
      some { s with
        workCv := s.workCv.erase t
        sems := fun k => { s.sems k with cv_ := (s.sems k).cv_.erase t } }

/-- `periodicWork(callback, period, maxLag)`. -/
def State.initial (callback : Option F) (period maxLag : ℕ) : State F where
  task := callback
  periodMs := period
  threadQuit := false
  periodChanged_ := false
  thread_ := fun _ => none
  sem_ := none
  workLock := none
  workCv := []
  clock := 0
  sems := fun _ => CountingSemaphore.new (ptrdiff maxLag)
  semCnt := 0
  semDeleted := fun _ => false
  created := fun _ => 0
  object := fun _ _ => {}
  timerPc := fun _ => .semTest true
  nextRun := fun _ => 0
  workerPc := fun _ => .loop
  clientPc := fun _ => .out
  log := fun _ => []
  planned := fun _ => 0
  expired := fun _ => 0
  tries := fun _ => 0

def machine (callback : Option F) (period maxLag : ℕ) : Machine (State F) (Action F) where
  init := fun s => s = State.initial callback period maxLag
  step := step maxLag

/-- Only client 0, which is none of the object's own threads, calls `start` and
`stop`. -/
def OneControl (_ : State F) : Action F → Prop
  | .start c | .stop c => c = 0
  | _ => True

instance (s : State F) (a : Action F) : Decidable (OneControl s a) := by
  cases a <;> unfold OneControl <;> infer_instance

/-! ## Schedules -/

/-- `start()` by client 0 on an object that is stopped. -/
def runStart : List (Action F) := .start 0 :: List.replicate 19 (.client 0 false none)

def runTimer (n : ℕ) : List (Action F) := List.replicate n (.timer 0 false none false)

def runWorker (n : ℕ) : List (Action F) := List.replicate n (.worker 0 false none)

end PeriodicWork
