import CcmakeTemplate.TickObservers.Model
import CcmakeTemplate.Pipeline.Model

/-!
# `connectPipeline`: a pipeline fed by the ticks

A `periodicWork` with its observers beside the `pipeline` that they feed. `connectPipeline`
registers the observer `[pipe, factory]() { pipe->addJob(factory()); }`, here a connection.
Each tick enqueues a copy of it, which a worker of the observer pool runs: it calls the
factory, and then `addJob` with the result.

A factory is a function of the memory it refers to. It reads the memory when it is called
and writes it when it returns; what it captured by value starts anew in each copy. It may
call the methods of `periodicWork` meanwhile. A factory that returns no job throws.

Worker `i` of the pool is client `2 * i + 1` of the pipeline. Whoever else uses the pipeline
is one of the even clients. The pipeline outlives its connections.

`F` stands for the callbacks of the `periodicWork`, `G` for its other observers and `H` for
the callbacks of the pipeline. `σ` is the memory of the factories.
-/

namespace ConnectPipeline

open Concurrency

inductive Observer (G : Type) where
  | connection (k : ℕ)
  | other (g : G)
deriving DecidableEq

/-- Program points of the observer of connection `k`. -/
inductive ObserverPc (σ I : Type) where
  | enter
  | inFactory (k : ℕ) (read : σ)
  | addJob (k : ℕ) (job : I)
  | inAddJob
  | leave (outcome : MessageDistribute.Outcome)

/-- The arguments of the constructors and of the calls of `connectPipeline`. -/
structure Program (F σ I O : Type) where
  callback : Option F
  period : ℕ
  maxLag : ℕ
  process : I → O
  workerCnt : ℕ
  factory : ℕ → σ → Option I × σ
  memory : ℕ → σ

structure State (F G H σ I O : Type) where
  ticks : TickObservers.State F (Observer G)
  pipe : Pipeline.State I O H
  /-- The number of calls of `connectPipeline`. -/
  connected : ℕ
  /-- What the factory of each connection refers to. -/
  memory : ℕ → σ
  observerPc : ℕ → ObserverPc σ I
  /-- History: what the factory calls of each connection returned, in the order of their
  returns. -/
  results : ℕ → List (Option I)
  /-- History: the jobs with which each connection has called `addJob`, in order. -/
  passed : ℕ → List I

variable {F G H σ I O : Type}

namespace State

abbrev goObserver (s : State F G H σ I O) (i : ℕ) (pc : ObserverPc σ I) : State F G H σ I O :=
  { s with observerPc := Function.update s.observerPc i pc }

/-- The connection whose observer worker `i` of the pool runs. -/
def runs (s : State F G H σ I O) (i : ℕ) : Option ℕ :=
  match s.ticks.tickObservers_.pool_.workerPc i with
  | .running task _ _ =>
      match task.fn with
      | .connection k => some k
      | .other _ => none
  | _ => none

/-- The thread runs code that may call the methods of `periodicWork`. A worker of the pool
does in a factory and in the other observers. -/
def calling (s : State F G H σ I O) : ThreadPool.Thread → Bool
  | .client _ => true
  | .worker i =>
      match s.runs i, s.observerPc i with
      | none, _ | some _, .inFactory .. => true
      | some _, _ => false

/-- Worker `i` of the pool is inside the factory of connection `k`. -/
def inFactory (s : State F G H σ I O) (k i : ℕ) : Bool :=
  match s.observerPc i with
  | .inFactory k' _ => k' = k
  | _ => false

/-- Worker `i` of the pool is back from what the factory called. -/
def returned (s : State F G H σ I O) (i : ℕ) : Bool :=
  s.ticks.tickObservers_.free (.worker i) && s.ticks.calling (.client (2 * i + 1))

end State

inductive Action (F G I H : Type) where
  | ticks (a : TickObservers.Action F (Observer G))
  | connectPipeline (v : ThreadPool.Thread)
  | observer (i : ℕ)
  | pipe (a : Pipeline.Action I H)

/-! ## The observer of a connection -/

def observerStep (p : Program F σ I O) (i : ℕ) (s : State F G H σ I O) :
    Option (State F G H σ I O) :=
  match s.runs i, s.observerPc i with
  | some k, .enter => some (s.goObserver i (.inFactory k (s.memory k)))
  | some _, .inFactory k read =>
      if s.returned i then
        let (job, memory) := p.factory k read
        some ({ s with
          memory := Function.update s.memory k memory
          results := Function.update s.results k (s.results k ++ [job]) }.goObserver i
            (match job with | none => .leave .throws | some job => .addJob k job))
      else none
  | some _, .addJob k job =>
      (Pipeline.step p.process s.pipe (.call (2 * i + 1) (.addJob job))).map fun pipe =>
        { s with pipe, passed := Function.update s.passed k (s.passed k ++ [job]) }.goObserver i
          .inAddJob
  | some _, .inAddJob =>
      match s.pipe.clientPc (2 * i + 1) with
      | .out => some (s.goObserver i (.leave .returns))
      | _ => none
  | some _, .leave _ | none, _ => none

/-! ## The machine -/

def Observer.isConnection : Option (Observer G) → Bool
  | some (.connection _) => true
  | _ => false

/-- Worker `i` of the pool ends the observer as it left it. -/
def State.ends (s : State F G H σ I O) (i : ℕ) (outcome : MessageDistribute.Outcome) : Bool :=
  match s.runs i, s.observerPc i with
  | none, _ => true
  | some _, .leave outcome' => outcome = outcome'
  | some _, _ => false

/-- A connection is registered by `connectPipeline` only, and its observer calls nothing but
its factory and `addJob`. -/
def State.admits (s : State F G H σ I O) : TickObservers.Action F (Observer G) → Bool
  | .observers (.finish i outcome) => s.ends i outcome
  | .observers (.start v op) =>
      s.calling v && (match op with | .addUpdateCallback f => !Observer.isConnection f | _ => true)
  | .work (.set c _) => c % 2 = 0 || s.calling (.worker (c / 2))
  | _ => true

/-- The pipeline's own steps, and the calls of the even clients. -/
def admitsPipe : Pipeline.Action I H → Bool
  | .call c _ => c % 2 = 0
  | .destroy _ => false
  | _ => true

def step (p : Program F σ I O) (s : State F G H σ I O) :
    Action F G I H → Option (State F G H σ I O)
  | .ticks a =>
      if s.admits a then
        (TickObservers.step p.maxLag s.ticks a).map fun ticks =>
          match a with
          | .observers (.finish i _) => { s with ticks }.goObserver i .enter
          | _ => { s with ticks }
      else none
  | .connectPipeline v =>
      if s.calling v then
        (TickObservers.step p.maxLag s.ticks
            (.observers (.start v (.addUpdateCallback (some (.connection s.connected)))))).map
          fun ticks => { s with ticks, connected := s.connected + 1 }
      else none
  | .observer i => observerStep p i s
  | .pipe a =>
      if admitsPipe a then (Pipeline.step p.process s.pipe a).map fun pipe => { s with pipe }
      else none

/-- The `periodicWork` and the pipeline about to be constructed. -/
def State.initial (p : Program F σ I O) : State F G H σ I O where
  ticks := .initial p.callback p.period p.maxLag
  pipe := .initial p.workerCnt
  connected := 0
  memory := p.memory
  observerPc := fun _ => .enter
  results := fun _ => []
  passed := fun _ => []

def machine (p : Program F σ I O) : Machine (State F G H σ I O) (Action F G I H) where
  init := fun s => s = State.initial p
  step := step p

/-- Only client 0 calls `start` and `stop`. -/
def OneControl (s : State F G H σ I O) : Action F G I H → Prop
  | .ticks a => TickObservers.OneControl s.ticks a
  | _ => True

instance (s : State F G H σ I O) (a : Action F G I H) : Decidable (OneControl s a) := by
  cases a <;> unfold OneControl <;> infer_instance

/-! ## The example of the documentation -/

/-- `[&]() { return tick++; }` -/
def counter (tick : ℕ) : Option ℕ × ℕ := (some tick, tick + 1)

/-- `periodicWork(nullptr, 100, 3)` feeds a `doublePipe` with `int tick = 1`. -/
def doublePipe : Program Unit ℕ ℕ ℕ where
  callback := none
  period := 100
  maxLag := 3
  process := fun x => x * 2
  workerCnt := 1
  factory := fun _ => counter
  memory := fun _ => 1

/-! ## Schedules -/

def runTicks (as : List (TickObservers.Action F (Observer G))) : List (Action F G I H) :=
  as.map .ticks

def runDistributor (as : List (MessageDistribute.Action (Observer G) Unit)) :
    List (Action F G I H) := runTicks (as.map .observers)

/-- The constructors of `pipeline(1)` and of `periodicWork`, a call of `connectPipeline` and
a `start`, all by client 0, and the first tick. -/
def runConnected : List (Action F G I H) :=
  runTicks TickObservers.runConstructor ++ Pipeline.runConstructor.map .pipe ++
    .connectPipeline (.client 0) :: runDistributor (List.replicate 4 (.own (.client 0))) ++
    runTicks (TickObservers.runWork (PeriodicWork.runStart ++ PeriodicWork.runTimer 9))

/-- The timer sleeps for a period of 100 ms, and ticks again. -/
def runPeriod : List (Action F G I H) :=
  runTicks (TickObservers.runWork (PeriodicWork.runTimer 7 ++
    .tick 100000000 :: List.replicate 15 (.timer 0 false none true)))

/-- A round without a callback: its `distribute` enqueues one observer. -/
def runRound : List (Action F G I H) :=
  runTicks (TickObservers.runWork (PeriodicWork.runWorker 11) ++ [.distribute 0]) ++
    runDistributor (List.replicate 4 (.own (.client 1)) ++
      List.replicate 5 (.pool (.client 1 none)) ++ [.own (.client 1)]) ++
    runTicks (TickObservers.runWork (PeriodicWork.runWorker 1))

/-- Worker `i` of the observer pool takes the observer and makes `n` steps in it. -/
def runObserver (i n : ℕ) : List (Action F G I H) :=
  runDistributor (List.replicate 6 (.pool (.worker i none))) ++ List.replicate n (.observer i)

end ConnectPipeline
