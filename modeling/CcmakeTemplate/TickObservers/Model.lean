import CcmakeTemplate.PeriodicWork.Model
import CcmakeTemplate.MessageDistribute.Model

/-!
# `periodicWork` with its `tickObservers_`

The machines of `periodicWork` and of its `messageDistribute<>` side by side. A worker ends
each round with `tickObservers_.distribute()`. Clients, the callback of a round and the
observers call `addCallback`, `removeCallback`, `setPeriod` and `setCallback`, and an
observer runs on a worker of the distributor's pool.

A thread is in one of the two components at a time, and each component has its own numbers
for the threads. An even client is the same client in both. Client `2 * i + 1` of
`periodicWork` is worker `i` of the pool, and client `2 * i + 1` of the distributor is
worker `i` of `periodicWork`. The timers call no method of the distributor.

`F` stands for the callbacks and `G` for the observers.
-/

namespace TickObservers

open Concurrency

def inObservers : PeriodicWork.Thread → Option ThreadPool.Thread
  | .job .timer _ => none
  | .job .worker i => some (.client (2 * i + 1))
  | .client c => some (if c % 2 = 0 then .client c else .worker (c / 2))

def inWork : ThreadPool.Thread → PeriodicWork.Thread
  | .worker i => .client (2 * i + 1)
  | .client c => if c % 2 = 0 then .client c else .job .worker (c / 2)

/-- The default argument of `messageDistribute`. -/
def poolSize : ℕ := 2

structure State (F G : Type) where
  work : PeriodicWork.State F
  tickObservers_ : MessageDistribute.State G Unit
  /-- Worker `i` has called `distribute` in this round. -/
  distributing : ℕ → Bool

namespace State

variable {F G : Type}

/-- The thread is not inside the distributor, which exists. -/
def free (s : State F G) (u : PeriodicWork.Thread) : Bool :=
  match inObservers u with
  | none => true
  | some v => s.tickObservers_.free v

/-- The thread runs code that may call `addCallback` and `removeCallback`. -/
def calling (s : State F G) : PeriodicWork.Thread → Bool
  | .job .timer _ => false
  | .job .worker i =>
      match s.work.workerPc i with
      | .inTask _ none => true
      | _ => false
  | .client c =>
      match s.work.clientPc c with
      | .out => true
      | _ => false

end State

inductive Action (F G : Type) where
  | work (a : PeriodicWork.Action F)
  | distribute (i : ℕ)
  | observers (a : MessageDistribute.Action G Unit)

variable {F G : Type}

/-- The worker has called `distribute` if that is what it does next. -/
def State.distributed (s : State F G) : PeriodicWork.Action F → Bool
  | .worker i _ _ =>
      match s.work.workerPc i with
      | .distribute => s.distributing i
      | _ => true
  | _ => true

/-- The steps of the distributor that are not the call of `distribute`: `clear` and
`callbackCount` have no counterpart in `periodicWork`, and an observer returns from what it
calls before it ends. The object outlives its calls. -/
def State.admits (s : State F G) : MessageDistribute.Action G Unit → Bool
  | .start v (.addUpdateCallback _) | .start v (.removeUpdateCallback _) => s.calling (inWork v)
  | .start .. => false
  | .finish i _ => s.calling (inWork (.worker i))
  | .pool (.destroy _) => false
  | .pool _ | .own _ => true

def step (maxLag : ℕ) (s : State F G) : Action F G → Option (State F G)
  | .work a =>
      if a.mover.all s.free && s.distributed a then
        (PeriodicWork.step maxLag s.work a).map fun work =>
          match a with
          | .worker i _ _ => { s with work, distributing := Function.update s.distributing i false }
          | _ => { s with work }
      else none
  | .distribute i =>
      match s.work.workerPc i with
      | .distribute =>
          if s.distributing i then none
          else (MessageDistribute.step poolSize s.tickObservers_
              (.start (.client (2 * i + 1)) (.distribute ()))).map fun tickObservers_ =>
            { s with tickObservers_, distributing := Function.update s.distributing i true }
      | _ => none
  | .observers a =>
      if s.admits a then
        (MessageDistribute.step poolSize s.tickObservers_ a).map fun tickObservers_ =>
          { s with tickObservers_ }
      else none

/-- `periodicWork(callback, period, maxLag)` about to construct `tickObservers_`. -/
def State.initial (callback : Option F) (period maxLag : ℕ) : State F G where
  work := .initial callback period maxLag
  tickObservers_ := .initial
  distributing := fun _ => false

def machine (callback : Option F) (period maxLag : ℕ) : Machine (State F G) (Action F G) where
  init := fun s => s = State.initial callback period maxLag
  step := step maxLag

/-- Only client 0 calls `start` and `stop`. -/
def OneControl (s : State F G) : Action F G → Prop
  | .work a => PeriodicWork.OneControl s.work a
  | _ => True

instance (s : State F G) (a : Action F G) : Decidable (OneControl s a) := by
  cases a <;> unfold OneControl <;> infer_instance

/-! ## Schedules -/

/-- The constructor, by client 0. -/
def runConstructor : List (Action F G) :=
  List.replicate 3 (.observers (.pool (.client 0 none)))

def runWork (as : List (PeriodicWork.Action F)) : List (Action F G) := as.map .work

end TickObservers
