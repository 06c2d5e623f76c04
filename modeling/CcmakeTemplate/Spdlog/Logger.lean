import CcmakeTemplate.Spdlog.CircularQ
import CcmakeTemplate.SqliteSink.Levels

/-!
# `logger` and its backtracer

A logger passes a message on to its sinks when the level of the message is high enough, and
its backtracer keeps every message while it is enabled. `dump_backtrace` passes on what the
backtracer has kept, between two markers.

The calls of a logger are taken one after the other, and the sinks keep their levels. Of a
message only what the logger reads is kept: the name, the level and the payload.
-/

namespace Spdlog

open SqliteSink (Level)

/-! ## Messages and what becomes of them -/

structure LogMsg where
  logger_name : String
  level : Level
  payload : String
deriving DecidableEq

instance : Inhabited LogMsg := ⟨⟨"", .off, ""⟩⟩

/-- The calls of the sinks by a `logger`, and of the thread pool by an `async_logger`. -/
inductive Event where
  | log (sink : ℕ) (msg : LogMsg)
  | flush (sink : ℕ)
  | postLog (msg : LogMsg)
  | postFlush
deriving DecidableEq

/-! ## `backtracer` -/

structure Backtracer where
  enabled_ : Bool
  messages_ : CircularQ LogMsg

namespace Backtracer

/-- `backtracer()`. -/
def new : Backtracer := ⟨false, .disabled⟩

def enable (size : ℕ) : Backtracer := ⟨true, .new size⟩

def disable (t : Backtracer) : Backtracer := { t with enabled_ := false }

def enabled (t : Backtracer) : Bool := t.enabled_

def pushBack (t : Backtracer) (msg : LogMsg) : Backtracer :=
  { t with messages_ := t.messages_.pushBack msg }

def empty (t : Backtracer) : Bool := t.messages_.empty

end Backtracer

/-- The loop of `foreach_pop`, for at most `n` rounds: the messages that `fun` is applied to,
and the queue that is left. -/
def popAll {α : Type} : ℕ → CircularQ α → List α × CircularQ α
  | 0, q => ([], q)
  | n + 1, q =>
      if q.empty then ([], q)
      else
        match q.front, q.popFront with
        | some msg, some q' => (msg :: (popAll n q').1, (popAll n q').2)
        | _, _ => ([], q)

def Backtracer.foreachPop (t : Backtracer) : List LogMsg × Backtracer :=
  let (msgs, q) := popAll t.messages_.size t.messages_
  (msgs, { t with messages_ := q })

/-! ## `logger` -/

/-- Which of the two classes `sink_it_` and `flush_` belong to. -/
inductive Kind where
  | logger | asyncLogger
deriving DecidableEq

structure Logger where
  kind : Kind
  name_ : String
  /-- The sinks with their levels. -/
  sinks_ : List (ℕ × Level)
  level_ : Level
  flush_level_ : Level
  tracer_ : Backtracer

namespace Logger

def new (kind : Kind) (name : String) (sinks : List (ℕ × Level)) : Logger where
  kind := kind
  name_ := name
  sinks_ := sinks
  level_ := .info
  flush_level_ := .off
  tracer_ := .new

def shouldLog (l : Logger) (msg_level : Level) : Bool := decide (l.level_.val ≤ msg_level.val)

def shouldFlush (l : Logger) (msg : LogMsg) : Bool :=
  decide (l.flush_level_.val ≤ msg.level.val) && msg.level != .off

def flush (l : Logger) : List Event :=
  match l.kind with
  | .logger => l.sinks_.map fun sink => .flush sink.1
  | .asyncLogger => [.postFlush]

def sinkIt (l : Logger) (msg : LogMsg) : List Event :=
  match l.kind with
  | .logger =>
      ((l.sinks_.filter fun sink => decide (sink.2.val ≤ msg.level.val)).map
        fun sink => .log sink.1 msg) ++ if l.shouldFlush msg then l.flush else []
  | .asyncLogger => [.postLog msg]

def logIt (l : Logger) (msg : LogMsg) (log_enabled traceback_enabled : Bool) :
    List Event × Logger :=
  (if log_enabled then l.sinkIt msg else [],
    if traceback_enabled then { l with tracer_ := l.tracer_.pushBack msg } else l)

def log (l : Logger) (lvl : Level) (payload : String) : List Event × Logger :=
  let log_enabled := l.shouldLog lvl
  let traceback_enabled := l.tracer_.enabled
  if !log_enabled && !traceback_enabled then ([], l)
  else l.logIt ⟨l.name_, lvl, payload⟩ log_enabled traceback_enabled

def startMarker (l : Logger) : LogMsg :=
  ⟨l.name_, .info, "****************** Backtrace Start ******************"⟩

def endMarker (l : Logger) : LogMsg :=
  ⟨l.name_, .info, "****************** Backtrace End ********************"⟩

def dumpBacktrace (l : Logger) : List Event × Logger :=
  if l.tracer_.enabled && !l.tracer_.empty then
    let (msgs, tracer) := l.tracer_.foreachPop
    (l.sinkIt l.startMarker ++ msgs.flatMap l.sinkIt ++ l.sinkIt l.endMarker,
      { l with tracer_ := tracer })
  else ([], l)

/-! ## Calls in any order -/

inductive Op where
  | log (lvl : Level) (payload : String)
  | enableBacktrace (n_messages : ℕ)
  | disableBacktrace
  | dumpBacktrace
  | setLevel (log_level : Level)
  | flushOn (log_level : Level)
  | flush
deriving DecidableEq

def step (l : Logger) : Op → List Event × Logger
  | .log lvl payload => l.log lvl payload
  | .enableBacktrace n_messages => ([], { l with tracer_ := .enable n_messages })
  | .disableBacktrace => ([], { l with tracer_ := l.tracer_.disable })
  | .dumpBacktrace => l.dumpBacktrace
  | .setLevel log_level => ([], { l with level_ := log_level })
  | .flushOn log_level => ([], { l with flush_level_ := log_level })
  | .flush => (l.flush, l)

/-- What the calls emit, and the logger after them. -/
def run (l : Logger) (ops : List Op) : List Event × Logger :=
  ops.foldl (fun (events, l) op => (events ++ (l.step op).1, (l.step op).2)) ([], l)

theorem run_snoc (l : Logger) (ops : List Op) (op : Op) :
    l.run (ops ++ [op]) =
      ((l.run ops).1 ++ ((l.run ops).2.step op).1, ((l.run ops).2.step op).2) := by
  unfold run
  rw [List.foldl_append]
  rfl

end Logger

end Spdlog
