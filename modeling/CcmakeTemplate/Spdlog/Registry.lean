import CcmakeTemplate.Spdlog.Logger
import CcmakeTemplate.Concurrency.Machine
import Mathlib.Logic.Function.Basic

/-!
# `registry`: the loggers of the program and their settings

Every method of the registry holds `logger_map_mutex_` from its beginning to its end, so the
calls are taken one after the other. A logger is known by a number in the place of its
address. Formatters and error handlers are left out, and so is what owns threads.
-/

namespace Spdlog

open Concurrency
open SqliteSink (Level)

/-! ## Data -/

structure Registry where
  loggers_ : List (String × ℕ)
  log_levels_ : List (String × Level)
  global_log_level_ : Level
  flush_level_ : Level
  default_logger_ : Option ℕ
  automatic_registration_ : Bool
  backtrace_n_messages_ : ℕ
deriving DecidableEq

/-- `registry()`, with the default logger as number 0. -/
def Registry.new : Registry where
  loggers_ := [("", 0)]
  log_levels_ := []
  global_log_level_ := .info
  flush_level_ := .off
  default_logger_ := some 0
  automatic_registration_ := true
  backtrace_n_messages_ := 0

/-- The registry and all loggers, registered or not. -/
structure Registered where
  registry : Registry
  object : ℕ → Logger

namespace Registered

/-- One logger is set. -/
def set (s : Registered) (id : ℕ) (l : Logger) : Registered :=
  { s with object := Function.update s.object id l }

def setRegistry (s : Registered) (f : Registry → Registry) : Registered :=
  { s with registry := f s.registry }

/-- `for (auto &l : loggers_)`. -/
def forEach (f : String → Logger → Logger) (s : Registered) : Registered :=
  s.registry.loggers_.foldl (fun s entry => s.set entry.2 (f entry.1 (s.object entry.2))) s

/-- `loggers_[name] = id`. -/
def assign (s : Registered) (name : String) (id : ℕ) : Registered :=
  s.setRegistry fun r => { r with
    loggers_ := (name, id) :: r.loggers_.filter fun entry => entry.1 != name }

/-- The level that was configured for the logger, or else the global one. -/
def configured (s : Registered) (name : String) : Level :=
  (s.registry.log_levels_.lookup name).getD s.registry.global_log_level_

/-- A call emits events, or it throws. -/
structure Outcome where
  state : Registered
  events : List Event
  thrown : Option String

def done (s : Registered) : Outcome := ⟨s, [], none⟩

/-- `register_logger_`. -/
def registerLogger (s : Registered) (id : ℕ) : Outcome :=
  if (s.registry.loggers_.lookup (s.object id).name_).isSome then
    ⟨s, [], some ("logger with name '" ++ (s.object id).name_ ++ "' already exists")⟩
  else (s.assign (s.object id).name_ id).done

/-- The logger with the settings of the registry. -/
def initialized (s : Registered) (l : Logger) : Logger :=
  { l with
    level_ := s.configured l.name_
    flush_level_ := s.registry.flush_level_
    tracer_ := if 0 < s.registry.backtrace_n_messages_
      then .enable s.registry.backtrace_n_messages_ else l.tracer_ }

def initializeLogger (s : Registered) (id : ℕ) : Outcome :=
  if s.registry.automatic_registration_ then
    (s.set id (s.initialized (s.object id))).registerLogger id
  else (s.set id (s.initialized (s.object id))).done

def setDefaultLogger (s : Registered) (new_default_logger : Option ℕ) : Registered :=
  (match new_default_logger with
    | some id => s.assign (s.object id).name_ id
    | none => s).setRegistry fun r => { r with default_logger_ := new_default_logger }

def enableBacktrace (s : Registered) (n_messages : ℕ) : Registered :=
  (s.setRegistry fun r => { r with backtrace_n_messages_ := n_messages }).forEach
    fun _ l => { l with tracer_ := .enable n_messages }

def disableBacktrace (s : Registered) : Registered :=
  (s.setRegistry fun r => { r with backtrace_n_messages_ := 0 }).forEach
    fun _ l => { l with tracer_ := l.tracer_.disable }

def setLevel (s : Registered) (log_level : Level) : Registered :=
  (s.forEach fun _ l => { l with level_ := log_level }).setRegistry
    fun r => { r with global_log_level_ := log_level }

def flushOn (s : Registered) (log_level : Level) : Registered :=
  (s.forEach fun _ l => { l with flush_level_ := log_level }).setRegistry
    fun r => { r with flush_level_ := log_level }

/-- The default logger goes with the logger of its name. -/
def drop (s : Registered) (logger_name : String) : Registered :=
  let is_default_logger := match s.registry.default_logger_ with
    | some id => (s.object id).name_ == logger_name
    | none => false
  s.setRegistry fun r => { r with
    loggers_ := r.loggers_.filter fun entry => entry.1 != logger_name
    default_logger_ := if is_default_logger then none else r.default_logger_ }

def dropAll (s : Registered) : Registered :=
  s.setRegistry fun r => { r with loggers_ := [], default_logger_ := none }

def setLevels (s : Registered) (levels : List (String × Level)) (global_level : Option Level) :
    Registered :=
  (s.setRegistry fun r => { r with
    log_levels_ := levels
    global_log_level_ := global_level.getD r.global_log_level_ }).forEach fun key l => { l with
      level_ := ((levels.lookup key).orElse fun _ => global_level).getD l.level_ }

def flushAll (s : Registered) : Outcome :=
  ⟨s, s.registry.loggers_.flatMap fun entry => (s.object entry.2).flush, none⟩

/-! ## Calls in any order -/

/-- `api` is a call of the default logger through the functions of `spdlog.h`. -/
inductive Call where
  | registerLogger (id : ℕ)
  | initializeLogger (id : ℕ)
  | setDefaultLogger (new_default_logger : Option ℕ)
  | enableBacktrace (n_messages : ℕ)
  | disableBacktrace
  | setLevel (log_level : Level)
  | flushOn (log_level : Level)
  | drop (logger_name : String)
  | dropAll
  | setAutomaticRegistration (automatic_registration : Bool)
  | setLevels (levels : List (String × Level)) (global_level : Option Level)
  | applyLoggerEnvLevels (id : ℕ)
  | flushAll
  | logger (id : ℕ) (op : Logger.Op)
  | api (op : Logger.Op)

def callLogger (s : Registered) (id : ℕ) (op : Logger.Op) : Outcome :=
  ⟨s.set id ((s.object id).step op).2, ((s.object id).step op).1, none⟩

/-- `none` when the default logger is called and there is none. -/
def call (s : Registered) : Call → Option Outcome
  | .registerLogger id => some (s.registerLogger id)
  | .initializeLogger id => some (s.initializeLogger id)
  | .setDefaultLogger new_default_logger => some (s.setDefaultLogger new_default_logger).done
  | .enableBacktrace n_messages => some (s.enableBacktrace n_messages).done
  | .disableBacktrace => some s.disableBacktrace.done
  | .setLevel log_level => some (s.setLevel log_level).done
  | .flushOn log_level => some (s.flushOn log_level).done
  | .drop logger_name => some (s.drop logger_name).done
  | .dropAll => some s.dropAll.done
  | .setAutomaticRegistration automatic_registration =>
      some (s.setRegistry fun r => { r with
        automatic_registration_ := automatic_registration }).done
  | .setLevels levels global_level => some (s.setLevels levels global_level).done
  | .applyLoggerEnvLevels id =>
      some (s.set id { s.object id with level_ := s.configured (s.object id).name_ }).done
  | .flushAll => some s.flushAll
  | .logger id op => some (s.callLogger id op)
  | .api op => s.registry.default_logger_.map fun id => s.callLogger id op

/-- The program begins with `registry()`; the other loggers may be anything. -/
def machine : Machine Registered Call where
  init := fun s => s.registry = .new ∧ ∃ sink, s.object 0 = .new .logger "" [sink]
  step := fun s c => (s.call c).map Outcome.state

end Registered

end Spdlog
