import Mathlib.Data.List.TakeWhile
import Mathlib.Data.Nat.Digits.Defs
import Mathlib.Logic.Function.Basic

/-!
# `sqlite_sink`

`log` flattens a message into a map from names to strings. `insertLog` looks the names up,
one after the other, and binds what it finds to the parameters of an `INSERT`. The columns
of the table are named a third time, in `tableInit`.

A string is a list of bytes. A `const char *` carries the bytes before its first NUL, and
this is also all that a parameter keeps which is bound with the length -1. A `string_view`
need not end with a NUL, so whoever reads its `data()` as a `const char *` may leave the
object that it lies in, which is undefined behaviour.

`T` stands for the time points. The text that `fmt::format` makes of one, the process id and
what the calls of `sqlite3` return are given from outside.
-/

namespace SqliteSink

/-! ## Strings -/

abbrev Bytes := List UInt8

/-- What is left of a string that is read through a pointer to it. -/
def cString (bytes : Bytes) : Bytes := bytes.takeWhile (· ≠ 0)

/-- The text behind a `const char *`. -/
structure CString where
  bytes : Bytes
  noNul : 0 ∉ bytes

/-- `data` are the bytes from `data()` on to the end of the object that they lie in, `none` for
a null pointer; the view itself is the first `size` of them. -/
structure StringView where
  data : Option Bytes
  size : ℕ
  within : size ≤ (data.getD []).length

/-- `std::string(ptr)`; `none` is undefined behaviour, a null pointer or one that no NUL
follows. -/
def fromPointer : Option Bytes → Option Bytes
  | none => none
  | some bytes => if 0 ∈ bytes then some (cString bytes) else none

def text (s : String) : Bytes := s.toList.map fun c => c.toNat.toUInt8

/-- The decimal digits of a number. -/
def digits (n : ℕ) : Bytes :=
  if n = 0 then text "0" else (Nat.digits 10 n).reverse.map fun d => (48 + d).toUInt8

/-- `std::to_string`. -/
def stdToString (n : ℤ) : Bytes :=
  if n < 0 then text "-" ++ digits n.natAbs else digits n.natAbs

/-! ## Messages -/

inductive Level where
  | trace | debug | info | warn | err | critical | off
deriving DecidableEq

/-- `spdlog::level::to_string_view`. -/
def Level.toStringView : Level → String
  | .trace => "trace"
  | .debug => "debug"
  | .info => "info"
  | .warn => "warning"
  | .err => "error"
  | .critical => "critical"
  | .off => "off"

/-- A null pointer is `none`. -/
structure SourceLoc where
  filename : Option CString
  line : ℤ
  funcname : Option CString

structure LogMsg (T : Type) where
  logger_name : StringView
  level : Level
  time : T
  thread_id : ℕ
  source : SourceLoc
  payload : Bytes

/-! ## `log` -/

abbrev InfoMap := String → Option Bytes

/-- `messageInfoMap[key] = value`. -/
def InfoMap.assign (info : InfoMap) (key : String) (value : Bytes) : InfoMap :=
  Function.update info key (some value)

/-- `ptr ? ptr : ""`. -/
def orBlank : Option CString → Bytes
  | some s => s.bytes
  | none => []

variable {T : Type}

/-- The map that `log` hands to `insertLog`, once the name of the logger could be read. -/
def messageInfoMap (format : T → CString) (currentPID : ℤ) (msg : LogMsg T)
    (loggerName : Bytes) : InfoMap :=
  let info : InfoMap := fun _ => none
  let info := info.assign "timestamp" (format msg.time).bytes
  let info := info.assign "level" (text msg.level.toStringView)
  let info := info.assign "loggerName" loggerName
  let info := info.assign "message" msg.payload
  let info := info.assign "threadID" (stdToString msg.thread_id)
  let info := info.assign "processID" (stdToString currentPID)
  let info := info.assign "file" (orBlank msg.source.filename)
  let info := info.assign "function" (orBlank msg.source.funcname)
  info.assign "line" (stdToString msg.source.line)

/-! ## `insertLog` -/

/-- The columns that `tableInit` creates, after the id. -/
def tableColumns : List String :=
  ["timeStamp", "level", "file", "line", "function", "pid", "tid", "message"]

/-- The columns that the `INSERT` names. Its parameters are their values in this order. -/
def insertColumns : List String :=
  ["timeStamp", "level", "file", "line", "function", "pid", "tid", "message"]

def infoName : List String :=
  ["timestamp", "level", "file", "line", "function", "processID", "threadID", "message"]

/-- The values of the columns of the table; `none` is a column that nothing was bound to. -/
abbrev Row := List (String × Option Bytes)

/-- A statement with the parameters that have been bound so far. -/
abbrev Statement := List Bytes

/-- `bindInfo(name)`: `sqlite3_bind_text` with the length -1 on the next parameter. -/
def bindInfo (info : InfoMap) (stmt : Statement) (name : String) : Statement :=
  stmt ++ [cString ((info name).getD [])]

/-- The row that the statement inserts. -/
def storedRow (stmt : Statement) : Row :=
  tableColumns.map fun column => (column, stmt[insertColumns.idxOf column]?)

/-- What `sqlite3_prepare_v2` and `sqlite3_step` return, an error with its message. -/
structure Sqlite where
  prepare : Except String Unit
  step : Except String Unit

/-- The rows of the table, when the database is open, and what was printed. -/
structure Sink where
  db : Option (List Row)
  cout : List String

def Sink.print (sink : Sink) (line : String) : Sink := { sink with cout := sink.cout ++ [line] }

def insertLog (sqlite : Sqlite) (sink : Sink) (info : InfoMap) : Sink :=
  match sink.db with
  | none => sink
  | some rows =>
      match sqlite.prepare with
      | .error errmsg => sink.print ("Failed to prepare statement: " ++ errmsg)
      | .ok () =>
          let stmt := infoName.foldl (bindInfo info) []
          match sqlite.step with
          | .error errmsg => sink.print ("Failed to insert data: " ++ errmsg)
          | .ok () => { sink with db := some (rows ++ [storedRow stmt]) }

/-- `none` is undefined behaviour. -/
def log (sqlite : Sqlite) (format : T → CString) (currentPID : ℤ) (sink : Sink)
    (msg : LogMsg T) : Option Sink :=
  (fromPointer msg.logger_name.data).map fun loggerName =>
    insertLog sqlite sink (messageInfoMap format currentPID msg loggerName)

end SqliteSink
