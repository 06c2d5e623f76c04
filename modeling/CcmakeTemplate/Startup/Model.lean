import CcmakeTemplate.Args.Model
import CcmakeTemplate.Posix.OutputStream
import CcmakeTemplate.Posix.Removal
import CcmakeTemplate.RotatingFileSink.Model
import CcmakeTemplate.Spdlog.Registry

/-!
# From `main` to the first messages

`main` parses the command line, sets the logging up and ends. Everything that decides where
the log goes is here: the two flags of `processArgs`, the directory for temporary files, and
the test in `spdlog_init` whether a file can be opened in the directory for the log.

The environment says what is not decided by the program: the variables, how the calls of the
file system answer, and what the constructor of the rotating sink throws. What a sink does to
its files, from its constructor to the end of the program, is not looked into here: it may do
anything, but to these files only. Threads and memory do not run out.
-/

namespace Startup

open Args Posix Spdlog

/-! ## What the program finds -/

structure Environment (B : Type) where
  ENABLE_PROJECT_ARCHIEVE : Bool
  /-- `build_info::binaryInfo()`. -/
  binaryInfo : String
  /-- What is printed for the parser. -/
  help : Text
  getenv : String → Option Text
  /-- `what()` of the error of `temp_directory_path`. -/
  tempError : Text
  /-- `what()` of the error when `stat` fails and this does not mean that there is nothing: a
  name is too long, or a directory on the way may not be searched. -/
  statError : Text → Option String
  openProbe : Option Failure
  removeProbe : Option Failure
  rotating : Option String
  rotatingWrites : FileSystem.Writer B
  sqliteWrites : FileSystem.Writer B
  hardware_concurrency : ℕ

variable {B : Type}

/-- `std::filesystem::is_directory`, which throws on such an error. -/
def isDirectory (env : Environment B) (fs : FileSystem B) (path : Text) : Except String Bool :=
  match env.statError path with
  | some what => .error what
  | none =>
      match fs.stat path with
      | .ok .directory => .ok true
      | _ => .ok false

inductive Sink where
  | stdoutColorSinkMt
  | rotatingFileSinkMt (base_filename : Text) (maxSize maxFiles : ℕ)
  | sqliteSink (databaseName : Text)
deriving DecidableEq

def testwriteability : Text := ".testwriteability".toList

/-- The file is opened and removed again; an error of the removal is caught. -/
def probe (env : Environment B) (fs : FileSystem B) (logFilePath : Text) : Bool × FileSystem B :=
  match env.openProbe with
  | some _ => (false, fs)
  | none =>
      match fs.openAppend (child logFilePath testwriteability) with
      | .error _ => (false, fs)
      | .ok (loc, fs) => (true, if env.removeProbe.isSome then fs else fs.unlink loc)

/-- Whether there are file sinks. The path is tested outside the `try`. -/
def enableFileSink (env : Environment B) (fs : FileSystem B) (logFilePath : Text) :
    Except String (Bool × FileSystem B) :=
  if logFilePath.length != 0 then
    match isDirectory env fs logFilePath with
    | .error what => .error what
    | .ok true => .ok (probe env fs logFilePath)
    | .ok false => .ok (false, fs)
  else .ok (false, fs)

/-- The name that the build gives to the program. -/
def projectName : Text := "cmake_cpp_project_template".toList

def textLog : Name := projectName ++ ".log".toList

def sqliteLog : Name := projectName ++ ".sqlite3".toList

def maxFiles : ℕ := 3

def fileSinks (logFilePath : Text) : List Sink :=
  [.rotatingFileSinkMt (child logFilePath textLog) (1024 * 1024 * 10) maxFiles,
    .sqliteSink (child logFilePath sqliteLog)]

/-- The files that the sinks call their own. A database has up to three more beside it. -/
def sinkPaths : Sink → List Text
  | .stdoutColorSinkMt => []
  | .rotatingFileSinkMt base_filename _ maxFiles =>
      (List.range (maxFiles + 1)).map (RotatingFileSink.calcFilename base_filename)
  | .sqliteSink databaseName =>
      ["", "-journal", "-wal", "-shm"].map fun ending => databaseName ++ ending.toList

/-- What the file sinks do to the tree, each in its turn. -/
def sinkWrites (env : Environment B) (fs : FileSystem B) (sinks : List Sink) : FileSystem B :=
  sinks.foldl (fun written sink =>
    match sink with
    | .stdoutColorSinkMt => written
    | .rotatingFileSinkMt .. => env.rotatingWrites.run (fs.locations (sinkPaths sink)) written
    | .sqliteSink _ => env.sqliteWrites.run (fs.locations (sinkPaths sink)) written) fs

/-- A logger "temp" with the one sink logs that the sink is there. -/
def setup (sink : ℕ) (text : String) : List Event :=
  ((Logger.new .logger "temp" [(sink, .trace)]).log .info text).1

/-- `SPDLOG_INFO`. -/
def spdlogInfo (s : Registered) (payload : String) : List Event × Registered :=
  match s.call (.api (.log .info payload)) with
  | some o => (o.events, o.state)
  | none => ([], s)

structure Started (B : Type) where
  fs : FileSystem B
  sinks : List Sink
  registered : Registered
  events : List Event
  thrown : Option String

/-- The text of `thread_pool` for a number of threads that it does not take. -/
def invalidThreadsN : String :=
  "spdlog::thread_pool(): invalid threads_n param (valid range is 1-1000)"

/-- The global logger becomes the default logger, with `id` as its number. -/
def installGlobalLogger (id : ℕ) (sinks : List Sink) (s : Registered) : Registered :=
  let loggers := Logger.new .asyncLogger "global_logger"
    ((List.range sinks.length).map fun sink => (sink, .trace))
  ((s.set id loggers).setDefaultLogger (some id)).setLevel .debug

def spdlogInit (env : Environment B) (id : ℕ) (fs : FileSystem B) (s : Registered)
    (logFilePath : Text) : Started B :=
  let events := setup 0 "console log successful setup."
  match enableFileSink env fs logFilePath with
  | .error what => ⟨fs, [.stdoutColorSinkMt], s, events, some what⟩
  | .ok (enabled, fs) =>
      match if enabled then env.rotating else none with
      | some what =>
          ⟨sinkWrites env fs ((fileSinks logFilePath).take 1), [.stdoutColorSinkMt], s, events,
            some what⟩
      | none =>
          let files := if enabled then fileSinks logFilePath else []
          let fs := sinkWrites env fs files
          let sinks := .stdoutColorSinkMt :: files
          let events := events ++ if enabled then
            setup 1 "text log successful setup." ++ setup 2 "sqlite3 log successful setup." else []
          let s := s.enableBacktrace 32
          if env.hardware_concurrency == 0 || decide (1000 < env.hardware_concurrency) then
            ⟨fs, sinks, s, events, some invalidThreadsN⟩
          else
            let s := installGlobalLogger id sinks s
            let (test, s) := spdlogInfo s "This is a test message"
            let str := if enabled then "file sink for log path:" ++ String.ofList logFilePath
              else "file path not avaiable, file sink disabled."
            let (path, s) := spdlogInfo s str
            ⟨fs, sinks, s, events ++ test ++ path, none⟩

/-! ## `main` -/

end Startup
