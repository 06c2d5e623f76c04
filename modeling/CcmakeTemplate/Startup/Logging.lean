import CcmakeTemplate.Startup.Model
import CcmakeTemplate.Spdlog.Settings

/-!
# The logger that `spdlog_init` leaves behind

`spdlog::enable_backtrace(32)` is called before the global logger is there. It reaches the
loggers that are registered by then, and the global logger, which comes in through
`set_default_logger`, is none of them. It never records anything.
-/

namespace Startup

open Args Posix Spdlog Concurrency
open SqliteSink (Level)

/-! ## The loop over the loggers -/

variable {s : Registered} {id : ℕ}

/-- What holds of one logger and is kept in each round. -/
theorem foldl_keeps {P : Logger → Prop} {f : String → Logger → Logger}
    (hf : ∀ key l, P l → P (f key l)) (entries : List (String × ℕ)) (h : P (s.object id)) :
    P ((entries.foldl (Registered.visit f) s).object id) := by
  induction entries generalizing s with
  | nil => exact h
  | cons entry entries ih =>
      apply ih
      by_cases hid : id = entry.2
      · subst hid
        show P ((s.set entry.2 _).object entry.2)
        rw [Registered.set_self]
        exact hf _ _ h
      · show P ((s.set entry.2 _).object id)
        rw [Registered.set_of_ne s _ hid]
        exact h

/-- What `set_level` does with one logger. -/
def atLevel (log_level : Level) (_ : String) (l : Logger) : Logger := { l with level_ := log_level }

theorem foldl_level (log_level : Level) {entries : List (String × ℕ)}
    (h : id ∈ entries.map Prod.snd) :
    ((entries.foldl (Registered.visit (atLevel log_level)) s).object id).level_ = log_level := by
  induction entries generalizing s with
  | nil => cases h
  | cons entry entries ih =>
      rw [List.foldl_cons]
      by_cases hid : id = entry.2
      · have hset : ((s.visit (atLevel log_level) entry).object id).level_ = log_level := by
          rw [hid]
          exact congrArg Logger.level_ (Registered.set_self ..)
        exact foldl_keeps (P := fun l => l.level_ = log_level) (fun _ _ _ => rfl) entries hset
      · exact ih ((List.mem_cons.mp h).resolve_left hid)

/-- The level of a registered logger is set and nothing else, however often the loop comes
by. -/
theorem setLevel_object {name : String} (h : (name, id) ∈ s.registry.loggers_)
    (log_level : Level) :
    (s.setLevel log_level).object id = { s.object id with level_ := log_level } := by
  have hlevel := foldl_level (s := s) log_level (List.mem_map.mpr ⟨_, h, rfl⟩)
  have hsame := foldl_keeps (s := s)
    (P := fun l => l = s.object id ∨ l = { s.object id with level_ := log_level })
    (f := atLevel log_level) (by
      rintro _ _ (rfl | rfl)
      · exact .inr rfl
      · exact .inr rfl) s.registry.loggers_ (.inl rfl)
  refine hsame.elim (fun hsame => ?_) fun hsame => hsame
  rw [hsame] at hlevel
  subst hlevel
  exact hsame

/-! ## The global logger -/

def globalLogger (sinks : List (ℕ × Level)) : Logger :=
  { Logger.new .asyncLogger "global_logger" sinks with level_ := .debug }

/-- The global logger is the default logger, and it is in use. -/
structure Ready (id : ℕ) (sinks : List (ℕ × Level)) (s : Registered) : Prop where
  default : s.registry.default_logger_ = some id
  object : s.object id = globalLogger sinks

/-- A message to the default logger is posted, and nothing is recorded. -/
theorem Ready.info {sinks : List (ℕ × Level)} (h : Ready id sinks s) (payload : String) :
    spdlogInfo s payload = ([.postLog ⟨"global_logger", .info, payload⟩], s) := by
  have hcall : s.call (.api (.log .info payload)) =
      some (s.callLogger id (.log .info payload)) := by
    show s.registry.default_logger_.map _ = _
    rw [h.default]
    rfl
  have hstep : (s.object id).step (.log .info payload) =
      ([.postLog ⟨"global_logger", .info, payload⟩], s.object id) := by
    rw [h.object]
    rfl
  have hset : s.set id (s.object id) = s := by
    unfold Registered.set
    rw [Function.update_eq_self]
  simp only [spdlogInfo, hcall, Registered.callLogger, hstep, hset]

/-- The file sinks of the global logger. -/
def filesFor (enabled : Bool) (logFilePath : Text) : List Sink :=
  if enabled then fileSinks logFilePath else []

/-- The text of the second message to the global logger. -/
def pathMessage (enabled : Bool) (logFilePath : Text) : String :=
  if enabled then "file sink for log path:" ++ String.ofList logFilePath
  else "file path not avaiable, file sink disabled."

variable {B : Type} {env : Environment B} {fs fs' : FileSystem B} {path : Text} {enabled : Bool}

/-- The two ways out of `spdlog_init` after the test of the path, apart from the normal one. -/
def Throws (env : Environment B) (enabled : Bool) : Option String :=
  match if enabled then env.rotating else none with
  | some what => some what
  | none =>
      if env.hardware_concurrency == 0 || decide (1000 < env.hardware_concurrency) then
        some invalidThreadsN
      else none

theorem spdlogInit_error (id : ℕ) (s : Registered) {what : String}
    (h : enableFileSink env fs path = .error what) :
    (spdlogInit env id fs s path).fs = fs ∧
      (spdlogInit env id fs s path).thrown = some what := by
  unfold spdlogInit
  rw [h]
  exact ⟨rfl, rfl⟩

theorem spdlogInit_thrown (h : enableFileSink env fs path = .ok (enabled, fs')) :
    (spdlogInit env id fs s path).thrown = Throws env enabled := by
  unfold spdlogInit Throws
  rw [h]
  cases hrotating : (if enabled then env.rotating else none) with
  | some what => simp only [hrotating]
  | none =>
      simp only [hrotating]
      split <;> rfl

theorem installGlobalLogger_ready (id : ℕ) (sinks : List Sink) (s : Registered) :
    Ready id ((List.range sinks.length).map fun sink => (sink, .trace))
      (installGlobalLogger id sinks s) := by
  generalize hl : Logger.new .asyncLogger "global_logger"
    ((List.range sinks.length).map fun sink => (sink, Level.trace)) = l
  have hself : ((s.set id l).setDefaultLogger (some id)).object id = l := Registered.set_self ..
  have hname : l.name_ = "global_logger" := by rw [← hl]; rfl
  have hmem : ("global_logger", id) ∈
      ((s.set id l).setDefaultLogger (some id)).registry.loggers_ := by
    show _ ∈ (((s.set id l).object id).name_, id) :: _
    rw [Registered.set_self, hname]
    exact List.mem_cons_self
  constructor
  · show (((s.set id _).setDefaultLogger (some id)).forEach _).registry.default_logger_ = _
    rw [Registered.forEach_registry]
    rfl
  · unfold installGlobalLogger
    rw [hl, setLevel_object hmem, hself, globalLogger, hl]

/-- What `spdlog_init` comes to without an exception: the global logger is there, with its
sinks and its level, and it has been sent two messages. -/
theorem spdlogInit_eq (hfile : enableFileSink env fs path = .ok (enabled, fs'))
    (h : (spdlogInit env id fs s path).thrown = none) :
    spdlogInit env id fs s path =
      { fs := sinkWrites env fs' (filesFor enabled path)
        sinks := .stdoutColorSinkMt :: filesFor enabled path
        registered := installGlobalLogger id (.stdoutColorSinkMt :: filesFor enabled path)
          (s.enableBacktrace 32)
        events := setup 0 "console log successful setup." ++
          (if enabled then setup 1 "text log successful setup." ++
            setup 2 "sqlite3 log successful setup." else []) ++
          [.postLog ⟨"global_logger", .info, "This is a test message"⟩] ++
          [.postLog ⟨"global_logger", .info, pathMessage enabled path⟩]
        thrown := none } := by
  rw [spdlogInit_thrown hfile] at h
  unfold Throws at h
  unfold spdlogInit
  rw [hfile]
  cases hrotating : (if enabled then env.rotating else none) with
  | some what => simp [hrotating] at h
  | none =>
      have hthreads : (env.hardware_concurrency == 0 ||
          decide (1000 < env.hardware_concurrency)) = false := by
        simpa [hrotating] using h
      have hready := installGlobalLogger_ready id (.stdoutColorSinkMt :: filesFor enabled path)
        (s.enableBacktrace 32)
      unfold filesFor at hready
      simp only [hrotating, hthreads, Bool.false_eq_true, if_false]
      rw [hready.info, hready.info]
      rfl

/-- Without an exception the path has been tested. -/
theorem enableFileSink_of_none (h : (spdlogInit env id fs s path).thrown = none) :
    ∃ enabled fs', enableFileSink env fs path = .ok (enabled, fs') := by
  cases hfile : enableFileSink env fs path with
  | error what =>
      rw [(spdlogInit_error id s hfile).2] at h
      cases h
  | ok r => exact ⟨r.1, r.2, rfl⟩

/-! ## The backtrace of the global logger -/

/-- The call turns the backtrace of this logger on again, or may do so. -/
def Enables (id : ℕ) (s : Registered) : Registered.Call → Prop
  | .enableBacktrace _ => True
  | .initializeLogger id' => id' = id
  | .logger id' (.enableBacktrace _) => id' = id
  | .api (.enableBacktrace _) => s.registry.default_logger_ = some id
  | _ => False

def Off (l : Logger) : Prop := l.tracer_.enabled_ = false

theorem Off.step {l : Logger} (h : Off l) {op : Logger.Op}
    (hop : ∀ n_messages, op ≠ .enableBacktrace n_messages) : Off (l.step op).2 := by
  cases op with
  | log lvl payload =>
      have hsame := Registered.step_settings (l := l)
        (show Registered.Uses (.log lvl payload) from trivial)
      exact hsame.2.2.1.trans h
  | dumpBacktrace =>
      have hsame := Registered.step_settings (l := l)
        (show Registered.Uses .dumpBacktrace from trivial)
      exact hsame.2.2.1.trans h
  | enableBacktrace n_messages => exact absurd rfl (hop n_messages)
  | disableBacktrace => rfl
  | setLevel | flushOn | flush => exact h

theorem Off.set (h : Off (s.object id)) {id' : ℕ} {l : Logger} (hl : id' = id → Off l) :
    Off ((s.set id' l).object id) := by
  by_cases hid : id = id'
  · subst hid
    rw [Registered.set_self]
    exact hl rfl
  · rw [Registered.set_of_ne s _ hid]
    exact h

theorem Off.forEach (h : Off (s.object id)) {f : String → Logger → Logger}
    (hf : ∀ key l, Off l → Off (f key l)) : Off ((s.forEach f).object id) :=
  foldl_keeps hf s.registry.loggers_ h

theorem Off.call (h : Off (s.object id)) {c : Registered.Call} (hc : ¬ Enables id s c)
    {o : Registered.Outcome} (hcall : s.call c = some o) : Off (o.state.object id) := by
  cases c with
  | registerLogger id' =>
      cases hcall
      unfold Registered.registerLogger
      split <;> exact h
  | initializeLogger id' =>
      cases hcall
      have hset : Off ((s.set id' (s.initialized (s.object id'))).object id) :=
        h.set fun hid => absurd hid hc
      unfold Registered.initializeLogger Registered.registerLogger
      split
      · split <;> exact hset
      · exact hset
  | setDefaultLogger new_default_logger =>
      cases hcall
      cases new_default_logger <;> exact h
  | enableBacktrace => exact absurd trivial hc
  | disableBacktrace =>
      cases hcall
      exact Off.forEach (s := s.setRegistry _) h fun _ _ _ => rfl
  | setLevel =>
      cases hcall
      exact Off.forEach (s := s) h fun _ _ hl => hl
  | flushOn =>
      cases hcall
      exact Off.forEach (s := s) h fun _ _ hl => hl
  | setLevels =>
      cases hcall
      exact Off.forEach (s := s.setRegistry _) h fun _ _ hl => hl
  | applyLoggerEnvLevels id' =>
      cases hcall
      exact h.set fun hid => hid ▸ h
  | drop | dropAll | setAutomaticRegistration | flushAll =>
      cases hcall
      exact h
  | logger id' op =>
      cases hcall
      refine h.set fun hid => ?_
      subst hid
      refine h.step fun n_messages hop => hc ?_
      subst hop
      rfl
  | api op =>
      obtain ⟨id', hdefault, rfl⟩ := Option.map_eq_some_iff.mp hcall
      refine h.set fun hid => ?_
      subst hid
      refine h.step fun n_messages hop => hc ?_
      subst hop
      exact hdefault

theorem installGlobalLogger_backtrace (id : ℕ) (sinks : List Sink) (s : Registered)
    (n_messages : ℕ) :
    (installGlobalLogger id sinks (s.enableBacktrace n_messages)).registry.backtrace_n_messages_ =
      n_messages := by
  show (Registered.forEach _ _).registry.backtrace_n_messages_ = n_messages
  rw [Registered.forEach_registry]
  show (Registered.forEach _ _).registry.backtrace_n_messages_ = n_messages
  rw [Registered.forEach_registry]
  rfl

/-- The backtrace that `spdlog_init` turns on is the one of the loggers before it. Whatever is
logged through the global logger, a dump of its backtrace passes nothing on, until somebody
turns it on once more. -/
theorem backtrace_never_on (h : (spdlogInit env id fs s path).thrown = none) {s' : Registered}
    (hrun : Registered.machine.RunBy (fun s c => ¬ Enables id s c)
      (spdlogInit env id fs s path).registered s') :
    (spdlogInit env id fs s path).registered.registry.backtrace_n_messages_ = 32 ∧
      ((s'.object id).step .dumpBacktrace).1 = [] := by
  obtain ⟨enabled, fs', hfile⟩ := enableFileSink_of_none h
  have hoff : Off (s'.object id) := by
    refine hrun.invariant (P := fun s => Off (s.object id)) ?_ ?_
    · rw [spdlogInit_eq hfile h, (installGlobalLogger_ready id _ _).object]
      rfl
    · intro s c s' hs hc hstep
      obtain ⟨o, ho, rfl⟩ := Option.map_eq_some_iff.mp hstep
      exact hs.call hc ho
  refine ⟨by rw [spdlogInit_eq hfile h, installGlobalLogger_backtrace], ?_⟩
  show (s'.object id).dumpBacktrace.1 = []
  unfold Logger.dumpBacktrace
  rw [if_neg]
  simp [Backtracer.enabled, show (s'.object id).tracer_.enabled_ = false from hoff]

/-- A root directory with nothing in it. -/
def emptyRoot : FileSystem UInt8 where
  entry := fun loc => if loc = [] then some .directory else none
  cwd := []
  root := rfl
  parent := by
    intro name dir hentry
    exact absurd (if_neg (List.cons_ne_nil name dir)) hentry
  cwd_directory := rfl

/-- A machine with four processors and without variables. -/
def fourThreads : Environment UInt8 where
  ENABLE_PROJECT_ARCHIEVE := true
  binaryInfo := ""
  help := []
  getenv := fun _ => none
  tempError := "Not a directory".toList
  statError := fun _ => none
  openProbe := none
  removeProbe := none
  rotating := none
  rotatingWrites := ⟨fun _ fs => fs, .refl⟩
  sqliteWrites := ⟨fun _ fs => fs, .refl⟩
  hardware_concurrency := 4

/-- A program that begins, with its default logger as number 0. -/
def begun : Registered := ⟨.new, fun _ => .new .logger "" [(0, .trace)]⟩

/-- After the startup the first logger would record a message, and the global one does not. -/
theorem backtrace_never_on_two :
    let started := spdlogInit fourThreads 1 emptyRoot begun []
    ∃ s', Registered.machine.RunBy (fun s c => ¬ Enables 1 s c) started.registered s' ∧
      (s'.object 0).tracer_.enabled_ = true ∧
      started.registered.registry.backtrace_n_messages_ = 32 ∧
        ((s'.object 1).step .dumpBacktrace).1 = [] := by
  have hrun : Registered.machine.RunBy (fun s c => ¬ Enables 1 s c)
      (spdlogInit fourThreads 1 emptyRoot begun []).registered
      ((spdlogInit fourThreads 1 emptyRoot begun []).registered.callLogger 1
        (.log .debug "a")).state := .single ⟨.logger 1 (.log .debug "a"), not_false, rfl⟩
  exact ⟨_, hrun, rfl, backtrace_never_on rfl hrun⟩

end Startup
