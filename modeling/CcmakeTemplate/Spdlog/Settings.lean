import CcmakeTemplate.Spdlog.DefaultLogger

/-!
# Loggers that keep up with the settings of the registry

A logger that comes in through `initialize_logger` gets the settings of the registry, and a
later setting is made for all that are registered.
-/

namespace Spdlog

open Concurrency
open SqliteSink (Level)

namespace Registered

variable {s : Registered}

/-! ## Using a logger -/

theorem popFront_max_items {α : Type} {q q' : CircularQ α} (h : q.popFront = some q') :
    q'.max_items_ = q.max_items_ := by
  unfold CircularQ.popFront at h
  split at h
  · cases h
  · cases h
    rfl

theorem popAll_max_items {α : Type} (n : ℕ) (q : CircularQ α) :
    (popAll n q).2.max_items_ = q.max_items_ := by
  induction n generalizing q with
  | zero => rfl
  | succ n ih =>
      unfold popAll
      split
      · rfl
      · split
        · rename_i hpop
          exact (ih _).trans (popFront_max_items hpop)
        · rfl

/-- The calls that use a logger and do not set it. -/
def Uses : Logger.Op → Prop
  | .log _ _ | .dumpBacktrace | .flush => True
  | _ => False

/-- The logger records its last `n` messages, if there is such a number. -/
def Traces (n : ℕ) (t : Backtracer) : Prop :=
  0 < n → t.enabled_ = true ∧ t.messages_.max_items_ = (n + 1) % sizeTRange

/-- A logger that is used keeps its settings. -/
theorem step_settings {l : Logger} {op : Logger.Op} (hop : Uses op) :
    (l.step op).2.level_ = l.level_ ∧ (l.step op).2.flush_level_ = l.flush_level_ ∧
      (l.step op).2.tracer_.enabled_ = l.tracer_.enabled_ ∧
      (l.step op).2.tracer_.messages_.max_items_ = l.tracer_.messages_.max_items_ := by
  cases op with
  | log lvl payload =>
      show (l.log lvl payload).2.level_ = _ ∧ (l.log lvl payload).2.flush_level_ = _ ∧
        (l.log lvl payload).2.tracer_.enabled_ = _ ∧
        (l.log lvl payload).2.tracer_.messages_.max_items_ = _
      have hpush := CircularQ.pushBack_max_items l.tracer_.messages_ ⟨l.name_, lvl, payload⟩
      unfold Logger.log Logger.logIt
      cases l.shouldLog lvl <;> cases l.tracer_.enabled <;> first
        | exact ⟨rfl, rfl, rfl, rfl⟩
        | exact ⟨rfl, rfl, rfl, hpush⟩
  | dumpBacktrace =>
      show l.dumpBacktrace.2.level_ = _ ∧ l.dumpBacktrace.2.flush_level_ = _ ∧
        l.dumpBacktrace.2.tracer_.enabled_ = _ ∧
        l.dumpBacktrace.2.tracer_.messages_.max_items_ = _
      have hpop := popAll_max_items l.tracer_.messages_.size l.tracer_.messages_
      unfold Logger.dumpBacktrace
      split
      · exact ⟨rfl, rfl, rfl, hpop⟩
      · exact ⟨rfl, rfl, rfl, rfl⟩
  | flush => exact ⟨rfl, rfl, rfl, rfl⟩
  | enableBacktrace | disableBacktrace | setLevel | flushOn => cases hop

/-! ## Setting all loggers -/

/-- Loggers come in through `initialize_logger` only, and all settings are made for all of
them. The default logger is chosen among those that are registered. -/
def ByRegistry (s : Registered) : Call → Prop
  | .registerLogger _ | .setLevels _ _ => False
  | .setDefaultLogger (some id) => ((s.object id).name_, id) ∈ s.registry.loggers_
  | .logger _ op | .api op => Uses op
  | _ => True

structure Uniform (s : Registered) : Prop where
  log_levels : s.registry.log_levels_ = []
  level : ∀ entry ∈ s.registry.loggers_, (s.object entry.2).level_ = s.registry.global_log_level_
  flush_level : ∀ entry ∈ s.registry.loggers_,
    (s.object entry.2).flush_level_ = s.registry.flush_level_
  traces : ∀ entry ∈ s.registry.loggers_,
    Traces s.registry.backtrace_n_messages_ (s.object entry.2).tracer_

/-- What is asked of one logger. -/
def Settings (r : Registry) (l : Logger) : Prop :=
  l.level_ = r.global_log_level_ ∧ l.flush_level_ = r.flush_level_ ∧
    Traces r.backtrace_n_messages_ l.tracer_

theorem Uniform.settings (hs : Uniform s) {entry : String × ℕ}
    (h : entry ∈ s.registry.loggers_) : Settings s.registry (s.object entry.2) :=
  ⟨hs.level entry h, hs.flush_level entry h, hs.traces entry h⟩

theorem Uniform.of_settings (hlevels : s.registry.log_levels_ = [])
    (h : ∀ entry ∈ s.registry.loggers_, Settings s.registry (s.object entry.2)) : Uniform s :=
  ⟨hlevels, fun entry hentry => (h entry hentry).1, fun entry hentry => (h entry hentry).2.1,
    fun entry hentry => (h entry hentry).2.2⟩

/-- Some loggers have gone. -/
theorem Uniform.fewer (hs : Uniform s) {s' : Registered} (hobject : s'.object = s.object)
    (hlevels : s'.registry.log_levels_ = s.registry.log_levels_)
    (hlevel : s'.registry.global_log_level_ = s.registry.global_log_level_)
    (hflush : s'.registry.flush_level_ = s.registry.flush_level_)
    (hn : s'.registry.backtrace_n_messages_ = s.registry.backtrace_n_messages_)
    (hsub : ∀ entry ∈ s'.registry.loggers_, ∃ entry' ∈ s.registry.loggers_, entry'.2 = entry.2) :
    Uniform s' := by
  apply Uniform.of_settings
  · rw [hlevels, hs.log_levels]
  · intro entry hentry
    obtain ⟨entry', hentry', hid⟩ := hsub entry hentry
    have hsettings := hs.settings hentry'
    unfold Settings at hsettings ⊢
    rw [hobject, hlevel, hflush, hn, ← hid]
    exact hsettings

/-- One logger changes, and has the settings afterwards if it is registered. -/
theorem Uniform.set (hs : Uniform s) {id : ℕ} {l : Logger}
    (hl : ∀ entry ∈ s.registry.loggers_, entry.2 = id → Settings s.registry l) :
    Uniform (s.set id l) := by
  apply Uniform.of_settings
  · exact hs.log_levels
  · intro entry hentry
    by_cases hid : entry.2 = id
    · rw [hid, set_self]
      exact hl entry hentry hid
    · rw [set_of_ne s l hid]
      exact hs.settings hentry

/-- The registry is set, and all loggers are. -/
def SetsAll (s s' : Registered) (r : Registry) (f : Logger → Logger) : Prop :=
  s'.registry = r ∧ ∀ entry ∈ s.registry.loggers_, s'.object entry.2 = f (s.object entry.2)

theorem enableBacktrace_spec (hs : Coherent s) (n_messages : ℕ) :
    SetsAll s (s.enableBacktrace n_messages)
      { s.registry with backtrace_n_messages_ := n_messages }
      fun l => { l with tracer_ := .enable n_messages } :=
  ⟨forEach_registry _ _, fun _ hentry =>
    foldl_self (fun _ l => { l with tracer_ := .enable n_messages }) hs.ids hentry _⟩

theorem disableBacktrace_spec (hs : Coherent s) :
    SetsAll s s.disableBacktrace { s.registry with backtrace_n_messages_ := 0 }
      fun l => { l with tracer_ := l.tracer_.disable } :=
  ⟨forEach_registry _ _, fun _ hentry =>
    foldl_self (fun _ l => { l with tracer_ := l.tracer_.disable }) hs.ids hentry _⟩

theorem setLevel_spec (hs : Coherent s) (log_level : Level) :
    SetsAll s (s.setLevel log_level) { s.registry with global_log_level_ := log_level }
      fun l => { l with level_ := log_level } := by
  constructor
  · unfold setLevel setRegistry
    rw [forEach_registry]
  · exact fun _ hentry => foldl_self (fun _ l => { l with level_ := log_level }) hs.ids hentry s

theorem flushOn_spec (hs : Coherent s) (log_level : Level) :
    SetsAll s (s.flushOn log_level) { s.registry with flush_level_ := log_level }
      fun l => { l with flush_level_ := log_level } := by
  constructor
  · unfold flushOn setRegistry
    rw [forEach_registry]
  · exact fun _ hentry =>
      foldl_self (fun _ l => { l with flush_level_ := log_level }) hs.ids hentry s

theorem Uniform.of_all {s' : Registered} {r : Registry} {f : Logger → Logger}
    (h : SetsAll s s' r f) (hloggers : r.loggers_ = s.registry.loggers_)
    (hlevels : r.log_levels_ = [])
    (hf : ∀ entry ∈ s.registry.loggers_, Settings r (f (s.object entry.2))) : Uniform s' := by
  obtain ⟨rfl, hobject⟩ := h
  apply Uniform.of_settings
  · exact hlevels
  · intro entry hentry
    rw [hloggers] at hentry
    rw [hobject entry hentry]
    exact hf entry hentry

theorem settings_initialized (hlevels : s.registry.log_levels_ = []) (l : Logger) :
    Settings s.registry (s.initialized l) := by
  refine ⟨?_, rfl, fun hn => ?_⟩
  · show s.configured l.name_ = _
    unfold configured
    rw [hlevels]
    rfl
  · show (if 0 < s.registry.backtrace_n_messages_ then _ else _ : Backtracer).enabled_ = true ∧ _
    unfold initialized
    rw [if_pos hn]
    exact ⟨rfl, rfl⟩

theorem settings_used {r : Registry} {l : Logger} (h : Settings r l) {op : Logger.Op}
    (hop : Uses op) : Settings r (l.step op).2 := by
  obtain ⟨hlevel, hflush, henabled, hmax⟩ := step_settings (l := l) hop
  unfold Settings Traces at h ⊢
  rw [hlevel, hflush, henabled, hmax]
  exact h

theorem Uniform.initializeLogger (hs : Uniform s) (id : ℕ) :
    Uniform (s.initializeLogger id).state := by
  have hset : Uniform (s.set id (s.initialized (s.object id))) :=
    hs.set fun _ _ _ => settings_initialized hs.log_levels _
  unfold Registered.initializeLogger
  split
  · unfold registerLogger
    split
    · exact hset
    · apply Uniform.of_settings
      · exact hs.log_levels
      · intro entry hentry
        rcases List.mem_cons.mp hentry with rfl | hentry
        · show Settings s.registry ((s.set id _).object id)
          rw [set_self]
          exact settings_initialized hs.log_levels _
        · exact hset.settings (mem_filter_ne.mp hentry).1
  · exact hset

theorem Uniform.call {c : Call} {o : Outcome} (hs : Uniform s) (hcoherent : Coherent s)
    (hG : ByRegistry s c) (h : s.call c = some o) : Uniform o.state := by
  cases c with
  | registerLogger id => cases hG
  | initializeLogger id =>
      cases h
      exact hs.initializeLogger id
  | setDefaultLogger new_default_logger =>
      cases h
      cases new_default_logger with
      | none => exact hs.fewer rfl rfl rfl rfl rfl fun entry hentry => ⟨entry, hentry, rfl⟩
      | some id =>
          refine hs.fewer rfl rfl rfl rfl rfl fun entry hentry => ?_
          rcases List.mem_cons.mp hentry with rfl | hentry
          · exact ⟨_, hG, rfl⟩
          · exact ⟨entry, (mem_filter_ne.mp hentry).1, rfl⟩
  | enableBacktrace n_messages =>
      cases h
      refine Uniform.of_all (enableBacktrace_spec hcoherent n_messages) rfl hs.log_levels
        fun entry hentry => ?_
      exact ⟨hs.level entry hentry, hs.flush_level entry hentry, fun _ => ⟨rfl, rfl⟩⟩
  | disableBacktrace =>
      cases h
      refine Uniform.of_all (disableBacktrace_spec hcoherent) rfl hs.log_levels
        fun entry hentry => ?_
      exact ⟨hs.level entry hentry, hs.flush_level entry hentry, fun hn => absurd hn (by simp)⟩
  | setLevel log_level =>
      cases h
      refine Uniform.of_all (setLevel_spec hcoherent log_level) rfl hs.log_levels
        fun entry hentry => ?_
      exact ⟨rfl, hs.flush_level entry hentry, hs.traces entry hentry⟩
  | flushOn log_level =>
      cases h
      refine Uniform.of_all (flushOn_spec hcoherent log_level) rfl hs.log_levels
        fun entry hentry => ?_
      exact ⟨hs.level entry hentry, rfl, hs.traces entry hentry⟩
  | drop logger_name =>
      cases h
      exact hs.fewer rfl rfl rfl rfl rfl fun entry hentry =>
        ⟨entry, (mem_filter_ne.mp hentry).1, rfl⟩
  | dropAll =>
      cases h
      refine hs.fewer rfl rfl rfl rfl rfl fun entry hentry => ?_
      cases hentry
  | setAutomaticRegistration automatic_registration =>
      cases h
      exact hs.fewer rfl rfl rfl rfl rfl fun entry hentry => ⟨entry, hentry, rfl⟩
  | setLevels levels global_level => cases hG
  | applyLoggerEnvLevels id =>
      cases h
      refine hs.set fun entry hentry hid => ?_
      obtain ⟨-, hflush, htraces⟩ := hs.settings hentry
      rw [hid] at hflush htraces
      refine ⟨?_, hflush, htraces⟩
      show s.configured _ = _
      unfold configured
      rw [hs.log_levels]
      rfl
  | flushAll =>
      cases h
      exact hs
  | logger id op =>
      cases h
      exact hs.set fun entry hentry hid => settings_used (hid ▸ hs.settings hentry) hG
  | api op =>
      obtain ⟨id, -, rfl⟩ := Option.map_eq_some_iff.mp h
      exact hs.set fun entry hentry hid => settings_used (hid ▸ hs.settings hentry) hG

/-- In a run where loggers come in through `initialize_logger` only and settings are made for
all of them, every registered logger has the levels of the registry, and records its last
messages while the registry says so. -/
theorem settings_uniform (h : machine.ReachBy ByRegistry s) :
    ∀ entry ∈ s.registry.loggers_,
      (s.object entry.2).level_ = s.registry.global_log_level_ ∧
        (s.object entry.2).flush_level_ = s.registry.flush_level_ ∧
        (0 < s.registry.backtrace_n_messages_ →
          (s.object entry.2).tracer_.enabled_ = true ∧
            (s.object entry.2).tracer_.messages_.max_items_ =
              (s.registry.backtrace_n_messages_ + 1) % sizeTRange) := by
  have huniform : Uniform s := by
    refine h.invariant (P := Uniform) ?_ ?_
    · rintro s ⟨hreg, sink, hobject⟩
      apply Uniform.of_settings
      · rw [hreg]
        rfl
      · intro entry hentry
        rw [hreg] at hentry ⊢
        obtain rfl := List.mem_singleton.mp hentry
        rw [hobject]
        exact ⟨rfl, rfl, fun hn => absurd hn (by simp [Registry.new])⟩
    · intro s c s' hreach hs hG hst
      obtain ⟨o, ho, rfl⟩ := Option.map_eq_some_iff.mp hst
      exact hs.call (Coherent.of_reach hreach) hG ho
  exact fun entry hentry => huniform.settings hentry

/-- A logger that comes in while the backtrace is on records its messages too. -/
theorem settings_uniform_later :
    ∃ s, machine.ReachBy ByRegistry s ∧ s.registry.loggers_ = [("x", 1), ("", 0)] ∧
      (s.object 1).level_ = .warn ∧ (s.object 1).tracer_.enabled_ = true := by
  have h := (Machine.ReachBy.start (M := machine) (G := ByRegistry) (s := twoLoggers)
    ⟨rfl, _, rfl⟩).next (a := .enableBacktrace 4) (by trivial) rfl
      |>.next (a := .setLevel .warn) (by trivial) rfl
      |>.next (a := .initializeLogger 1) (by trivial) rfl
  obtain ⟨hlevel, -, htraces⟩ := settings_uniform h ("x", 1) List.mem_cons_self
  exact ⟨_, h, rfl, hlevel, (htraces (by decide)).1⟩

end Registered

end Spdlog
