import CcmakeTemplate.Spdlog.Registry
import Mathlib.Data.List.Nodup

/-!
# The default logger is always registered

The map of the registry and its pointer to the default logger are kept apart, and every method
changes them together.
-/

namespace Spdlog

open Concurrency
open SqliteSink (Level)

namespace Registered

variable {s : Registered}

/-! ## The loop over the loggers -/

theorem set_self (s : Registered) (id : ℕ) (l : Logger) : (s.set id l).object id = l :=
  Function.update_self ..

theorem set_of_ne (s : Registered) {id id' : ℕ} (l : Logger) (h : id' ≠ id) :
    (s.set id l).object id' = s.object id' := Function.update_of_ne h ..

/-- One round of the loop. -/
def visit (f : String → Logger → Logger) (s : Registered) (entry : String × ℕ) : Registered :=
  s.set entry.2 (f entry.1 (s.object entry.2))

theorem forEach_eq (f : String → Logger → Logger) (s : Registered) :
    s.forEach f = s.registry.loggers_.foldl (visit f) s := rfl

theorem foldl_registry (f : String → Logger → Logger) (entries : List (String × ℕ))
    (s : Registered) : (entries.foldl (visit f) s).registry = s.registry := by
  induction entries generalizing s with
  | nil => rfl
  | cons entry entries ih => exact ih (s.visit f entry)

@[simp] theorem forEach_registry (f : String → Logger → Logger) (s : Registered) :
    (s.forEach f).registry = s.registry := foldl_registry f _ s

theorem foldl_other (f : String → Logger → Logger) {entries : List (String × ℕ)} {id : ℕ}
    (h : id ∉ entries.map Prod.snd) (s : Registered) :
    (entries.foldl (visit f) s).object id = s.object id := by
  induction entries generalizing s with
  | nil => rfl
  | cons entry entries ih =>
      rw [List.map_cons, List.mem_cons, not_or] at h
      rw [List.foldl_cons, ih h.2]
      exact set_of_ne s _ h.1

theorem foldl_self (f : String → Logger → Logger) {entries : List (String × ℕ)}
    (hnodup : (entries.map Prod.snd).Nodup) {key : String} {id : ℕ} (h : (key, id) ∈ entries)
    (s : Registered) : (entries.foldl (visit f) s).object id = f key (s.object id) := by
  induction entries generalizing s with
  | nil => cases h
  | cons entry entries ih =>
      rw [List.map_cons, List.nodup_cons] at hnodup
      rw [List.foldl_cons]
      rcases List.mem_cons.mp h with rfl | h
      · rw [foldl_other f hnodup.1]
        exact set_self s id _
      · have hne : id ≠ entry.2 := by
          rintro rfl
          exact hnodup.1 (List.mem_map.mpr ⟨_, h, rfl⟩)
        rw [ih hnodup.2 h]
        show f key ((s.set entry.2 _).object id) = _
        rw [set_of_ne s _ hne]

theorem forEach_self (f : String → Logger → Logger)
    (hids : (s.registry.loggers_.map Prod.snd).Nodup) {entry : String × ℕ}
    (h : entry ∈ s.registry.loggers_) :
    (s.forEach f).object entry.2 = f entry.1 (s.object entry.2) := foldl_self f hids h s

/-- The loop never gives a logger another name. -/
theorem forEach_name {f : String → Logger → Logger} (hf : ∀ key l, (f key l).name_ = l.name_)
    (s : Registered) (id : ℕ) : ((s.forEach f).object id).name_ = (s.object id).name_ := by
  rw [forEach_eq]
  generalize s.registry.loggers_ = entries
  induction entries generalizing s with
  | nil => rfl
  | cons entry entries ih =>
      rw [List.foldl_cons, ih]
      by_cases h : id = entry.2
      · subst h
        show ((s.set entry.2 _).object entry.2).name_ = _
        rw [set_self, hf]
      · show ((s.set entry.2 _).object id).name_ = _
        rw [set_of_ne s _ h]

/-! ## Names -/

theorem step_name (l : Logger) (op : Logger.Op) : (l.step op).2.name_ = l.name_ := by
  cases op with
  | log lvl payload =>
      show (l.log lvl payload).2.name_ = l.name_
      unfold Logger.log Logger.logIt
      cases l.shouldLog lvl <;> cases l.tracer_.enabled <;> rfl
  | dumpBacktrace =>
      show l.dumpBacktrace.2.name_ = l.name_
      unfold Logger.dumpBacktrace
      split <;> rfl
  | _ => rfl

/-- The loggers in the map have different names, each is there under its own, and the default
logger is one of them. -/
structure Coherent (s : Registered) : Prop where
  keys : (s.registry.loggers_.map Prod.fst).Nodup
  named : ∀ entry ∈ s.registry.loggers_, (s.object entry.2).name_ = entry.1
  default : ∀ id, s.registry.default_logger_ = some id →
    ((s.object id).name_, id) ∈ s.registry.loggers_

/-- No logger is registered twice. -/
theorem Coherent.ids (hs : Coherent s) : (s.registry.loggers_.map Prod.snd).Nodup := by
  refine List.Nodup.map_on ?_ (List.Nodup.of_map _ hs.keys)
  intro entry hentry entry' hentry' hid
  have hname := hs.named entry hentry
  rw [hid, hs.named entry' hentry'] at hname
  exact Prod.ext hname.symm hid

/-- The loggers have the same names as before. -/
theorem Coherent.rename (hs : Coherent s) {s' : Registered} (hreg : s'.registry = s.registry)
    (hnames : ∀ id, (s'.object id).name_ = (s.object id).name_) : Coherent s' := by
  constructor
  · rw [hreg]
    exact hs.keys
  · intro entry hentry
    rw [hreg] at hentry
    rw [hnames]
    exact hs.named entry hentry
  · intro id hid
    rw [hreg] at hid ⊢
    rw [hnames]
    exact hs.default id hid

/-- The other settings of the registry play no part. -/
theorem Coherent.settings (hs : Coherent s) {s' : Registered}
    (hloggers : s'.registry.loggers_ = s.registry.loggers_)
    (hdefault : s'.registry.default_logger_ = s.registry.default_logger_)
    (hobject : s'.object = s.object) : Coherent s' := by
  constructor
  · rw [hloggers]
    exact hs.keys
  · rw [hloggers, hobject]
    exact hs.named
  · rw [hloggers, hdefault, hobject]
    exact hs.default

theorem Coherent.set (hs : Coherent s) {id : ℕ} {l : Logger}
    (hname : l.name_ = (s.object id).name_) :
    Coherent (s.set id l) := by
  apply hs.rename
  · rfl
  · intro id'
    by_cases h : id' = id
    · subst h
      rw [set_self, hname]
    · rw [set_of_ne s l h]

theorem Coherent.forEach (hs : Coherent s) {f : String → Logger → Logger}
    (hf : ∀ key l, (f key l).name_ = l.name_) : Coherent (s.forEach f) :=
  hs.rename (forEach_registry f s) (forEach_name hf s)

theorem mem_filter_ne {loggers : List (String × ℕ)} {name : String} {entry : String × ℕ} :
    entry ∈ loggers.filter (fun entry => entry.1 != name) ↔ entry ∈ loggers ∧ entry.1 ≠ name := by
  simp

theorem keys_filter {loggers : List (String × ℕ)} (h : (loggers.map Prod.fst).Nodup)
    (p : String × ℕ → Bool) : ((loggers.filter p).map Prod.fst).Nodup :=
  h.sublist (List.filter_sublist.map Prod.fst)

/-- The default logger is still there if its entry is not replaced. -/
theorem Coherent.assign (hs : Coherent s) (id : ℕ)
    (hdefault : ∀ id', s.registry.default_logger_ = some id' →
      (s.object id').name_ ≠ (s.object id).name_) : Coherent (s.assign (s.object id).name_ id) := by
  constructor
  · show ((_ :: _ : List (String × ℕ)).map Prod.fst).Nodup
    rw [List.map_cons, List.nodup_cons]
    refine ⟨fun hmem => ?_, keys_filter hs.keys _⟩
    obtain ⟨entry, hentry, hname⟩ := List.mem_map.mp hmem
    exact (mem_filter_ne.mp hentry).2 hname
  · intro entry hentry
    rcases List.mem_cons.mp hentry with rfl | hentry
    · rfl
    · exact hs.named entry (mem_filter_ne.mp hentry).1
  · intro id' hid'
    refine List.mem_cons_of_mem _ (mem_filter_ne.mpr ⟨hs.default id' hid', ?_⟩)
    exact hdefault id' hid'

theorem lookup_isSome {loggers : List (String × ℕ)} {name : String} :
    (loggers.lookup name).isSome = true ↔ ∃ id, (name, id) ∈ loggers := by
  induction loggers with
  | nil => simp
  | cons entry loggers ih =>
      rw [List.lookup_cons]
      cases h : name == entry.1 with
      | true =>
          have hname : name = entry.1 := beq_iff_eq.mp h
          exact iff_of_true rfl ⟨entry.2, List.mem_cons.mpr (.inl (Prod.ext hname rfl))⟩
      | false =>
          rw [ih]
          apply exists_congr
          intro id
          rw [List.mem_cons]
          refine ⟨.inr, fun hmem => hmem.resolve_left ?_⟩
          rintro rfl
          simp at h

theorem Coherent.registerLogger (hs : Coherent s) (id : ℕ) :
    Coherent (s.registerLogger id).state := by
  unfold Registered.registerLogger
  split
  · exact hs
  · rename_i hnew
    refine hs.assign id fun id' hid' hname => hnew ?_
    have hmem := hs.default id' hid'
    rw [hname] at hmem
    exact lookup_isSome.mpr ⟨id', hmem⟩

theorem Coherent.setDefaultLogger (hs : Coherent s) (new_default_logger : Option ℕ) :
    Coherent (s.setDefaultLogger new_default_logger) := by
  cases new_default_logger with
  | none =>
      refine ⟨hs.keys, hs.named, fun id hid => ?_⟩
      cases hid
  | some id =>
      -- the old default logger plays no part any more
      have hnone : Coherent { s with registry := { s.registry with default_logger_ := none } } :=
        ⟨hs.keys, hs.named, fun id hid => by cases hid⟩
      have hassign := hnone.assign id fun id' hid' => by cases hid'
      refine ⟨hassign.keys, hassign.named, fun id' hid' => ?_⟩
      cases hid'
      exact List.mem_cons_self

theorem Coherent.drop (hs : Coherent s) (logger_name : String) :
    Coherent (s.drop logger_name) := by
  refine ⟨keys_filter hs.keys _, fun entry hentry => hs.named entry (mem_filter_ne.mp hentry).1,
    fun id hid => ?_⟩
  unfold Registered.drop setRegistry at hid
  cases hdefault : s.registry.default_logger_ with
  | none => simp [hdefault] at hid
  | some id' =>
      simp only [hdefault, beq_iff_eq] at hid
      split at hid
      · cases hid
      · rename_i hname
        cases hid
        exact mem_filter_ne.mpr ⟨hs.default id hdefault, hname⟩

theorem Coherent.initializeLogger (hs : Coherent s) (id : ℕ) :
    Coherent (s.initializeLogger id).state := by
  have hset : Coherent (s.set id (s.initialized (s.object id))) := hs.set rfl
  unfold Registered.initializeLogger
  split
  · exact hset.registerLogger id
  · exact hset

theorem Coherent.call {c : Call} {o : Outcome} (hs : Coherent s) (h : s.call c = some o) :
    Coherent o.state := by
  cases c with
  | registerLogger id =>
      cases h
      exact hs.registerLogger id
  | initializeLogger id =>
      cases h
      exact hs.initializeLogger id
  | setDefaultLogger new_default_logger =>
      cases h
      exact hs.setDefaultLogger new_default_logger
  | enableBacktrace n_messages =>
      cases h
      have hs' : Coherent
          { s with registry := { s.registry with backtrace_n_messages_ := n_messages } } :=
        hs.settings rfl rfl rfl
      exact hs'.forEach (f := fun _ l => { l with tracer_ := .enable n_messages }) fun _ _ => rfl
  | disableBacktrace =>
      cases h
      have hs' : Coherent { s with registry := { s.registry with backtrace_n_messages_ := 0 } } :=
        hs.settings rfl rfl rfl
      exact hs'.forEach (f := fun _ l => { l with tracer_ := l.tracer_.disable }) fun _ _ => rfl
  | setLevel log_level =>
      cases h
      have hs' := hs.forEach (f := fun _ l => { l with level_ := log_level }) fun _ _ => rfl
      exact hs'.settings rfl rfl rfl
  | flushOn log_level =>
      cases h
      have hs' := hs.forEach (f := fun _ l => { l with flush_level_ := log_level }) fun _ _ => rfl
      exact hs'.settings rfl rfl rfl
  | drop logger_name =>
      cases h
      exact hs.drop logger_name
  | dropAll =>
      cases h
      refine ⟨List.nodup_nil, fun entry hentry => ?_, fun id hid => ?_⟩
      · cases hentry
      · cases hid
  | setAutomaticRegistration automatic_registration =>
      cases h
      exact hs.settings rfl rfl rfl
  | setLevels levels global_level =>
      cases h
      have hs' : Coherent { s with registry := { s.registry with
          log_levels_ := levels
          global_log_level_ := global_level.getD s.registry.global_log_level_ } } :=
        hs.settings rfl rfl rfl
      exact hs'.forEach (f := fun key l => { l with
        level_ := ((levels.lookup key).orElse fun _ => global_level).getD l.level_ })
        fun _ _ => rfl
  | applyLoggerEnvLevels id =>
      cases h
      exact hs.set rfl
  | flushAll =>
      cases h
      exact hs
  | logger id op =>
      cases h
      exact hs.set (step_name _ _)
  | api op =>
      obtain ⟨id, -, rfl⟩ := Option.map_eq_some_iff.mp h
      exact hs.set (step_name _ _)

theorem Coherent.of_reach {G : Registered → Call → Prop} (h : machine.ReachBy G s) :
    Coherent s := by
  refine h.invariant (P := Coherent) ?_ ?_
  · rintro s ⟨hreg, sink, hobject⟩
    have hname : (s.object 0).name_ = "" := by rw [hobject]; rfl
    constructor
    · rw [hreg]
      exact List.nodup_singleton _
    · intro entry hentry
      rw [hreg] at hentry
      obtain rfl := List.mem_singleton.mp hentry
      exact hname
    · intro id hid
      rw [hreg] at hid ⊢
      cases hid
      rw [hname]
      exact List.mem_singleton_self _
  · intro s c s' _ hs _ hst
    obtain ⟨o, ho, rfl⟩ := Option.map_eq_some_iff.mp hst
    exact hs.call ho

/-- Whatever the calls are, the loggers in the map have different names, each is there under
its own name, and the default logger is among them. So a setting of the registry never misses
the default logger. -/
theorem default_logger_registered (h : machine.Reach s) :
    (s.registry.loggers_.map Prod.fst).Nodup ∧
      (∀ entry ∈ s.registry.loggers_, (s.object entry.2).name_ = entry.1) ∧
      ∀ id, s.registry.default_logger_ = some id →
        ((s.object id).name_, id) ∈ s.registry.loggers_ ∧
          ∀ log_level, ((s.setLevel log_level).object id).level_ = log_level := by
  have hs := Coherent.of_reach h
  refine ⟨hs.keys, hs.named, fun id hid => ⟨hs.default id hid, fun log_level => ?_⟩⟩
  show ((s.forEach _).object id).level_ = log_level
  rw [forEach_self _ hs.ids (hs.default id hid)]

/-- A program whose other loggers are all called "x". -/
def twoLoggers : Registered where
  registry := .new
  object := fun id => if id = 0 then .new .logger "" [(0, .trace)] else .new .logger "x" []

/-- A second default logger of the same name takes the place of the first one. -/
theorem default_logger_registered_twice :
    ∃ s, machine.Reach s ∧ s.registry.loggers_ = [("x", 2), ("", 0)] ∧
      s.registry.default_logger_ = some 2 ∧ ((s.setLevel .warn).object 2).level_ = .warn := by
  have h := (Machine.ReachBy.start (M := machine) (G := fun _ _ => True) (s := twoLoggers)
    ⟨rfl, _, rfl⟩).next (a := .setDefaultLogger (some 1)) trivial rfl
      |>.next (a := .setDefaultLogger (some 2)) trivial rfl
  exact ⟨_, h, rfl, rfl, ((default_logger_registered h).2.2 2 rfl).2 .warn⟩

end Registered

end Spdlog
