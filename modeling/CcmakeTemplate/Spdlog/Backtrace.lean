import CcmakeTemplate.Spdlog.Logger
import Mathlib.Data.List.Induction

/-!
# What a backtrace shows

A naive recorder keeps all messages since the backtrace was enabled or dumped, and dumps the
last `n` of them. It is written down without the logger. A logger emits what the recorder
does, whatever its calls are.
-/

namespace Spdlog

open Containers
open SqliteSink (Level)

/-! ## The loop of `foreach_pop` -/

/-- The loop takes all items out, in order, and leaves an empty ring. -/
theorem popAll_eq {α : Type} {cap : ℕ} (n : ℕ) {q : CircularQ α} {w : Window α cap}
    (h : CircularQ.Represents q w) (hn : w.items.length ≤ n) :
    (popAll n q).1 = w.items ∧
      ∃ w' : Window α cap, CircularQ.Represents (popAll n q).2 w' ∧ w'.items = [] := by
  induction n generalizing q w with
  | zero =>
      have hnil : w.items = [] := List.length_eq_zero_iff.mp (Nat.le_zero.mp hn)
      exact ⟨hnil.symm, w, h, hnil⟩
  | succ n ih =>
      unfold popAll
      rw [h.empty]
      cases hitems : w.items with
      | nil => exact ⟨rfl, w, h, hitems⟩
      | cons first rest =>
          have hne : w.items ≠ [] := by
            rw [hitems]
            exact List.cons_ne_nil first rest
          obtain ⟨q', hpop, h'⟩ := h.popFront hne
          have hrest : w.pop.items = rest := by
            rw [Window.pop_items, hitems]
            rfl
          have hlen : w.pop.items.length ≤ n := by
            rw [hitems, List.length_cons] at hn
            rw [hrest]
            omega
          obtain ⟨hall, w', hw', hnil⟩ := ih h' hlen
          have hfront : q.front = some first := by
            rw [h.front hne, hitems]
            rfl
          simp only [hfront, hpop, List.isEmpty_cons, Bool.false_eq_true, if_false]
          exact ⟨by rw [hall, hrest], w', hw', hnil⟩

/-! ## The naive recorder -/

/-- What a logger is for, with all the messages since its backtrace was enabled or dumped. -/
structure Recorder where
  kind : Kind
  name : String
  sinks : List (ℕ × Level)
  level : Level
  flushLevel : Level
  enabled : Bool
  size : ℕ
  since : List LogMsg

namespace Recorder

def new (kind : Kind) (name : String) (sinks : List (ℕ × Level)) : Recorder where
  kind := kind
  name := name
  sinks := sinks
  level := .info
  flushLevel := .off
  enabled := false
  size := 0
  since := []

/-- The last messages, as many as the backtrace was enabled for. -/
def last (r : Recorder) : List LogMsg := r.since.rtake r.size

/-- The sinks are flushed, or somebody is told to do so. -/
def flushed (r : Recorder) : List Event :=
  match r.kind with
  | .asyncLogger => [.postFlush]
  | .logger => r.sinks.map fun sink => .flush sink.1

/-- A message is posted, or it goes to each sink with a level that lets it through, and from
the flush level on all sinks are flushed after it. -/
def passed (r : Recorder) (msg : LogMsg) : List Event :=
  match r.kind with
  | .asyncLogger => [.postLog msg]
  | .logger =>
      (r.sinks.flatMap fun sink =>
        if sink.2.val ≤ msg.level.val then [Event.log sink.1 msg] else []) ++
      if r.flushLevel.val ≤ msg.level.val ∧ msg.level ≠ .off then r.flushed else []

def step (r : Recorder) : Logger.Op → List Event × Recorder
  | .log lvl payload =>
      (if r.level.val ≤ lvl.val then r.passed ⟨r.name, lvl, payload⟩ else [],
        if r.enabled then { r with since := r.since ++ [⟨r.name, lvl, payload⟩] } else r)
  | .enableBacktrace n_messages =>
      ([], { r with enabled := true, size := n_messages, since := [] })
  | .disableBacktrace => ([], { r with enabled := false })
  | .dumpBacktrace =>
      if r.enabled ∧ r.last ≠ [] then
        (r.passed ⟨r.name, .info, "****************** Backtrace Start ******************"⟩ ++
            r.last.flatMap r.passed ++
            r.passed ⟨r.name, .info, "****************** Backtrace End ********************"⟩,
          { r with since := [] })
      else ([], r)
  | .setLevel log_level => ([], { r with level := log_level })
  | .flushOn log_level => ([], { r with flushLevel := log_level })
  | .flush => (r.flushed, r)

def run (r : Recorder) (ops : List Logger.Op) : List Event × Recorder :=
  ops.foldl (fun (events, r) op => (events ++ (r.step op).1, (r.step op).2)) ([], r)

theorem run_snoc (r : Recorder) (ops : List Logger.Op) (op : Logger.Op) :
    r.run (ops ++ [op]) =
      ((r.run ops).1 ++ ((r.run ops).2.step op).1, ((r.run ops).2.step op).2) := by
  unfold run
  rw [List.foldl_append]
  rfl

end Recorder

namespace Logger

/-! ## The simulation -/

/-- The number of messages leaves room for the slot that the ring keeps free. -/
def Op.Fits : Op → Prop
  | .enableBacktrace n_messages => n_messages + 1 < sizeTRange
  | _ => True

/-- The logger is set up as the recorder is. -/
structure Alike (l : Logger) (r : Recorder) : Prop where
  kind : l.kind = r.kind
  name : l.name_ = r.name
  sinks : l.sinks_ = r.sinks
  level : l.level_ = r.level
  flush_level : l.flush_level_ = r.flushLevel

theorem Alike.flush {l : Logger} {r : Recorder} (h : Alike l r) : l.flush = r.flushed := by
  unfold Logger.flush Recorder.flushed
  rw [h.kind, h.sinks]
  cases r.kind <;> rfl

theorem Alike.sinkIt {l : Logger} {r : Recorder} (h : Alike l r) : l.sinkIt = r.passed := by
  ext1 msg
  unfold Logger.sinkIt shouldFlush Recorder.passed
  rw [h.kind, h.sinks, h.flush, h.flush_level]
  cases r.kind with
  | asyncLogger => rfl
  | logger =>
      have hsinks : ∀ sinks : List (ℕ × Level),
          ((sinks.filter fun sink => decide (sink.2.val ≤ msg.level.val)).map
            fun sink => Event.log sink.1 msg) =
          sinks.flatMap fun sink =>
            if sink.2.val ≤ msg.level.val then [Event.log sink.1 msg] else [] := by
        intro sinks
        induction sinks with
        | nil => rfl
        | cons sink sinks ih =>
            rw [List.flatMap_cons, ← ih, List.filter_cons]
            by_cases hlevel : sink.2.val ≤ msg.level.val
            · simp only [decide_eq_true hlevel, if_true, if_pos hlevel, List.map_cons,
                List.singleton_append]
            · simp only [decide_eq_false hlevel, Bool.false_eq_true, if_false, if_neg hlevel,
                List.nil_append]
      have hflush : (decide (r.flushLevel.val ≤ msg.level.val) && msg.level != .off) = true ↔
          r.flushLevel.val ≤ msg.level.val ∧ msg.level ≠ .off := by
        rw [Bool.and_eq_true, decide_eq_true_iff, bne_iff_ne]
      simp only [hsinks, hflush]

/-- The ring holds the last messages that the recorder has. -/
structure Follows (l : Logger) (r : Recorder) : Prop where
  alike : Alike l r
  enabled : l.tracer_.enabled_ = r.enabled
  ring : r.enabled = true → ∃ w : Window LogMsg r.size,
    CircularQ.Represents l.tracer_.messages_ w ∧ w.items = r.last

theorem Follows.log {l : Logger} {r : Recorder} (h : Follows l r) (lvl : Level)
    (payload : String) :
    (l.log lvl payload).1 = (r.step (.log lvl payload)).1 ∧
      Follows (l.log lvl payload).2 (r.step (.log lvl payload)).2 := by
  have hlevel : l.shouldLog lvl = decide (r.level.val ≤ lvl.val) := by
    rw [shouldLog, h.alike.level]
  -- with the backtrace off, the early return leaves out nothing
  have hsame : l.log lvl payload =
      (if r.level.val ≤ lvl.val then r.passed ⟨r.name, lvl, payload⟩ else [],
        if r.enabled then { l with tracer_ := l.tracer_.pushBack ⟨r.name, lvl, payload⟩ }
        else l) := by
    unfold Logger.log logIt Backtracer.enabled
    rw [h.enabled, hlevel, h.alike.sinkIt, h.alike.name]
    by_cases hlog : r.level.val ≤ lvl.val
    · simp only [decide_eq_true hlog, if_pos hlog]
      rfl
    · simp only [decide_eq_false hlog, if_neg hlog]
      cases r.enabled <;> rfl
  rw [hsame]
  refine ⟨rfl, ?_⟩
  unfold Recorder.step
  cases hr : r.enabled with
  | false => exact h
  | true =>
      obtain ⟨w, hw, hitems⟩ := h.ring hr
      refine ⟨⟨h.alike.kind, h.alike.name, h.alike.sinks, h.alike.level, h.alike.flush_level⟩,
        h.enabled.trans hr, fun _ => ⟨w.push _, hw.pushBack _, ?_⟩⟩
      show (w.items ++ [_]).rtake r.size = _
      rw [hitems]
      exact Window.rtake_append_rtake r.since _ r.size

theorem Follows.dump {l : Logger} {r : Recorder} (h : Follows l r) :
    l.dumpBacktrace.1 = (r.step .dumpBacktrace).1 ∧
      Follows l.dumpBacktrace.2 (r.step .dumpBacktrace).2 := by
  by_cases hdump : r.enabled = true ∧ r.last ≠ []
  · obtain ⟨hr, hlast⟩ := hdump
    have htracer : l.tracer_.enabled = true := h.enabled.trans hr
    obtain ⟨w, hw, hitems⟩ := h.ring hr
    have hempty : l.tracer_.empty = false := by
      refine (hw.empty).trans ?_
      rw [hitems]
      exact List.isEmpty_eq_false_iff.mpr hlast
    obtain ⟨hall, w', hw', hnil⟩ := popAll_eq l.tracer_.messages_.size hw hw.size.ge
    have hsame : l.dumpBacktrace =
        (l.sinkIt l.startMarker ++ (popAll l.tracer_.messages_.size
            l.tracer_.messages_).1.flatMap l.sinkIt ++ l.sinkIt l.endMarker,
          { l with tracer_ := { l.tracer_ with
            messages_ := (popAll l.tracer_.messages_.size l.tracer_.messages_).2 } }) := by
      unfold dumpBacktrace
      rw [htracer, hempty]
      rfl
    unfold Recorder.step
    rw [hsame, if_pos ⟨hr, hlast⟩, hall, hitems]
    constructor
    · show l.sinkIt ⟨l.name_, .info, _⟩ ++ r.last.flatMap l.sinkIt ++
        l.sinkIt ⟨l.name_, .info, _⟩ = _
      rw [h.alike.sinkIt, h.alike.name]
    · refine ⟨⟨h.alike.kind, h.alike.name, h.alike.sinks, h.alike.level,
        h.alike.flush_level⟩, h.enabled, fun _ => ⟨w', hw', ?_⟩⟩
      rw [hnil]
      simp [Recorder.last]
  · have hno : (l.tracer_.enabled && !l.tracer_.empty) = false := by
      cases hr : r.enabled with
      | false =>
          rw [Backtracer.enabled, h.enabled, hr]
          rfl
      | true =>
          obtain ⟨w, hw, hitems⟩ := h.ring hr
          have hlast : r.last = [] := by
            by_contra hne
            exact hdump ⟨hr, hne⟩
          have hempty : l.tracer_.empty = true := by
            refine (hw.empty).trans ?_
            rw [hitems, hlast]
            rfl
          rw [hempty]
          simp
    unfold Recorder.step dumpBacktrace
    rw [if_neg hdump, hno]
    exact ⟨rfl, h⟩

theorem Follows.step {l : Logger} {r : Recorder} (h : Follows l r) {op : Op} (hop : op.Fits) :
    (l.step op).1 = (r.step op).1 ∧ Follows (l.step op).2 (r.step op).2 := by
  obtain ⟨hkind, hname, hsinks, hlevel, hflush⟩ := h.alike
  cases op with
  | log lvl payload => exact h.log lvl payload
  | dumpBacktrace => exact h.dump
  | enableBacktrace n_messages =>
      refine ⟨rfl, ⟨hkind, hname, hsinks, hlevel, hflush⟩, rfl, fun _ => ?_⟩
      refine ⟨.empty, CircularQ.Represents.new hop, ?_⟩
      simp [Recorder.step, Recorder.last]
  | disableBacktrace =>
      refine ⟨rfl, ⟨hkind, hname, hsinks, hlevel, hflush⟩, rfl, fun hr => ?_⟩
      cases hr
  | setLevel log_level =>
      exact ⟨rfl, ⟨hkind, hname, hsinks, rfl, hflush⟩, h.enabled, h.ring⟩
  | flushOn log_level =>
      exact ⟨rfl, ⟨hkind, hname, hsinks, hlevel, rfl⟩, h.enabled, h.ring⟩
  | flush => exact ⟨h.alike.flush, h⟩

theorem Follows.run {l : Logger} {r : Recorder} (h : Follows l r) {ops : List Op}
    (hops : ∀ op ∈ ops, op.Fits) :
    (l.run ops).1 = (r.run ops).1 ∧ Follows (l.run ops).2 (r.run ops).2 := by
  induction ops using List.reverseRecOn with
  | nil => exact ⟨rfl, h⟩
  | append_singleton ops op ih =>
      obtain ⟨hevents, hfollows⟩ := ih fun op hop => hops op (List.mem_append_left _ hop)
      obtain ⟨hstep, hnext⟩ := hfollows.step (hops op (List.mem_append_right _ (by simp)))
      rw [run_snoc, Recorder.run_snoc]
      exact ⟨by rw [hevents, hstep], hnext⟩

theorem Follows.new (kind : Kind) (name : String) (sinks : List (ℕ × Level)) :
    Follows (Logger.new kind name sinks) (.new kind name sinks) := by
  refine ⟨⟨rfl, rfl, rfl, rfl, rfl⟩, rfl, fun hr => ?_⟩
  cases hr

/-- A new logger emits what the naive recorder does: a message when its level is high enough,
and for a dump the last `n` messages since the backtrace was enabled or dumped, between the
two markers. -/
theorem backtrace_faithful (kind : Kind) (name : String) (sinks : List (ℕ × Level))
    {ops : List Op} (hops : ∀ op ∈ ops, op.Fits) :
    ((Logger.new kind name sinks).run ops).1 = ((Recorder.new kind name sinks).run ops).1 :=
  ((Follows.new kind name sinks).run hops).1

/-- Three messages are recorded, one of them is logged as well, and two of them are dumped. -/
theorem backtrace_faithful_two :
    let ops : List Op := [.enableBacktrace 2, .log .debug "a", .log .debug "b", .log .warn "c",
      .dumpBacktrace]
    2 + 1 < sizeTRange ∧
      ((Logger.new .logger "x" [(0, .trace), (1, .err)]).run ops).1 =
        [.log 0 ⟨"x", .warn, "c"⟩,
          .log 0 ⟨"x", .info, "****************** Backtrace Start ******************"⟩,
          .log 0 ⟨"x", .debug, "b"⟩, .log 0 ⟨"x", .warn, "c"⟩,
          .log 0 ⟨"x", .info, "****************** Backtrace End ********************"⟩] := by
  refine ⟨by decide,
    (backtrace_faithful .logger "x" [(0, .trace), (1, .err)] ?_).trans (by decide)⟩
  intro op hop
  simp only [List.mem_cons, List.not_mem_nil, or_false] at hop
  rcases hop with rfl | rfl | rfl | rfl | rfl
  · show 2 + 1 < sizeTRange
    decide
  all_goals trivial

end Logger

end Spdlog
