import CcmakeTemplate.SqliteSink.Model
import Mathlib.Data.List.Induction

/-!
# Two levels in one object

`sqlite_sink` has a `level_` of its own beside the one that it inherits from `sink`, and it
redefines `set_level`, `level` and `should_log`, none of which is virtual. The static type at
the call decides which of the two is meant: the settings are made on a `sqlite_sink`, and a
logger holds its sinks as pointers to `sink`.
-/

namespace SqliteSink

/-! ## The object and its two views -/

/-- The value of the `level_enum`. -/
def Level.val : Level → ℕ
  | .trace => 0
  | .debug => 1
  | .info => 2
  | .warn => 3
  | .err => 4
  | .critical => 5
  | .off => 6

/-- The static type of a call. -/
inductive View where
  | sink | sqliteSink
deriving DecidableEq

structure Object (T : Type) where
  /-- `sink::level_` and `sqlite_sink::level_`. -/
  level_ : View → Level
  /-- History: the messages that have reached `log`. -/
  reached : List (LogMsg T)

namespace Object

variable {T : Type}

/-- Either `level_` is initialised to `trace`. -/
def new : Object T := { level_ := fun _ => .trace, reached := [] }

def setLevel (o : Object T) (view : View) (log_level : Level) : Object T :=
  { o with level_ := Function.update o.level_ view log_level }

def level (o : Object T) (view : View) : Level := o.level_ view

def shouldLog (o : Object T) (view : View) (msg_level : Level) : Bool :=
  decide ((o.level_ view).val ≤ msg_level.val)

/-- What `backend_sink_it_` does with one sink. -/
def sinkIt (msg : LogMsg T) (o : Object T) : Object T :=
  if o.shouldLog .sink msg.level then { o with reached := o.reached ++ [msg] } else o

end Object

variable {T : Type}

/-- `async_logger::backend_sink_it_` over the sinks of a logger. -/
def backendSinkIt (sinks_ : List (Object T)) (msg : LogMsg T) : List (Object T) :=
  sinks_.map (Object.sinkIt msg)

/-! ## Settings, messages and readings in any order -/

inductive Op (T : Type) where
  | setLevel (log_level : Level)
  | dispatch (msg : LogMsg T)
  | level (view : View)

/-- The sink is the one at place `k` of the logger. Its settings are made through its own
class. -/
def stepOp (k : ℕ) (sinks_ : List (Object T)) : Op T → List (Object T)
  | .setLevel log_level => sinks_.modify k fun o => o.setLevel .sqliteSink log_level
  | .dispatch msg => backendSinkIt sinks_ msg
  | .level _ => sinks_

def runOps (k : ℕ) (sinks_ : List (Object T)) (ops : List (Op T)) : List (Object T) :=
  ops.foldl (stepOp k) sinks_

/-- The level most recently set, `trace` if none. -/
def setting (ops : List (Op T)) : Level :=
  ops.foldl (fun l op => match op with | .setLevel log_level => log_level | _ => l) .trace

theorem runOps_snoc (k : ℕ) (sinks_ : List (Object T)) (ops : List (Op T)) (op : Op T) :
    runOps k sinks_ (ops ++ [op]) = stepOp k (runOps k sinks_ ops) op := by
  unfold runOps
  rw [List.foldl_append]
  rfl

/-- The settings are kept in the `level_` that no logger reads. -/
theorem runOps_levels {k : ℕ} {sinks_ : List (Object T)} (hk : sinks_[k]? = some .new)
    (ops : List (Op T)) :
    ∃ o, (runOps k sinks_ ops)[k]? = some o ∧ o.level_ .sink = .trace ∧
      o.level_ .sqliteSink = setting ops := by
  induction ops using List.reverseRecOn with
  | nil => exact ⟨.new, hk, rfl, rfl⟩
  | append_singleton ops op ih =>
      obtain ⟨o, ho, hbase, hown⟩ := ih
      rw [runOps_snoc]
      cases op with
      | setLevel log_level =>
          refine ⟨o.setLevel .sqliteSink log_level, ?_, hbase, ?_⟩
          · simp [stepOp, ho]
          · simp [Object.setLevel, setting]
      | dispatch msg =>
          refine ⟨o.sinkIt msg, ?_, ?_, ?_⟩
          · simp [stepOp, backendSinkIt, ho]
          · unfold Object.sinkIt
            split <;> exact hbase
          · have hsame : setting (ops ++ [.dispatch msg]) = setting ops := by simp [setting]
            rw [hsame]
            unfold Object.sinkIt
            split <;> exact hown
      | level view =>
          refine ⟨o, ho, hbase, hown.trans ?_⟩
          simp [setting]

/-! ## Filtering -/

/-- What an operation has to do on the sink while `l` is the level most recently set. -/
def Op.Obeys (l : Level) (o o' : Object T) : Op T → Prop
  | .setLevel _ => True
  | .dispatch msg => o'.reached = if l.val ≤ msg.level.val then o.reached ++ [msg] else o.reached
  | .level view => o.level view = l

/-- The operation does not show which `level_` is used. -/
def Op.Spared (l : Level) : Op T → Prop
  | .setLevel _ | .level .sqliteSink => True
  | .dispatch msg => l.val ≤ msg.level.val
  | .level .sink => l = .trace

/-- The operation does what it has to do, after the operations before it. -/
def Obeyed (k : ℕ) (sinks_ : List (Object T)) (earlier : List (Op T)) (op : Op T) : Prop :=
  ∃ o o', (runOps k sinks_ earlier)[k]? = some o ∧
    (runOps k sinks_ (earlier ++ [op]))[k]? = some o' ∧ op.Obeys (setting earlier) o o'

theorem obeyed_iff {k : ℕ} {sinks_ : List (Object T)} (hk : sinks_[k]? = some .new)
    (earlier : List (Op T)) (op : Op T) :
    Obeyed k sinks_ earlier op ↔ op.Spared (setting earlier) := by
  obtain ⟨o, ho, hbase, hown⟩ := runOps_levels hk earlier
  -- the sink before and after the operation
  have hobeyed : ∀ o', (stepOp k (runOps k sinks_ earlier) op)[k]? = some o' →
      (Obeyed k sinks_ earlier op ↔ op.Obeys (setting earlier) o o') := by
    intro o' ho'
    unfold Obeyed
    rw [runOps_snoc]
    constructor
    · rintro ⟨p, p', hp, hp', hop⟩
      cases ho.symm.trans hp
      cases ho'.symm.trans hp'
      exact hop
    · intro hop
      exact ⟨o, o', ho, ho', hop⟩
  cases op with
  | setLevel log_level =>
      rw [hobeyed (o.setLevel .sqliteSink log_level) (by simp [stepOp, ho])]
      exact iff_of_true trivial trivial
  | dispatch msg =>
      rw [hobeyed (o.sinkIt msg) (by simp [stepOp, backendSinkIt, ho])]
      -- nothing is below `trace`, so every message gets through
      have hreached : (o.sinkIt msg).reached = o.reached ++ [msg] := by
        simp [Object.sinkIt, Object.shouldLog, hbase, Level.val]
      simp only [Op.Obeys, Op.Spared, hreached]
      by_cases hlevel : (setting earlier).val ≤ msg.level.val <;> simp [hlevel]
  | level view =>
      rw [hobeyed o ho]
      cases view with
      | sink =>
          simp only [Op.Obeys, Op.Spared, Object.level, hbase]
          exact eq_comm
      | sqliteSink => exact iff_of_true hown trivial

/-- Settings, messages and readings in any order: each message gets through exactly when it
is not below the level most recently set, and each reading reports that level, if and only if
no message is below it and no reading through a pointer to `sink` meets another level than
`trace`. -/
theorem filtering_iff {k : ℕ} {sinks_ : List (Object T)} (hk : sinks_[k]? = some .new)
    (ops : List (Op T)) :
    (∀ earlier op later, ops = earlier ++ op :: later → Obeyed k sinks_ earlier op) ↔
      ∀ earlier op later, ops = earlier ++ op :: later → op.Spared (setting earlier) := by
  refine forall_congr' fun earlier => forall_congr' fun op => forall_congr' fun later => ?_
  exact imp_congr_right fun _ => obeyed_iff hk earlier op

/-- A setting and a message above it, with another sink before this one. -/
theorem filtering_iff_second :
    (∀ earlier op later,
      [Op.setLevel .debug,
          .dispatch ⟨⟨some [0], 0, by decide⟩, .info, (), 7, ⟨none, 0, none⟩, []⟩] =
        earlier ++ op :: later → Obeyed 1 [.new, .new] earlier op) ↔
      ∀ earlier op later,
        [Op.setLevel .debug,
            .dispatch ⟨⟨some [0], 0, by decide⟩, .info, (), 7, ⟨none, 0, none⟩, []⟩] =
          earlier ++ op :: later → op.Spared (setting earlier) :=
  filtering_iff rfl _

/-- An `info` message after the level has been set to `err`. -/
theorem below_level_logged :
    ¬ ∀ ops : List (Op Unit), ∀ earlier op later, ops = earlier ++ op :: later →
      Obeyed 0 [.new] earlier op := by
  intro hall
  have hobeyed := hall _ [.setLevel .err]
    (.dispatch ⟨⟨some [0], 0, by decide⟩, .info, (), 7, ⟨none, 0, none⟩, []⟩) [] rfl
  have hspared : Level.err.val ≤ Level.info.val := (obeyed_iff rfl _ _).mp hobeyed
  exact absurd hspared (by decide)

end SqliteSink
