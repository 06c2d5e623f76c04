import CcmakeTemplate.SqliteSink.Model

/-!
# The row of a message

Every name that `insertLog` looks up is one that `log` has assigned, and it comes at the
place of its column. The values have no NUL and arrive whole, all but the payload. The name of
the logger has no column, but `log` reads it all the same, and without a NUL behind it the
behaviour is undefined.
-/

namespace SqliteSink

/-! ## Strings without NUL -/

theorem cString_eq_self_iff {bytes : Bytes} : cString bytes = bytes ↔ 0 ∉ bytes := by
  unfold cString
  rw [List.takeWhile_eq_self_iff]
  constructor
  · intro hall hmem
    simpa using hall 0 hmem
  · intro hno b hb
    simp only [ne_eq, decide_eq_true_eq]
    rintro rfl
    exact hno hb

theorem digits_noNul (n : ℕ) : 0 ∉ digits n := by
  unfold digits
  split
  · decide
  · intro hmem
    obtain ⟨d, hd, hzero⟩ := List.mem_map.mp hmem
    have hlt : d < 10 := Nat.digits_lt_base (by decide) (List.mem_reverse.mp hd)
    have hmod : (48 + d) % 256 = 0 := congrArg UInt8.toNat hzero
    omega

theorem stdToString_noNul (n : ℤ) : 0 ∉ stdToString n := by
  unfold stdToString
  split
  · rw [List.mem_append, not_or]
    exact ⟨by decide, digits_noNul _⟩
  · exact digits_noNul _

/-! ## Numbers as text -/

theorem digits_of_lt {n : ℕ} (h : n < 10) : digits n = text (toString n) := by
  revert n
  decide

theorem text_toString (n : ℕ) :
    text (toString n) = (Nat.toDigits 10 n).map fun c => c.toNat.toUInt8 := by
  show (String.ofList (Nat.toDigits 10 n)).toList.map _ = _
  rw [String.toList_ofList]

theorem digits_append {n d : ℕ} (hn : 0 < n) (hd : d < 10) :
    digits (10 * n + d) = digits n ++ digits d := by
  have hlast : digits d = [(48 + d).toUInt8] := by
    revert d
    decide
  have hcons : Nat.digits 10 (10 * n + d) = d :: Nat.digits 10 n := by
    rw [Nat.add_comm]
    exact Nat.digits_add 10 (by decide) d n hd (.inr hn.ne')
  rw [hlast, digits, digits, if_neg (by omega), if_neg hn.ne', hcons, List.reverse_cons,
    List.map_append, List.map_singleton]

/-- The digits are the decimal notation of the number. -/
theorem digits_eq (n : ℕ) : digits n = text (toString n) := by
  induction n using Nat.strong_induction_on with
  | _ n ih =>
      by_cases hsmall : n < 10
      · exact digits_of_lt hsmall
      · have hsplit : n = 10 * (n / 10) + n % 10 := by omega
        have hlast : n % 10 < 10 := Nat.mod_lt n (by decide)
        have hrest : 0 < n / 10 := by omega
        rw [hsplit, digits_append hrest hlast, ih (n / 10) (by omega), digits_of_lt hlast,
          text_toString, text_toString, text_toString,
          ← Nat.toDigits_append_toDigits (by decide) hrest hlast, List.map_append]

theorem stdToString_eq (n : ℤ) : stdToString n = text (toString n) := by
  cases n with
  | ofNat n => exact digits_eq n
  | negSucc n =>
      rw [stdToString, if_pos (Int.negSucc_lt_zero n), digits_eq]
      show text "-" ++ text (toString (n + 1)) = text ("-" ++ toString (n + 1))
      rw [text, text, text, String.toList_append, List.map_append]

/-! ## The columns -/

inductive Column where
  | timeStamp | level | file | line | function | pid | tid | message

def Column.name : Column → String
  | .timeStamp => "timeStamp"
  | .level => "level"
  | .file => "file"
  | .line => "line"
  | .function => "function"
  | .pid => "pid"
  | .tid => "tid"
  | .message => "message"

/-- The level as the log spells it. -/
def Level.name : Level → String
  | .trace => "trace"
  | .debug => "debug"
  | .info => "info"
  | .warn => "warning"
  | .err => "error"
  | .critical => "critical"
  | .off => "off"

variable {T : Type}

/-- The field of the message that the column is for: a text as it is, a number in decimal
notation, nothing for a null pointer. -/
def Column.value (format : T → CString) (currentPID : ℤ) (msg : LogMsg T) : Column → Bytes
  | .timeStamp => (format msg.time).bytes
  | .level => text msg.level.name
  | .file => (msg.source.filename.map CString.bytes).getD []
  | .line => text (toString msg.source.line)
  | .function => (msg.source.funcname.map CString.bytes).getD []
  | .pid => text (toString currentPID)
  | .tid => text (toString msg.thread_id)
  | .message => msg.payload

theorem toStringView_eq (level : Level) : level.toStringView = level.name := by
  cases level <;> rfl

theorem orBlank_eq (s : Option CString) : orBlank s = (s.map CString.bytes).getD [] := by
  cases s <;> rfl

theorem orBlank_noNul (s : Option CString) : 0 ∉ orBlank s := by
  cases s with
  | none => exact List.not_mem_nil
  | some s => exact s.noNul

/-- The name that `insertLog` looks up for the column. -/
def Column.infoName : Column → String
  | .timeStamp => "timestamp"
  | .pid => "processID"
  | .tid => "threadID"
  | c => c.name

theorem messageInfoMap_value (format : T → CString) (currentPID : ℤ) (msg : LogMsg T)
    (loggerName : Bytes) (c : Column) :
    messageInfoMap format currentPID msg loggerName c.infoName =
      some (c.value format currentPID msg) := by
  cases c with
  | timeStamp | message => rfl
  | level => exact congrArg (fun name => some (text name)) (toStringView_eq msg.level)
  | file => exact congrArg some (orBlank_eq msg.source.filename)
  | function => exact congrArg some (orBlank_eq msg.source.funcname)
  | line => exact congrArg some (stdToString_eq msg.source.line)
  | pid => exact congrArg some (stdToString_eq currentPID)
  | tid => exact congrArg some (stdToString_eq msg.thread_id)

theorem value_noNul (format : T → CString) (currentPID : ℤ) (msg : LogMsg T) (c : Column)
    (hpayload : 0 ∉ msg.payload) : 0 ∉ c.value format currentPID msg := by
  cases c with
  | timeStamp => exact (format msg.time).noNul
  | level =>
      show 0 ∉ text msg.level.name
      cases msg.level <;> decide
  | file | function =>
      rw [Column.value, ← orBlank_eq]
      exact orBlank_noNul _
  | line | pid =>
      rw [Column.value, ← stdToString_eq]
      exact stdToString_noNul _
  | tid =>
      show 0 ∉ text (toString (msg.thread_id : ℤ))
      rw [← stdToString_eq]
      exact stdToString_noNul _
  | message => exact hpayload

/-- The row that `log` inserts for the message. -/
def rowOf (format : T → CString) (currentPID : ℤ) (msg : LogMsg T) (loggerName : Bytes) : Row :=
  storedRow (infoName.foldl (bindInfo (messageInfoMap format currentPID msg loggerName)) [])

/-- Each column is bound to the entry that is looked up for it. -/
theorem rowOf_infoName (format : T → CString) (currentPID : ℤ) (msg : LogMsg T)
    (loggerName : Bytes) (c : Column) :
    (rowOf format currentPID msg loggerName).lookup c.name =
      some (some (cString ((messageInfoMap format currentPID msg loggerName
        c.infoName).getD []))) := by
  cases c <;> rfl

/-- Each column holds its own field, as far as the binding keeps it. -/
theorem rowOf_lookup (format : T → CString) (currentPID : ℤ) (msg : LogMsg T)
    (loggerName : Bytes) (c : Column) :
    (rowOf format currentPID msg loggerName).lookup c.name =
      some (some (cString (c.value format currentPID msg))) := by
  rw [rowOf_infoName, messageInfoMap_value, Option.getD_some]

theorem log_inserts {sqlite : Sqlite} (hprepare : sqlite.prepare = .ok ())
    (hstep : sqlite.step = .ok ()) {sink : Sink} {rows : List Row} (hdb : sink.db = some rows)
    (format : T → CString) (currentPID : ℤ) (msg : LogMsg T) :
    log sqlite format currentPID sink msg =
      (fromPointer msg.logger_name.data).map fun loggerName =>
        { sink with db := some (rows ++ [rowOf format currentPID msg loggerName]) } := by
  simp only [log, insertLog, hdb, hprepare, hstep]
  rfl

/-! ## Fidelity -/

/-- One row is added, and each of its columns holds the field of the message. -/
def Faithful (sqlite : Sqlite) (format : T → CString) (currentPID : ℤ) (sink : Sink)
    (rows : List Row) (msg : LogMsg T) : Prop :=
  ∃ row, log sqlite format currentPID sink msg = some { sink with db := some (rows ++ [row]) } ∧
    ∀ c : Column, row.lookup c.name = some (some (c.value format currentPID msg))

/-- The pointer to the name leads to a NUL within the object. -/
def StringView.Terminated (s : StringView) : Prop := ∃ bytes, s.data = some bytes ∧ 0 ∈ bytes

theorem StringView.terminated_iff (s : StringView) :
    s.Terminated ↔ ∃ loggerName, fromPointer s.data = some loggerName := by
  unfold StringView.Terminated fromPointer
  cases s.data with
  | none => simp
  | some bytes => by_cases hnul : 0 ∈ bytes <;> simp [hnul]

theorem Faithful.holds {sqlite : Sqlite} (hprepare : sqlite.prepare = .ok ())
    (hstep : sqlite.step = .ok ()) {sink : Sink} {rows : List Row} (hdb : sink.db = some rows)
    {format : T → CString} {currentPID : ℤ} {msg : LogMsg T}
    (h : Faithful sqlite format currentPID sink rows msg) :
    msg.logger_name.Terminated ∧ 0 ∉ msg.payload := by
  obtain ⟨row, hrow, hfields⟩ := h
  rw [log_inserts hprepare hstep hdb] at hrow
  obtain ⟨loggerName, hname, hsink⟩ := Option.map_eq_some_iff.mp hrow
  refine ⟨msg.logger_name.terminated_iff.mpr ⟨loggerName, hname⟩, ?_⟩
  have hsame : row = rowOf format currentPID msg loggerName := by
    have hdb' := congrArg Sink.db hsink.symm
    simpa using hdb'
  -- the parameter was bound up to the first NUL
  have hmessage := hfields .message
  rw [hsame, rowOf_lookup] at hmessage
  exact cString_eq_self_iff.mp (Option.some.inj (Option.some.inj hmessage))

/-- The row is faithful exactly when the name of the logger can be read as a C string and the
payload has no NUL in it. -/
theorem faithful_iff {sqlite : Sqlite} (hprepare : sqlite.prepare = .ok ())
    (hstep : sqlite.step = .ok ()) {sink : Sink} {rows : List Row} (hdb : sink.db = some rows)
    (format : T → CString) (currentPID : ℤ) (msg : LogMsg T) :
    Faithful sqlite format currentPID sink rows msg ↔
      msg.logger_name.Terminated ∧ 0 ∉ msg.payload := by
  constructor
  · exact Faithful.holds hprepare hstep hdb
  · rintro ⟨hterminated, hpayload⟩
    obtain ⟨loggerName, hname⟩ := msg.logger_name.terminated_iff.mp hterminated
    refine ⟨rowOf format currentPID msg loggerName, ?_, ?_⟩
    · rw [log_inserts hprepare hstep hdb, hname, Option.map_some]
    · intro c
      rw [rowOf_lookup, cString_eq_self_iff.mpr (value_noNul format currentPID msg c hpayload)]

/-- A message of `main` in line 42 of `main.cpp`. -/
theorem faithful_iff_hello :
    Faithful ⟨.ok (), .ok ()⟩ (fun _ => ⟨text "2024-01-01 00:00:00", by decide⟩) 42 ⟨some [], []⟩ []
      (⟨⟨some (text "global_logger" ++ [0]), 13, by decide⟩, .info, (), 7,
        ⟨some ⟨text "main.cpp", by decide⟩, 42, some ⟨text "main", by decide⟩⟩, text "hello"⟩ :
        LogMsg Unit) :=
  (faithful_iff rfl rfl rfl _ _ _).mpr ⟨⟨_, rfl, by decide⟩, by decide⟩

/-- The payload is three bytes long, and the second one is NUL. -/
theorem payload_cut :
    ¬ ∀ (sqlite : Sqlite) (format : Unit → CString) (currentPID : ℤ) (sink : Sink)
      (rows : List Row) (msg : LogMsg Unit), sqlite.prepare = .ok () → sqlite.step = .ok () →
      sink.db = some rows → Faithful sqlite format currentPID sink rows msg := by
  intro hall
  have hfaithful := hall ⟨.ok (), .ok ()⟩ (fun _ => ⟨text "2024-01-01 00:00:00", by decide⟩) 42
    ⟨some [], []⟩ []
    ⟨⟨some (text "global_logger" ++ [0]), 13, by decide⟩, .info, (), 7, ⟨none, 0, none⟩,
      [97, 0, 98]⟩ rfl rfl rfl
  exact absurd (hfaithful.holds rfl rfl rfl).2 (by decide)

end SqliteSink
