import CcmakeTemplate.Args.Model
import Mathlib.Data.List.TakeWhile

/-!
# The command lines that are accepted

The grammar is written down without the parser. A command line is a sequence of items, with a
terminator at its end or without one. An item is a flag by its long name or a chunk of
letters, with the values that belong to it.

The parser accepts exactly these command lines, and what it has done is to hit their flags
with their values, one after the other. If it throws, the error is about the chunk after the
last item that it could read.
-/

namespace Args

variable {p q q' : ArgumentParser}

/-! ## The grammar -/

/-- These chunks can be the values of a flag. -/
structure Takes (allowSeparate : Bool) (nargs : Nargs) (values : List Text) : Prop where
  min : nargs.min ≤ values.length
  max : values.length ≤ nargs.max
  positional : ∀ value ∈ values.drop nargs.min, parseOption value = .Positional
  separate : allowSeparate = false → values = []

/-- One value may be joined to the flag. -/
structure Joins (allowJoined : Bool) (nargs : Nargs) : Prop where
  min : nargs.min ≤ 1
  max : 1 ≤ nargs.max
  joined : allowJoined = false → nargs.min = 0

/-- A flag by its number, with its values. -/
abbrev Hit := ℕ × List Text

/-- The letters of a chunk, the chunks with values after it, and the flags with their values. -/
inductive Letters (p : ArgumentParser) : Text → List Text → List Hit → Prop where
  | last {c : Char} {i : ℕ} {values : List Text} (hfind : p.find (.short c) = some i)
      (htakes : Takes p.allowSeparateShortValue (p.nargs i) values) :
      Letters p [c] values [(i, values)]
  | joined {c : Char} {i : ℕ} {value : Text} (hfind : p.find (.short c) = some i)
      (hvalue : value ≠ []) (hjoins : Joins p.allowJoinedShortValue (p.nargs i)) :
      Letters p (c :: value) [] [(i, [value])]
  | noValue {c : Char} {i : ℕ} {letters : Text} {values : List Text} {hits : List Hit}
      (hfind : p.find (.short c) = some i) (hmax : (p.nargs i).max = 0)
      (hletters : Letters p letters values hits) :
      Letters p (c :: letters) values ((i, []) :: hits)

/-- Items, one after the other. -/
inductive Line (p : ArgumentParser) : List Text → List Hit → Prop where
  | nil : Line p [] []
  | long {name : Text} {i : ℕ} {values args : List Text} {hits : List Hit}
      (hname : longseparator ∉ name) (hne : name ≠ []) (hfind : p.find (.long name) = some i)
      (htakes : Takes p.allowSeparateLongValue (p.nargs i) values) (hline : Line p args hits) :
      Line p ((longPrefix ++ name) :: (values ++ args)) ((i, values) :: hits)
  | joined {name value : Text} {i : ℕ} {args : List Text} {hits : List Hit}
      (hname : longseparator ∉ name) (hfind : p.find (.long name) = some i)
      (hjoins : Joins p.allowJoinedLongValue (p.nargs i)) (hline : Line p args hits) :
      Line p ((longPrefix ++ name ++ longseparator :: value) :: args) ((i, [value]) :: hits)
  | short {letters : Text} {values args : List Text} {hits more : List Hit}
      (hdash : letters.head? ≠ some '-') (hletters : Letters p letters values hits)
      (hline : Line p args more) :
      Line p ((shortPrefix ++ letters) :: (values ++ args)) (hits ++ more)

/-- What is accepted: items, and a terminator or nothing after them. -/
def Accepts (p : ArgumentParser) (args : List Text) (hits : List Hit) : Prop :=
  ∃ items tail, args = items ++ tail ∧ Line p items hits ∧ (tail = [] ∨ tail = [terminator])

/-- All flags are hit. -/
def ArgumentParser.hitAll (p : ArgumentParser) (hits : List Hit) : ArgumentParser :=
  hits.foldl (fun p h => p.hit h.1 h.2) p

/-! ## Chunks -/

theorem parseOption_long {s : Text} (h : s ≠ []) : parseOption (longPrefix ++ s) = .LongFlag := by
  obtain ⟨c, s, rfl⟩ := List.exists_cons_of_ne_nil h
  simp [parseOption, longPrefix]

theorem parseOption_short {s : Text} (h : s ≠ []) (hdash : s.head? ≠ some '-') :
    parseOption (shortPrefix ++ s) = .ShortFlag := by
  obtain ⟨c, s, rfl⟩ := List.exists_cons_of_ne_nil h
  have hc : '-' ≠ c := fun hc => hdash (congrArg some hc.symm)
  simp [parseOption, longPrefix, shortPrefix, hc]

theorem eq_of_long {chunk : Text} (h : parseOption chunk = .LongFlag) :
    ∃ s, s ≠ [] ∧ chunk = longPrefix ++ s := by
  unfold parseOption at h
  split at h
  · rename_i hlong
    rw [Bool.and_eq_true, List.isPrefixOf_iff_prefix, decide_eq_true_iff] at hlong
    obtain ⟨⟨s, rfl⟩, hlen⟩ := hlong
    refine ⟨s, ?_, rfl⟩
    rintro rfl
    simp at hlen
  · split at h <;> cases h

theorem eq_of_short {chunk : Text} (h : parseOption chunk = .ShortFlag) (hne : chunk ≠ terminator) :
    ∃ s, s ≠ [] ∧ s.head? ≠ some '-' ∧ chunk = shortPrefix ++ s := by
  unfold parseOption at h
  split at h
  · cases h
  · rename_i hlong
    split at h
    · rename_i hshort
      rw [Bool.and_eq_true, List.isPrefixOf_iff_prefix, decide_eq_true_iff] at hshort
      obtain ⟨⟨s, rfl⟩, hlen⟩ := hshort
      obtain ⟨c, s, rfl⟩ : ∃ c s', s = c :: s' := by
        apply List.exists_cons_of_ne_nil
        rintro rfl
        simp at hlen
      refine ⟨c :: s, List.cons_ne_nil c s, ?_, rfl⟩
      intro hc
      cases hc
      -- a second dash makes a long flag, unless nothing follows
      cases s with
      | nil => exact hne rfl
      | cons c s => exact hlong (by simp [longPrefix, shortPrefix])
    · cases h

theorem splitJoined_plain {name : Text} (h : longseparator ∉ name) :
    splitJoined name = (name, none) := by
  unfold splitJoined
  rw [if_neg h, List.takeWhile_eq_self_iff.mpr]
  intro c hc
  exact decide_eq_true fun heq => h (heq ▸ hc)

theorem splitJoined_joined {name : Text} (h : longseparator ∉ name) (value : Text) :
    splitJoined (name ++ longseparator :: value) = (name, some value) := by
  have hall : ∀ c ∈ name, decide (c ≠ longseparator) = true := fun c hc =>
    decide_eq_true fun heq => h (heq ▸ hc)
  unfold splitJoined
  rw [if_pos (by simp), List.takeWhile_append_of_pos hall, List.dropWhile_append_of_pos hall]
  simp

theorem splitJoined_cases (argchunk : Text) :
    (longseparator ∉ argchunk) ∨
      ∃ name value, longseparator ∉ name ∧ argchunk = name ++ longseparator :: value := by
  by_cases h : longseparator ∈ argchunk
  · obtain ⟨name, value, heq, hname⟩ := List.eq_append_cons_of_mem h
    exact .inr ⟨name, value, hname, heq⟩
  · exact .inl h

/-! ## Values -/

/-- The next chunk, if there is one, is no value by itself. -/
def Stops (args : List Text) : Prop := ∀ chunk ∈ args.head?, parseOption chunk ≠ .Positional

/-- The loop stops at the first chunk that it must not or cannot take. -/
theorem takeValues_spec (nargs : Nargs) (values chunks : List Text)
    (hle : values.length ≤ nargs.max) :
    ∃ taken rest, takeValues nargs values chunks = (values ++ taken, rest) ∧
      chunks = taken ++ rest ∧ (values ++ taken).length ≤ nargs.max ∧
      ((values ++ taken).length < nargs.min → rest = []) ∧
      ∀ value ∈ taken.drop (nargs.min - values.length), parseOption value = .Positional := by
  induction chunks generalizing values with
  | nil => exact ⟨[], [], by simp [takeValues], rfl, by simpa using hle, fun _ => rfl, by simp⟩
  | cons chunk chunks ih =>
      unfold takeValues
      split
      · rename_i hcond
        have hsnoc : (values ++ [chunk]).length = values.length + 1 := by simp
        obtain ⟨taken, rest, htake, hchunks, hmax, hend, hpositional⟩ :=
          ih (values ++ [chunk]) (hsnoc ▸ hcond.1)
        have hcons : values ++ chunk :: taken = values ++ [chunk] ++ taken := by simp
        refine ⟨chunk :: taken, rest, hcons ▸ htake, congrArg (chunk :: ·) hchunks, hcons ▸ hmax,
          hcons ▸ hend, ?_⟩
        rw [hsnoc] at hpositional
        rcases Nat.eq_zero_or_pos (nargs.min - values.length) with h | h
        · have hnext : nargs.min - (values.length + 1) = 0 := by omega
          rw [hnext, List.drop_zero] at hpositional
          rw [h, List.drop_zero]
          exact List.forall_mem_cons.mpr ⟨hcond.2.resolve_left (by omega), hpositional⟩
        · have hnext : nargs.min - values.length = nargs.min - (values.length + 1) + 1 := by omega
          rw [hnext, List.drop_succ_cons]
          exact hpositional
      · rename_i hcond
        refine ⟨[], chunk :: chunks, by simp, rfl, by simpa using hle, fun hlt => ?_, by simp⟩
        rw [List.append_nil] at hlt
        exact absurd ⟨hlt.trans_le nargs.le, .inl hlt⟩ hcond

theorem takeValues_append {nargs : Nargs} {taken rest : List Text} (hrest : Stops rest)
    (values : List Text) (hmin : nargs.min ≤ (values ++ taken).length)
    (hmax : (values ++ taken).length ≤ nargs.max)
    (hpositional : ∀ value ∈ taken.drop (nargs.min - values.length),
      parseOption value = .Positional) :
    takeValues nargs values (taken ++ rest) = (values ++ taken, rest) := by
  induction taken generalizing values with
  | nil =>
      rw [List.append_nil] at hmin ⊢
      cases rest with
      | nil => rfl
      | cons chunk rest =>
          have hstop : ¬ (values.length < nargs.max ∧
              (values.length < nargs.min ∨ parseOption chunk = .Positional)) := by
            rintro ⟨-, hlt | hchunk⟩
            · omega
            · exact hrest chunk rfl hchunk
          exact if_neg hstop
  | cons value taken ih =>
      have htake : values.length < nargs.max ∧
          (values.length < nargs.min ∨ parseOption value = .Positional) := by
        rw [List.length_append, List.length_cons] at hmax
        refine ⟨by omega, ?_⟩
        by_cases hlt : values.length < nargs.min
        · exact .inl hlt
        · refine .inr (hpositional value ?_)
          rw [Nat.sub_eq_zero_of_le (by omega), List.drop_zero]
          exact List.mem_cons_self
      show (if _ then _ else _) = _
      have hsnoc : values ++ value :: taken = (values ++ [value]) ++ taken := by simp
      rw [if_pos htake, hsnoc]
      refine ih (values ++ [value]) (hsnoc ▸ hmin) (hsnoc ▸ hmax) ?_
      intro v hv
      apply hpositional v
      rw [List.length_append, List.length_singleton] at hv
      rcases Nat.eq_zero_or_pos (nargs.min - values.length) with h | h
      · have hnext : nargs.min - (values.length + 1) = 0 := by omega
        rw [hnext] at hv
        rw [h]
        exact List.mem_cons_of_mem _ hv
      · have hnext : nargs.min - values.length = nargs.min - (values.length + 1) + 1 := by omega
        rw [hnext]
        exact hv

theorem checkNumber_ok {nargs : Nargs} {arg : Text} {values rest : List Text}
    {r : List Text × List Text} :
    checkNumber nargs arg values rest = .ok r ↔
      nargs.min ≤ values.length ∧ values.length ≤ nargs.max ∧ r = (values, rest) := by
  unfold checkNumber
  split
  · rename_i h
    exact iff_of_false (by simp) (by omega)
  · split
    · rename_i h
      exact iff_of_false (by simp) (by omega)
    · rename_i hmax hmin
      rw [Except.ok.injEq]
      constructor
      · rintro rfl
        exact ⟨by omega, by omega, rfl⟩
      · rintro ⟨-, -, rfl⟩
        rfl

variable {nargs : Nargs} {arg : Text} {values rest rest' : List Text}
  {allowSeparate allowJoined d : Bool}

theorem takes_separate (h : Takes allowSeparate nargs values) (hrest : Stops rest') :
    parseArgsValues nargs arg (values ++ rest') allowSeparate allowJoined none d =
      .ok (values, rest') := by
  cases allowSeparate with
  | false =>
      obtain rfl := h.separate rfl
      have hmin : (nargs.min != 0) = false := by simpa using h.min
      simp only [parseArgsValues, Bool.not_false, if_true, hmin, Bool.false_eq_true, if_false]
      exact checkNumber_ok.mpr ⟨h.min, h.max, rfl⟩
  | true =>
      have htake := takeValues_append hrest [] h.min h.max h.positional
      simp only [parseArgsValues, Bool.not_true, Bool.false_eq_true, if_false, htake]
      exact checkNumber_ok.mpr ⟨h.min, h.max, rfl⟩

/-- A flag with a joined value. -/
theorem joined_ok {value : Text} {r : List Text × List Text} :
    parseArgsValues nargs arg rest allowSeparate allowJoined (some value) d = .ok r ↔
      (Joins allowJoined nargs ∧ r = ([value], rest)) ∨
        (d = true ∧ nargs.max = 0 ∧ r = ([], rest)) := by
  have hle := nargs.le
  by_cases hno : (!allowJoined && nargs.min != 0) = true
  · have hnot : ¬ Joins allowJoined nargs := by
      intro h
      simp only [Bool.and_eq_true, Bool.not_eq_true', bne_iff_ne] at hno
      exact hno.2 (h.joined hno.1)
    have hmax : nargs.max ≠ 0 := by
      simp only [Bool.and_eq_true, bne_iff_ne] at hno
      omega
    simp only [parseArgsValues, hno, if_true]
    exact iff_of_false (by simp) (by simp [hnot, hmax])
  · have hjoined : allowJoined = false → nargs.min = 0 := by
      intro h
      simpa [h] using hno
    simp only [parseArgsValues, hno, Bool.false_eq_true, if_false]
    by_cases hdiscard : (!d || nargs.max != 0) = true
    · rw [if_pos hdiscard, checkNumber_ok]
      simp only [List.length_singleton]
      have hnot : ¬ (d = true ∧ nargs.max = 0 ∧ r = ([], rest)) := by
        rintro ⟨rfl, hmax, -⟩
        simp [hmax] at hdiscard
      rw [or_iff_left hnot]
      exact ⟨fun ⟨hmin, hmax, heq⟩ => ⟨⟨hmin, hmax, hjoined⟩, heq⟩,
        fun ⟨h, heq⟩ => ⟨h.min, h.max, heq⟩⟩
    · rw [if_neg hdiscard, checkNumber_ok]
      simp only [Bool.or_eq_true, Bool.not_eq_true', bne_iff_ne, not_or, ne_eq, not_not,
        Bool.not_eq_false] at hdiscard
      obtain ⟨rfl, hmax⟩ := hdiscard
      have hnot : ¬ (Joins allowJoined nargs ∧ r = ([value], rest)) := by
        rintro ⟨h, -⟩
        have := h.max
        omega
      rw [or_iff_right hnot]
      exact ⟨fun h => ⟨rfl, hmax, h.2.2⟩, fun h => ⟨by simp; omega, by simp, h.2.2⟩⟩

theorem joins_joined (h : Joins allowJoined nargs) {value : Text} :
    parseArgsValues nargs arg rest allowSeparate allowJoined (some value) d =
      .ok ([value], rest) :=
  joined_ok.mpr (.inl ⟨h, rfl⟩)

/-- What is joined to a flag without values may be the next letters. -/
theorem joined_discarded (hmax : nargs.max = 0) {value : Text} :
    parseArgsValues nargs arg rest allowSeparate allowJoined (some value) true = .ok ([], rest) :=
  joined_ok.mpr (.inr ⟨rfl, hmax, rfl⟩)

/-! ## The state of the parser -/

namespace ArgumentParser

/-- The parsers differ only in what has been hit. -/
structure Alike (p q : ArgumentParser) : Prop where
  find : q.find = p.find
  nargs : q.nargs = p.nargs
  joinedShort : q.allowJoinedShortValue = p.allowJoinedShortValue
  joinedLong : q.allowJoinedLongValue = p.allowJoinedLongValue
  separateShort : q.allowSeparateShortValue = p.allowSeparateShortValue
  separateLong : q.allowSeparateLongValue = p.allowSeparateLongValue

theorem Alike.refl (p : ArgumentParser) : Alike p p := ⟨rfl, rfl, rfl, rfl, rfl, rfl⟩

theorem hit_find (p : ArgumentParser) (i : ℕ) (values : List Text) (name : EitherFlag) :
    (p.hit i values).find name = p.find name := by
  -- what the flags answer is all that counts
  have hmap : ∀ flags : List Flag, flags.findIdx? (fun flag => flag.matches name) =
      (flags.map fun flag => flag.matches name).findIdx? id := by
    intro flags
    rw [List.findIdx?_map]
    rfl
  unfold find hit
  rw [hmap, hmap]
  congr 1
  apply List.ext_getElem?
  intro j
  rw [List.getElem?_map, List.getElem?_map, List.getElem?_modify]
  split
  · cases p.children[j]? <;> cases name <;> rfl
  · cases p.children[j]? <;> rfl

theorem hit_nargs (p : ArgumentParser) (i : ℕ) (values : List Text) (j : ℕ) :
    (p.hit i values).nargs j = p.nargs j := by
  unfold nargs hit
  rw [List.getElem?_modify]
  split <;> cases p.children[j]? <;> rfl

theorem Alike.hit (h : Alike p q) (i : ℕ) (values : List Text) : Alike p (q.hit i values) := by
  constructor
  · funext name
    rw [hit_find, h.find]
  · funext j
    rw [hit_nargs, h.nargs]
  · exact h.joinedShort
  · exact h.joinedLong
  · exact h.separateShort
  · exact h.separateLong

theorem Alike.hitAll (h : Alike p q) (hits : List Hit) : Alike p (q.hitAll hits) := by
  unfold ArgumentParser.hitAll
  induction hits generalizing q with
  | nil => exact h
  | cons hit hits ih => exact ih (h.hit hit.1 hit.2)

theorem hitAll_append (q : ArgumentParser) (hits more : List Hit) :
    q.hitAll (hits ++ more) = (q.hitAll hits).hitAll more := by
  unfold hitAll
  rw [List.foldl_append]

end ArgumentParser

open ArgumentParser

/-! ## Letters -/

theorem Letters.ne_nil {letters : Text} {values : List Text} {hits : List Hit}
    (h : Letters p letters values hits) : letters ≠ [] := by
  cases h <;> simp

theorem Letters.parse (hq : Alike p q) {letters : Text} {values : List Text} {hits : List Hit}
    (h : Letters p letters values hits) {rest : List Text} (hrest : Stops rest) :
    q.parseLetters letters (values ++ rest) = .ok (q.hitAll hits, rest) := by
  induction h generalizing q with
  | last hfind htakes =>
      simp only [parseLetters, hq.find, hfind, hq.nargs, hq.separateShort, hq.joinedShort,
        List.isEmpty_nil, if_true, takes_separate htakes hrest]
      split <;> rfl
  | joined hfind hvalue hjoins =>
      have hvalue' := List.isEmpty_eq_false_iff.mpr hvalue
      simp only [parseLetters, hq.find, hfind, hq.nargs, hq.separateShort, hq.joinedShort,
        hvalue', Bool.false_eq_true, if_false, List.nil_append, joins_joined hjoins,
        List.isEmpty_cons]
      rfl
  | noValue hfind hmax hletters ih =>
      have hvalue' := List.isEmpty_eq_false_iff.mpr hletters.ne_nil
      simp only [parseLetters, hq.find, hfind, hq.nargs, hq.separateShort, hq.joinedShort,
        hvalue', Bool.false_eq_true, if_false, Bool.not_false, joined_discarded hmax,
        List.isEmpty_nil, if_true]
      exact ih (hq.hit _ _)

/-! ## Lines -/

theorem Line.stops {items : List Text} {hits : List Hit} (h : Line p items hits)
    {tail : List Text} (htail : Stops tail) : Stops (items ++ tail) := by
  intro chunk hchunk
  cases h with
  | nil => exact htail chunk hchunk
  | long hname hne =>
      cases hchunk
      rw [parseOption_long hne]
      decide
  | joined =>
      cases hchunk
      rw [List.append_assoc, parseOption_long (by simp)]
      decide
  | short hdash hletters =>
      cases hchunk
      rw [parseOption_short hletters.ne_nil hdash]
      decide

theorem parseLoop_long (n : ℕ) {chunk : Text} (h : parseOption chunk = .LongFlag)
    (rest : List Text) :
    parseLoop (n + 1) q false (chunk :: rest) =
      (q.parseLong chunk rest).bind fun r => parseLoop n r.1 false r.2 := by
  have hterm : (chunk == terminator) = false := by
    rw [beq_eq_false_iff_ne]
    rintro rfl
    cases h
  simp only [parseLoop, Bool.not_false, Bool.true_and, hterm, Bool.false_eq_true, if_false, h,
    beq_self_eq_true, if_true]
  cases q.parseLong chunk rest <;> rfl

theorem parseLoop_short (n : ℕ) {chunk : Text} (h : parseOption chunk = .ShortFlag)
    (hne : chunk ≠ terminator) (rest : List Text) :
    parseLoop (n + 1) q false (chunk :: rest) =
      (q.parseShort chunk rest).bind fun r => parseLoop n r.1 false r.2 := by
  have hterm : (chunk == terminator) = false := beq_eq_false_iff_ne.mpr hne
  have hlong : (OptionType.ShortFlag == OptionType.LongFlag) = false := rfl
  simp only [parseLoop, Bool.not_false, Bool.true_and, hterm, Bool.false_eq_true, if_false, h,
    hlong, beq_self_eq_true, if_true]
  cases q.parseShort chunk rest <;> rfl

theorem parseLoop_positional (n : ℕ) {chunk : Text} (h : parseOption chunk = .Positional)
    (rest : List Text) :
    parseLoop (n + 1) q false (chunk :: rest) = .error (noPositional chunk) := by
  have hterm : (chunk == terminator) = false := by
    rw [beq_eq_false_iff_ne]
    rintro rfl
    cases h
  have hlong : (OptionType.Positional == OptionType.LongFlag) = false := rfl
  have hshort : (OptionType.Positional == OptionType.ShortFlag) = false := rfl
  simp only [parseLoop, Bool.not_false, Bool.true_and, hterm, Bool.false_eq_true, if_false, h,
    hlong, hshort]

/-- The loop gets past the items of a line. -/
theorem Line.parse {items : List Text} {hits : List Hit} (h : Line p items hits)
    {tail : List Text} (htail : Stops tail) {n : ℕ} (hn : (items ++ tail).length ≤ n)
    (hq : Alike p q) :
    ∃ m, tail.length ≤ m ∧
      parseLoop n q false (items ++ tail) = parseLoop m (q.hitAll hits) false tail := by
  induction h generalizing q n with
  | nil => exact ⟨n, hn, rfl⟩
  | @long name i values items hits hname hne hfind htakes hline ih =>
      cases n with
      | zero => cases hn
      | succ n =>
          rw [List.cons_append, List.append_assoc, List.length_cons, List.length_append] at hn
          have hread : q.parseLong (longPrefix ++ name) (values ++ (items ++ tail)) =
              .ok (q.hit i values, items ++ tail) := by
            unfold parseLong
            rw [List.drop_left, splitJoined_plain hname]
            simp only [hq.find, hfind, hq.nargs, hq.separateLong, hq.joinedLong,
              takes_separate htakes (hline.stops htail)]
          rw [List.cons_append, List.append_assoc,
            parseLoop_long n (parseOption_long hne), hread]
          exact ih (by omega) (hq.hit i values)
  | @joined name value i items hits hname hfind hjoins hline ih =>
      cases n with
      | zero => cases hn
      | succ n =>
          rw [List.cons_append, List.length_cons] at hn
          have hread : q.parseLong (longPrefix ++ (name ++ longseparator :: value))
              (items ++ tail) = .ok (q.hit i [value], items ++ tail) := by
            unfold parseLong
            rw [List.drop_left, splitJoined_joined hname]
            simp only [hq.find, hfind, hq.nargs, hq.separateLong, hq.joinedLong,
              joins_joined hjoins]
          rw [List.cons_append, List.append_assoc,
            parseLoop_long n (parseOption_long (by simp)), hread]
          exact ih (by omega) (hq.hit i [value])
  | @short letters values items hits more hdash hletters hline ih =>
      cases n with
      | zero => cases hn
      | succ n =>
          rw [List.cons_append, List.append_assoc, List.length_cons, List.length_append] at hn
          have hne : shortPrefix ++ letters ≠ terminator := by
            intro heq
            obtain rfl : letters = ['-'] := (List.append_right_inj shortPrefix).mp heq
            exact hdash rfl
          have hread : q.parseShort (shortPrefix ++ letters) (values ++ (items ++ tail)) =
              .ok (q.hitAll hits, items ++ tail) := by
            unfold parseShort
            rw [List.drop_left]
            exact hletters.parse hq (hline.stops htail)
          rw [List.cons_append, List.append_assoc,
            parseLoop_short n (parseOption_short hletters.ne_nil hdash) hne, hread, hitAll_append]
          exact ih (by omega) (hq.hitAll hits)

end Args
