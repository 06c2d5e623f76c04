import CcmakeTemplate.Args.Grammar

/-!
# How a command line is parsed to its end

The parser reads items for as long as there are any. What is left decides how it ends:
nothing, a terminator alone, or a chunk that begins no item, which the error is about. For
such a chunk there is one thing that is wrong with it.
-/

namespace Args

open ArgumentParser

variable {p q q' : ArgumentParser} {nargs : Nargs} {arg : Text} {rest tail : List Text}
  {allowSeparate allowJoined d : Bool} {joined : Option Text} {chunk errorMessage : Text}

/-! ## What can be wrong with a chunk -/

/-- What is wrong with the values of a flag, by what is joined to it and what follows it. What
is joined to a flag of a chunk of letters can be discarded: it may be more letters. -/
inductive Wrong (allowSeparate allowJoined canDiscardJoined : Bool) (nargs : Nargs) (arg : Text)
    (rest : List Text) : Option Text → Text → Prop where
  | joined {value : Text} (hjoined : allowJoined = false) (hmin : nargs.min ≠ 0) :
      Wrong allowSeparate allowJoined canDiscardJoined nargs arg rest (some value)
        (joinedDisallowed arg)
  | tooFewJoined {value : Text} (hjoined : allowJoined = true) (hmin : 1 < nargs.min) :
      Wrong allowSeparate allowJoined canDiscardJoined nargs arg rest (some value)
        (tooFew nargs arg 1)
  | tooMany {value : Text} (hdiscard : canDiscardJoined = false) (hmax : nargs.max = 0) :
      Wrong allowSeparate allowJoined canDiscardJoined nargs arg rest (some value) (tooMany arg)
  | separate (hseparate : allowSeparate = false) (hmin : nargs.min ≠ 0) :
      Wrong allowSeparate allowJoined canDiscardJoined nargs arg rest none
        (separateDisallowed arg)
  /-- The command line has come to its end before the values have. -/
  | tooFew (hseparate : allowSeparate = true) (hmin : rest.length < nargs.min) :
      Wrong allowSeparate allowJoined canDiscardJoined nargs arg rest none
        (tooFew nargs arg rest.length)

/-- A chunk of letters fails at one of them, after letters of flags without values. -/
inductive Spoiled (p : ArgumentParser) (rest : List Text) : Text → Text → Prop where
  | unmatched {c : Char} {value : Text} (hfind : p.find (.short c) = none) :
      Spoiled p rest (c :: value) (unmatchedShort c)
  | wrong {c : Char} {value : Text} {i : ℕ} {errorMessage : Text}
      (hfind : p.find (.short c) = some i)
      (hwrong : Wrong p.allowSeparateShortValue p.allowJoinedShortValue (!value.isEmpty)
        (p.nargs i) [c] rest (if value.isEmpty then none else some value) errorMessage) :
      Spoiled p rest (c :: value) errorMessage
  | later {c : Char} {letters : Text} {i : ℕ} {errorMessage : Text}
      (hfind : p.find (.short c) = some i) (hmax : (p.nargs i).max = 0)
      (hletters : Spoiled p rest letters errorMessage) :
      Spoiled p rest (c :: letters) errorMessage

/-- A chunk that begins no item, with the chunks after it and the error that it is. -/
inductive Offence (p : ArgumentParser) (rest : List Text) : Text → Text → Prop where
  | positional {chunk : Text} (h : parseOption chunk = .Positional) :
      Offence p rest chunk (noPositional chunk)
  | unmatched {name : Text} (hne : name ≠ [])
      (hfind : p.find (.long (splitJoined name).1) = none) :
      Offence p rest (longPrefix ++ name) (unmatchedLong (splitJoined name).1)
  | wrong {name : Text} {i : ℕ} {errorMessage : Text} (hne : name ≠ [])
      (hfind : p.find (.long (splitJoined name).1) = some i)
      (hwrong : Wrong p.allowSeparateLongValue p.allowJoinedLongValue false (p.nargs i)
        (splitJoined name).1 rest (splitJoined name).2 errorMessage) :
      Offence p rest (longPrefix ++ name) errorMessage
  | letters {letters errorMessage : Text} (hdash : letters.head? ≠ some '-')
      (hletters : Spoiled p rest letters errorMessage) :
      Offence p rest (shortPrefix ++ letters) errorMessage

/-- How the parser ends in the state `q`, by what is left after the items. -/
inductive Ends (p q : ArgumentParser) : List Text → Except Text ArgumentParser → Prop where
  | done : Ends p q [] (.ok q)
  | terminated : Ends p q [terminator] (.ok q)
  | afterTerminator {chunk : Text} {rest : List Text} :
      Ends p q (terminator :: chunk :: rest) (.error (noPositional chunk))
  | offence {chunk : Text} {rest : List Text} {errorMessage : Text}
      (h : Offence p rest chunk errorMessage) : Ends p q (chunk :: rest) (.error errorMessage)

/-! ## What is wrong is no item -/

theorem Wrong.not_takes {values more : List Text}
    (h : Wrong allowSeparate allowJoined d nargs arg (values ++ more) none errorMessage) :
    ¬ Takes allowSeparate nargs values := by
  intro htakes
  have hmin := htakes.min
  cases h with
  | separate hseparate hpos =>
      rw [htakes.separate hseparate, List.length_nil] at hmin
      exact hpos (Nat.le_zero.mp hmin)
  | tooFew _ hlength =>
      rw [List.length_append] at hlength
      omega

theorem Wrong.not_joins {value : Text}
    (h : Wrong allowSeparate allowJoined d nargs arg rest (some value) errorMessage) :
    ¬ Joins allowJoined nargs := by
  intro hjoins
  have hmin := hjoins.min
  have hmax := hjoins.max
  cases h with
  | joined hjoined hpos => exact hpos (hjoins.joined hjoined)
  | tooFewJoined => omega
  | tooMany => omega

/-- A flag without values takes no offence at letters after it. -/
theorem Wrong.not_discarded {value : Text}
    (h : Wrong allowSeparate allowJoined true nargs arg rest (some value) errorMessage) :
    nargs.max ≠ 0 := by
  have hle := nargs.le
  cases h with
  | joined _ hpos => omega
  | tooFewJoined => omega
  | tooMany hdiscard => cases hdiscard

theorem Letters.not_spoiled {letters : Text} {values more : List Text} {hits : List Hit}
    (h : Letters p letters values hits) : ¬ Spoiled p (values ++ more) letters errorMessage := by
  induction h with
  | last hfind htakes =>
      intro hspoiled
      cases hspoiled with
      | unmatched hno => simp [hfind] at hno
      | wrong hfind' hwrong =>
          obtain rfl := Option.some.inj (hfind.symm.trans hfind')
          exact hwrong.not_takes htakes
      | later _ _ hletters => cases hletters
  | joined hfind hvalue hjoins =>
      intro hspoiled
      cases hspoiled with
      | unmatched hno => simp [hfind] at hno
      | wrong hfind' hwrong =>
          obtain rfl := Option.some.inj (hfind.symm.trans hfind')
          rw [if_neg (by simpa using hvalue)] at hwrong
          exact hwrong.not_joins hjoins
      | later hfind' hmax =>
          obtain rfl := Option.some.inj (hfind.symm.trans hfind')
          have hone := hjoins.max
          omega
  | noValue hfind hmax hletters ih =>
      intro hspoiled
      cases hspoiled with
      | unmatched hno => simp [hfind] at hno
      | wrong hfind' hwrong =>
          obtain rfl := Option.some.inj (hfind.symm.trans hfind')
          have hvalue := List.isEmpty_eq_false_iff.mpr hletters.ne_nil
          rw [hvalue, if_neg Bool.false_ne_true] at hwrong
          exact hwrong.not_discarded hmax
      | later _ _ hspoiled => exact ih hspoiled

theorem long_ne_short {name letters : Text} (h : letters.head? ≠ some '-') :
    longPrefix ++ name ≠ shortPrefix ++ letters := by
  intro heq
  have hletters : letters = '-' :: name := (List.cons.inj heq).2.symm
  exact h (congrArg List.head? hletters)

theorem parseOption_joined (name value : Text) :
    parseOption (longPrefix ++ name ++ longseparator :: value) = .LongFlag := by
  rw [List.append_assoc]
  exact parseOption_long (by simp)

/-- No items begin with a chunk that is an offence. -/
theorem Line.not_offence {items more : List Text} {hits : List Hit} (h : Line p items hits)
    (hitems : items ++ more = chunk :: rest) (hoffence : Offence p rest chunk errorMessage) :
    items = [] := by
  cases h with
  | nil => rfl
  | @long name i values args hits hname hne hfind htakes hline =>
      exfalso
      rw [List.cons_append, List.append_assoc] at hitems
      obtain ⟨hchunk, hrest⟩ := List.cons.inj hitems
      have hsplit := splitJoined_plain hname
      cases hoffence with
      | positional hpositional => simp [← hchunk, parseOption_long hne] at hpositional
      | unmatched _ hno =>
          obtain rfl := (List.append_right_inj longPrefix).mp hchunk
          simp [hsplit, hfind] at hno
      | wrong _ hfind' hwrong =>
          obtain rfl := (List.append_right_inj longPrefix).mp hchunk
          rw [hsplit] at hfind' hwrong
          obtain rfl := Option.some.inj (hfind.symm.trans hfind')
          rw [← hrest] at hwrong
          exact hwrong.not_takes htakes
      | letters hdash => exact long_ne_short hdash hchunk
  | @joined name value i args hits hname hfind hjoins hline =>
      exfalso
      rw [List.cons_append] at hitems
      obtain ⟨hchunk, -⟩ := List.cons.inj hitems
      have hsplit := splitJoined_joined hname value
      cases hoffence with
      | positional hpositional =>
          rw [← hchunk, parseOption_joined] at hpositional
          cases hpositional
      | unmatched _ hno =>
          rw [List.append_assoc] at hchunk
          obtain rfl := (List.append_right_inj longPrefix).mp hchunk
          simp [hsplit, hfind] at hno
      | wrong _ hfind' hwrong =>
          rw [List.append_assoc] at hchunk
          obtain rfl := (List.append_right_inj longPrefix).mp hchunk
          rw [hsplit] at hfind' hwrong
          obtain rfl := Option.some.inj (hfind.symm.trans hfind')
          exact hwrong.not_joins hjoins
      | letters hdash =>
          rw [List.append_assoc] at hchunk
          exact long_ne_short hdash hchunk
  | @short letters values args hits more' hdash hletters hline =>
      exfalso
      rw [List.cons_append, List.append_assoc] at hitems
      obtain ⟨hchunk, hrest⟩ := List.cons.inj hitems
      cases hoffence with
      | positional hpositional =>
          simp [← hchunk, parseOption_short hletters.ne_nil hdash] at hpositional
      | unmatched => exact long_ne_short hdash hchunk.symm
      | wrong => exact long_ne_short hdash hchunk.symm
      | letters _ hspoiled =>
          obtain rfl := (List.append_right_inj shortPrefix).mp hchunk
          rw [← hrest] at hspoiled
          exact hletters.not_spoiled hspoiled

/-- No items begin with a terminator. -/
theorem Line.not_terminator {items more : List Text} {hits : List Hit} (h : Line p items hits)
    (hitems : items ++ more = terminator :: rest) : items = [] := by
  cases h with
  | nil => rfl
  | long _ hne =>
      have hname := (List.append_right_inj longPrefix).mp
        ((List.cons.inj hitems).1.trans (List.append_nil longPrefix).symm)
      exact absurd hname hne
  | joined =>
      have hlength := congrArg List.length (List.cons.inj hitems).1
      simp [terminator, longPrefix] at hlength
  | short hdash =>
      have hletters := (List.append_right_inj shortPrefix).mp (List.cons.inj hitems).1
      exact absurd (congrArg List.head? hletters) hdash

/-- Where the parser ends, no more items can be read. -/
theorem Ends.no_items {r : Except Text ArgumentParser} (h : Ends p q tail r) {items : List Text}
    {hits : List Hit} (hline : Line p items hits) (hitems : items <+: tail) : items = [] := by
  obtain ⟨more, hmore⟩ := hitems
  cases h with
  | done => exact (List.append_eq_nil_iff.mp hmore).1
  | terminated => exact hline.not_terminator hmore
  | afterTerminator => exact hline.not_terminator hmore
  | offence hoffence => exact hline.not_offence hmore hoffence

/-! ## What is wrong is what is thrown -/

theorem Wrong.parse (h : Wrong allowSeparate allowJoined d nargs arg rest joined errorMessage) :
    parseArgsValues nargs arg rest allowSeparate allowJoined joined d = .error errorMessage := by
  have hle := nargs.le
  cases h with
  | joined hjoined hmin => simp [parseArgsValues, hjoined, hmin]
  | tooFewJoined hjoined hmin =>
      have hmax : nargs.max ≠ 0 := by omega
      have hone : ¬ nargs.max < 1 := by omega
      simp [parseArgsValues, hjoined, checkNumber, hmax, hone, hmin]
  | tooMany hdiscard hmax =>
      have hmin : nargs.min = 0 := by omega
      simp [parseArgsValues, hdiscard, checkNumber, hmax, hmin]
  | separate hseparate hmin => simp [parseArgsValues, hseparate, hmin]
  | tooFew hseparate hmin =>
      obtain ⟨taken, rest', htake, hrest, hmax, hend, -⟩ :=
        takeValues_spec nargs [] rest (Nat.zero_le _)
      rw [List.nil_append] at htake hmax hend
      have hfew : taken.length < nargs.min := by
        rw [hrest, List.length_append] at hmin
        omega
      obtain rfl := hend hfew
      rw [List.append_nil] at hrest
      subst hrest
      simp only [parseArgsValues, hseparate, Bool.not_true, Bool.false_eq_true, if_false, htake]
      rw [checkNumber, if_neg (Nat.not_lt.mpr hmax), if_pos hfew]

theorem Spoiled.parse (hq : Alike p q) {letters : Text}
    (h : Spoiled p rest letters errorMessage) :
    q.parseLetters letters rest = .error errorMessage := by
  induction h generalizing q with
  | unmatched hfind => simp only [parseLetters, hq.find, hfind]
  | wrong hfind hwrong =>
      simp only [parseLetters, hq.find, hfind, hq.nargs, hq.separateShort, hq.joinedShort,
        hwrong.parse]
  | @later c letters i errorMessage hfind hmax hletters ih =>
      have hne : letters ≠ [] := by
        rintro rfl
        cases hletters
      have hvalue := List.isEmpty_eq_false_iff.mpr hne
      simp only [parseLetters, hq.find, hfind, hq.nargs, hq.separateShort, hq.joinedShort,
        hvalue, Bool.false_eq_true, if_false, Bool.not_false, joined_discarded hmax,
        List.isEmpty_nil, if_true]
      exact ih (hq.hit i [])

theorem Offence.parse (hq : Alike p q) (h : Offence p rest chunk errorMessage) (n : ℕ) :
    parseLoop (n + 1) q false (chunk :: rest) = .error errorMessage := by
  cases h with
  | positional hkind => exact parseLoop_positional n hkind rest
  | unmatched hne hfind =>
      rw [parseLoop_long n (parseOption_long hne), parseLong, List.drop_left]
      simp only [hq.find, hfind]
      rfl
  | wrong hne hfind hwrong =>
      rw [parseLoop_long n (parseOption_long hne), parseLong, List.drop_left]
      simp only [hq.find, hfind, hq.nargs, hq.separateLong, hq.joinedLong, hwrong.parse]
      rfl
  | @letters letters errorMessage hdash hspoiled =>
      have hne : letters ≠ [] := by
        rintro rfl
        cases hspoiled
      have hterm : shortPrefix ++ letters ≠ terminator := by
        intro heq
        obtain rfl : letters = ['-'] := (List.append_right_inj shortPrefix).mp heq
        exact hdash rfl
      rw [parseLoop_short n (parseOption_short hne hdash) hterm, parseShort, List.drop_left,
        hspoiled.parse hq]
      rfl

theorem Ends.parse (hq : Alike p q) {r : Except Text ArgumentParser} (h : Ends p q tail r) {n : ℕ}
    (hn : tail.length ≤ n) : parseLoop n q false tail = r := by
  cases h with
  | done => cases n <;> rfl
  | terminated =>
      cases n with
      | zero => cases hn
      | succ n => cases n <;> rfl
  | @afterTerminator chunk rest =>
      cases n with
      | zero => cases hn
      | succ n =>
          cases n with
          | zero => simp at hn
          | succ n =>
              show parseLoop (n + 1) q true (chunk :: rest) = _
              simp [parseLoop]
  | offence hoffence =>
      cases n with
      | zero => cases hn
      | succ n => exact hoffence.parse hq n

/-! ## One flag with its values -/

/-- A flag without a joined value. -/
theorem separate_cases (nargs : Nargs) (arg : Text) (rest : List Text)
    (allowSeparate allowJoined d : Bool) :
    (∃ values rest', Takes allowSeparate nargs values ∧ rest = values ++ rest' ∧
      parseArgsValues nargs arg rest allowSeparate allowJoined none d = .ok (values, rest')) ∨
    ∃ errorMessage, Wrong allowSeparate allowJoined d nargs arg rest none errorMessage := by
  have hle := nargs.le
  cases allowSeparate with
  | false =>
      by_cases hmin : nargs.min = 0
      · refine .inl ⟨[], rest, ⟨by omega, by simp, by simp, fun _ => rfl⟩, rfl, ?_⟩
        simp only [parseArgsValues, hmin, bne_self_eq_false, Bool.not_false, if_true,
          Bool.false_eq_true, if_false]
        exact checkNumber_ok.mpr ⟨by simp [hmin], by simp, rfl⟩
      · exact .inr ⟨_, .separate rfl hmin⟩
  | true =>
      obtain ⟨taken, rest', htake, hrest, hmax, hend, hpositional⟩ :=
        takeValues_spec nargs [] rest (Nat.zero_le _)
      rw [List.nil_append] at htake hmax hend
      by_cases hmin : nargs.min ≤ taken.length
      · refine .inl ⟨taken, rest', ⟨hmin, hmax, hpositional, fun hno => by cases hno⟩, hrest, ?_⟩
        simp only [parseArgsValues, Bool.not_true, Bool.false_eq_true, if_false, htake]
        exact checkNumber_ok.mpr ⟨hmin, hmax, rfl⟩
      · -- the loop takes what there is while values are missing
        obtain rfl := hend (Nat.lt_of_not_le hmin)
        rw [List.append_nil] at hrest
        subst hrest
        exact .inr ⟨_, .tooFew rfl (Nat.lt_of_not_le hmin)⟩

/-- A flag with a joined value. -/
theorem joined_cases (nargs : Nargs) (arg : Text) (rest : List Text)
    (allowSeparate allowJoined d : Bool) (value : Text) :
    Joins allowJoined nargs ∨ (d = true ∧ nargs.max = 0) ∨
    ∃ errorMessage, Wrong allowSeparate allowJoined d nargs arg rest (some value)
      errorMessage := by
  have hle := nargs.le
  by_cases hmax : nargs.max = 0
  · cases d with
    | true => exact .inr (.inl ⟨rfl, hmax⟩)
    | false => exact .inr (.inr ⟨_, .tooMany rfl hmax⟩)
  · cases allowJoined with
    | false =>
        by_cases hmin : nargs.min = 0
        · exact .inl ⟨by omega, by omega, fun _ => hmin⟩
        · exact .inr (.inr ⟨_, .joined rfl hmin⟩)
    | true =>
        by_cases hmin : nargs.min ≤ 1
        · exact .inl ⟨hmin, by omega, fun hno => by cases hno⟩
        · exact .inr (.inr ⟨_, .tooFewJoined rfl (Nat.lt_of_not_le hmin)⟩)

/-! ## One chunk -/

/-- A long flag is read with its values, or it is an offence. -/
theorem parseLong_outcome (hq : Alike p q) {name : Text} (hne : name ≠ []) (rest : List Text) :
    (∃ hit taken rest', rest = taken ++ rest' ∧
      q.parseLong (longPrefix ++ name) rest = .ok (q.hitAll [hit], rest') ∧
      ∀ {items hits}, Line p items hits →
        Line p ((longPrefix ++ name) :: (taken ++ items)) (hit :: hits)) ∨
    ∃ errorMessage, Offence p rest (longPrefix ++ name) errorMessage := by
  cases hfind : p.find (.long (splitJoined name).1) with
  | none => exact .inr ⟨_, .unmatched hne hfind⟩
  | some i =>
      -- an error in the values is an error of the chunk
      have hwrong : ∀ {errorMessage},
          Wrong p.allowSeparateLongValue p.allowJoinedLongValue false (p.nargs i)
            (splitJoined name).1 rest (splitJoined name).2 errorMessage →
          Offence p rest (longPrefix ++ name) errorMessage := fun h => .wrong hne hfind h
      unfold parseLong
      rw [List.drop_left]
      simp only [hq.find, hq.nargs, hq.separateLong, hq.joinedLong]
      rcases splitJoined_cases name with hplain | ⟨arg, value, harg, rfl⟩
      · rw [splitJoined_plain hplain] at hfind hwrong ⊢
        rcases separate_cases (p.nargs i) name rest p.allowSeparateLongValue
          p.allowJoinedLongValue false with ⟨values, rest', htakes, hrest, hok⟩ | ⟨_, h⟩
        · refine .inl ⟨(i, values), values, rest', hrest, ?_, fun hline =>
            .long hplain hne hfind htakes hline⟩
          simp only [hfind, hok]
          rfl
        · exact .inr ⟨_, hwrong h⟩
      · rw [splitJoined_joined harg] at hfind hwrong ⊢
        rcases joined_cases (p.nargs i) arg rest p.allowSeparateLongValue
          p.allowJoinedLongValue false value with hjoins | ⟨hno, -⟩ | ⟨_, h⟩
        · refine .inl ⟨(i, [value]), [], rest, rfl, ?_, fun hline => ?_⟩
          · simp only [hfind, joins_joined hjoins]
            rfl
          · rw [← List.append_assoc]
            exact .joined harg hfind hjoins hline
        · cases hno
        · exact .inr ⟨_, hwrong h⟩

theorem parseLetters_outcome (hq : Alike p q) {letters : Text} (hne : letters ≠ [])
    (rest : List Text) :
    (∃ values hits rest', rest = values ++ rest' ∧ Letters p letters values hits ∧
      q.parseLetters letters rest = .ok (q.hitAll hits, rest')) ∨
    ∃ errorMessage, Spoiled p rest letters errorMessage := by
  induction letters generalizing q with
  | nil => exact absurd rfl hne
  | cons c value ih =>
      cases hfind : p.find (.short c) with
      | none => exact .inr ⟨_, .unmatched hfind⟩
      | some i =>
          have hwrong : ∀ {errorMessage},
              Wrong p.allowSeparateShortValue p.allowJoinedShortValue (!value.isEmpty) (p.nargs i)
                [c] rest (if value.isEmpty then none else some value) errorMessage →
              Spoiled p rest (c :: value) errorMessage := fun h => .wrong hfind h
          simp only [parseLetters, hq.find, hfind, hq.nargs, hq.separateShort, hq.joinedShort]
          cases value with
          | nil =>
              rcases separate_cases (p.nargs i) [c] rest p.allowSeparateShortValue
                p.allowJoinedShortValue false with ⟨values, rest', htakes, hrest, hok⟩ | ⟨_, h⟩
              · refine .inl ⟨values, [(i, values)], rest', hrest, .last hfind htakes, ?_⟩
                simp only [List.isEmpty_nil, if_true, Bool.not_true, hok, parseLetters]
                split <;> rfl
              · exact .inr ⟨_, hwrong h⟩
          | cons c' letters =>
              simp only [List.isEmpty_cons, Bool.false_eq_true, if_false, Bool.not_false]
              rcases joined_cases (p.nargs i) [c] rest p.allowSeparateShortValue
                p.allowJoinedShortValue true (c' :: letters) with hjoins | ⟨-, hmax⟩ | ⟨_, h⟩
              · refine .inl ⟨[], [(i, [c' :: letters])], rest, rfl,
                  .joined hfind (List.cons_ne_nil _ _) hjoins, ?_⟩
                simp only [joins_joined hjoins, List.isEmpty_cons, Bool.false_eq_true, if_false]
                rfl
              · -- a flag without values leaves the letters after it
                simp only [joined_discarded hmax, List.isEmpty_nil, if_true]
                rcases ih (hq.hit i []) (List.cons_ne_nil _ _) with
                  ⟨values, hits, rest', hrest, hletters, hok⟩ | ⟨_, h⟩
                · exact .inl ⟨values, (i, []) :: hits, rest', hrest,
                    .noValue hfind hmax hletters, hok⟩
                · exact .inr ⟨_, .later hfind hmax h⟩
              · exact .inr ⟨_, hwrong h⟩

/-! ## The whole command line -/

theorem parseLoop_outcome (n : ℕ) (hq : Alike p q) {args : List Text} (hn : args.length ≤ n) :
    ∃ items hits tail, args = items ++ tail ∧ Line p items hits ∧
      Ends p (q.hitAll hits) tail (parseLoop n q false args) := by
  -- a chunk that begins no item ends the loop
  have hstop : ∀ {n q chunk rest errorMessage}, Alike p q → Offence p rest chunk errorMessage →
      ∃ items hits tail, chunk :: rest = items ++ tail ∧ Line p items hits ∧
        Ends p (q.hitAll hits) tail (parseLoop (n + 1) q false (chunk :: rest)) := by
    intro n q chunk rest errorMessage hq h
    refine ⟨[], [], _, rfl, .nil, ?_⟩
    rw [h.parse hq n]
    exact .offence h
  induction n generalizing q args with
  | zero =>
      obtain rfl := List.length_eq_zero_iff.mp (Nat.le_zero.mp hn)
      exact ⟨[], [], [], rfl, .nil, .done⟩
  | succ n ih =>
      cases args with
      | nil => exact ⟨[], [], [], rfl, .nil, .done⟩
      | cons chunk rest =>
          rw [List.length_cons] at hn
          by_cases hterm : chunk = terminator
          · subst hterm
            have hends : ∃ r, Ends p q (terminator :: rest) r := by
              cases rest with
              | nil => exact ⟨_, .terminated⟩
              | cons chunk rest => exact ⟨_, .afterTerminator⟩
            obtain ⟨r, hends⟩ := hends
            refine ⟨[], [], terminator :: rest, rfl, .nil, ?_⟩
            rw [hends.parse hq (show (terminator :: rest).length ≤ n + 1 from by simpa using hn)]
            exact hends
          · cases hkind : parseOption chunk with
            | LongFlag =>
                obtain ⟨name, hne, rfl⟩ := eq_of_long hkind
                rcases parseLong_outcome hq hne rest with
                  ⟨hit, taken, rest', rfl, hok, hline⟩ | ⟨_, hoffence⟩
                · rw [List.length_append] at hn
                  obtain ⟨items, hits, tail, rfl, hitems, hends⟩ :=
                    ih (hq.hitAll [hit]) (show rest'.length ≤ n by omega)
                  refine ⟨_, hit :: hits, tail, ?_, hline hitems, ?_⟩
                  · rw [List.cons_append, List.append_assoc]
                  · rw [parseLoop_long n hkind, hok]
                    exact hends
                · exact hstop hq hoffence
            | ShortFlag =>
                obtain ⟨letters, hne, hdash, rfl⟩ := eq_of_short hkind hterm
                have hparse : q.parseShort (shortPrefix ++ letters) rest =
                    q.parseLetters letters rest := by rw [parseShort, List.drop_left]
                rcases parseLetters_outcome hq hne rest with
                  ⟨values, hits, rest', rfl, hletters, hok⟩ | ⟨_, hspoiled⟩
                · rw [List.length_append] at hn
                  obtain ⟨items, more, tail, rfl, hitems, hends⟩ :=
                    ih (hq.hitAll hits) (show rest'.length ≤ n by omega)
                  refine ⟨_, hits ++ more, tail, ?_, .short hdash hletters hitems, ?_⟩
                  · rw [List.cons_append, List.append_assoc]
                  · rw [parseLoop_short n hkind hterm, hparse, hok, hitAll_append]
                    exact hends
                · exact hstop hq (.letters hdash hspoiled)
            | Positional => exact hstop hq (.positional hkind)

/-- The parser reads items for as long as there are any, and what is left says in one way how
it ends. -/
theorem parse_outcome (p : ArgumentParser) (args : List Text) :
    ∃ items hits tail, args = items ++ tail ∧ Line p items hits ∧
      (∀ more hits', Line p more hits' → more <+: tail → more = []) ∧
      ∀ r, Ends p (p.hitAll hits) tail r ↔ p.parse args = r := by
  obtain ⟨items, hits, tail, hargs, hline, hends⟩ := parseLoop_outcome args.length (.refl p) le_rfl
  have hparse := hends.parse ((Alike.refl p).hitAll hits) le_rfl
  refine ⟨items, hits, tail, hargs, hline, fun _ _ => hends.no_items, fun r => ⟨fun h => ?_, ?_⟩⟩
  · exact hparse.symm.trans (h.parse ((Alike.refl p).hitAll hits) le_rfl)
  · rintro rfl
    exact hends

/-- What the parser accepts is in the grammar. -/
theorem accepts_of_parse {p' : ArgumentParser} {args : List Text} (h : p.parse args = .ok p') :
    ∃ hits, Accepts p args hits ∧ p' = p.hitAll hits := by
  obtain ⟨items, hits, tail, rfl, hline, hends⟩ := parseLoop_outcome args.length (.refl p) le_rfl
  change Ends p _ tail (p.parse _) at hends
  rw [h] at hends
  cases hends with
  | done => exact ⟨hits, ⟨items, _, rfl, hline, .inl rfl⟩, rfl⟩
  | terminated => exact ⟨hits, ⟨items, _, rfl, hline, .inr rfl⟩, rfl⟩

theorem Accepts.parse {args : List Text} {hits : List Hit} (h : Accepts p args hits) :
    p.parse args = .ok (p.hitAll hits) := by
  obtain ⟨items, tail, rfl, hline, htail⟩ := h
  have hstops : Stops tail := by
    rcases htail with rfl | rfl
    · intro chunk hchunk
      cases hchunk
    · intro chunk hchunk
      cases hchunk
      decide
  obtain ⟨m, hm, hparse⟩ := hline.parse hstops le_rfl (.refl p)
  refine hparse.trans ?_
  rcases htail with rfl | rfl
  · cases m <;> rfl
  · cases m with
    | zero => cases hm
    | succ m => cases m <;> rfl

/-- The command lines of the grammar are accepted and no others, and to parse one is to hit
its flags with its values, in order. -/
theorem parse_accepts_iff (p p' : ArgumentParser) (args : List Text) :
    p.parse args = .ok p' ↔ ∃ hits, Accepts p args hits ∧ p' = p.hitAll hits := by
  constructor
  · exact accepts_of_parse
  · rintro ⟨hits, h, rfl⟩
    exact h.parse

end Args
