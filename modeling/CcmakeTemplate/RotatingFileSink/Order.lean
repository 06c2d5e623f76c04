import CcmakeTemplate.RotatingFileSink.Names

/-!
# What the files hold, from the oldest to the newest

Whatever calls of the system fail, a byte of the log is in the files at most once, and the
bytes are in the order in which they were logged: renaming, truncating, losing what a stream
kept back and giving up in the middle of a rotation take bytes away, and never bring any back.
-/

namespace RotatingFileSink

variable {B : Type}

/-! ## Files in a row -/

/-- The files from the number `n` down to 0. -/
def concat (g : ℕ → List B) : ℕ → List B
  | 0 => g 0
  | n + 1 => g (n + 1) ++ concat g n

theorem concat_sublist {g g' : ℕ → List B} (h : ∀ i, (g' i).Sublist (g i)) (n : ℕ) :
    (concat g' n).Sublist (concat g n) := by
  induction n with
  | zero => exact h 0
  | succ n ih => exact (h (n + 1)).append ih

/-- What the newest file grows by comes at the end. -/
theorem concat_grow {g g' : ℕ → List B} {bytes : List B} (hzero : (g' 0).Sublist (g 0 ++ bytes))
    (hother : ∀ i, i ≠ 0 → g' i = g i) (n : ℕ) :
    (concat g' n).Sublist (concat g n ++ bytes) := by
  induction n with
  | zero => exact hzero
  | succ n ih =>
      show (g' (n + 1) ++ concat g' n).Sublist (g (n + 1) ++ concat g n ++ bytes)
      rw [hother (n + 1) (Nat.succ_ne_zero n), List.append_assoc]
      exact (List.Sublist.refl _).append ih

/-- A file that takes the next higher number stays in its place. -/
theorem concat_move {g g' : ℕ → List B} {i : ℕ} (hto : g' (i + 1) = g i) (hfrom : g' i = [])
    (hother : ∀ j, j ≠ i → j ≠ i + 1 → g' j = g j) {n : ℕ} (hn : i + 1 ≤ n) :
    (concat g' n).Sublist (concat g n) := by
  have hsame : ∀ m, m < i → concat g' m = concat g m := by
    intro m hm
    induction m with
    | zero => exact hother 0 (by omega) (by omega)
    | succ m ih =>
        show g' (m + 1) ++ concat g' m = g (m + 1) ++ concat g m
        rw [hother (m + 1) (by omega) (by omega), ih (by omega)]
  induction n with
  | zero => omega
  | succ n ih =>
      show (g' (n + 1) ++ concat g' n).Sublist (g (n + 1) ++ concat g n)
      by_cases hi : i = n
      · subst hi
        rw [hto]
        have hlower : g i ++ concat g' i = concat g i := by
          cases i with
          | zero =>
              show g 0 ++ g' 0 = g 0
              rw [hfrom, List.append_nil]
          | succ k =>
              show g (k + 1) ++ (g' (k + 1) ++ concat g' k) = g (k + 1) ++ concat g k
              rw [hfrom, hsame k (Nat.lt_succ_self k)]
              rfl
        rw [hlower]
        exact List.sublist_append_right _ _
      · rw [hother (n + 1) (by omega) (by omega)]
        exact (List.Sublist.refl _).append (ih (by omega))

namespace State

/-! ## The contents by number -/

def contents (s : State B) (i : ℕ) : List B := (s.disk (calcFilename s.base_filename_ i)).getD []

/-- All that is in the files, and after it what the stream keeps back. -/
def chronicle (s : State B) : List B := concat s.contents s.max_files_ ++ s.fd_.getD []

theorem setFile_contents (s : State B) (i : ℕ) (content : Option (List B)) :
    (s.setFile (calcFilename s.base_filename_ i) content).contents i = content.getD [] := by
  show (Function.update s.disk (calcFilename s.base_filename_ i) content
    (calcFilename s.base_filename_ i)).getD [] = _
  rw [Function.update_self]

theorem setFile_other (s : State B) {i j : ℕ} (h : j ≠ i) (content : Option (List B)) :
    (s.setFile (calcFilename s.base_filename_ i) content).contents j = s.contents j := by
  show (Function.update s.disk (calcFilename s.base_filename_ i) content
    (calcFilename s.base_filename_ j)).getD [] = _
  rw [Function.update_of_ne fun hname => h (calcFilename_inj hname)]
  rfl

/-- The file that is open has the number 0. -/
theorem base_eq (s : State B) : s.base_filename_ = calcFilename s.base_filename_ 0 := rfl

theorem append_contents (s : State B) (bytes : List B) :
    ((s.append bytes).contents 0).Sublist (s.contents 0 ++ bytes) := by
  show ((s.setFile (calcFilename s.base_filename_ 0) _).contents 0).Sublist _
  rw [setFile_contents]
  show (((s.disk s.base_filename_).map (· ++ bytes)).getD []).Sublist
    ((s.disk s.base_filename_).getD [] ++ bytes)
  cases s.disk s.base_filename_ with
  | none => exact List.nil_sublist _
  | some content => exact .refl _

theorem append_other (s : State B) {i : ℕ} (h : i ≠ 0) (bytes : List B) :
    (s.append bytes).contents i = s.contents i := setFile_other s h _

/-! ## What a call takes away and adds -/

/-- The file is none of those with the numbers that the sink has. -/
def Outside (s : State B) (fname : Filename) : Prop :=
  ∀ i ≤ s.max_files_, fname ≠ calcFilename s.base_filename_ i

theorem Outside.setFile {s : State B} {fname : Filename} (h : s.Outside fname) {i : ℕ}
    (hi : i ≤ s.max_files_) (content : Option (List B)) :
    (s.setFile (calcFilename s.base_filename_ i) content).disk fname = s.disk fname :=
  Function.update_of_ne (h i hi) ..

/-- The files hold some of what they held before, and some of these bytes after it. The other
files of the directory are as they were. -/
structure Grows (s s' : State B) (bytes : List B) : Prop where
  base : s'.base_filename_ = s.base_filename_
  maxFiles : s'.max_files_ = s.max_files_
  outside : ∀ fname, s.Outside fname → s'.disk fname = s.disk fname
  chronicle : s'.chronicle.Sublist (s.chronicle ++ bytes)

theorem Grows.refl (s : State B) : Grows s s [] :=
  ⟨rfl, rfl, fun _ _ => rfl, by rw [List.append_nil]⟩

theorem Grows.trans {s s' s'' : State B} {bytes more : List B} (h : Grows s s' bytes)
    (h' : Grows s' s'' more) : Grows s s'' (bytes ++ more) := by
  refine ⟨h'.base.trans h.base, h'.maxFiles.trans h.maxFiles, fun fname hfname => ?_,
    h'.chronicle.trans ?_⟩
  · have hfname' : s'.Outside fname := by
      unfold Outside
      rw [h.base, h.maxFiles]
      exact hfname
    exact (h'.outside fname hfname').trans (h.outside fname hfname)
  · rw [← List.append_assoc]
    exact h.chronicle.append (.refl more)

theorem Grows.trans_nil {s s' s'' : State B} {bytes : List B} (h : Grows s s' [])
    (h' : Grows s' s'' bytes) : Grows s s'' bytes := h.trans h'

/-- Bytes that are not added may as well have been asked for. -/
theorem Grows.weaken {s s' : State B} (h : Grows s s' []) (bytes : List B) : Grows s s' bytes := by
  refine ⟨h.base, h.maxFiles, h.outside, h.chronicle.trans ?_⟩
  rw [List.append_nil]
  exact List.sublist_append_left _ _

/-- The files lose something, and so may the stream. -/
theorem Grows.shrink {s s' : State B} (hbase : s'.base_filename_ = s.base_filename_)
    (hmax : s'.max_files_ = s.max_files_)
    (houtside : ∀ fname, s.Outside fname → s'.disk fname = s.disk fname)
    (hcontents : ∀ i, (s'.contents i).Sublist (s.contents i))
    (hfd : (s'.fd_.getD []).Sublist (s.fd_.getD [])) : Grows s s' [] := by
  refine ⟨hbase, hmax, houtside, ?_⟩
  rw [List.append_nil]
  unfold State.chronicle
  rw [hmax]
  exact (concat_sublist hcontents s.max_files_).append hfd

/-- Bytes go from the stream to the file, and some of the others are left. -/
theorem Grows.pass {s : State B} {pending buf : List B} (hfd : s.fd_ = some pending) (n : ℕ)
    {rest : Option (List B)} (hrest : (rest.getD []).Sublist ((pending ++ buf).drop n)) :
    Grows s { s.append ((pending ++ buf).take n) with fd_ := rest } buf := by
  refine ⟨rfl, rfl, fun fname hfname => hfname.setFile (Nat.zero_le _) _, ?_⟩
  have hgrow := concat_grow (s.append_contents ((pending ++ buf).take n))
    (fun i hi => s.append_other hi _) s.max_files_
  have hall := hgrow.append hrest
  rw [List.append_assoc, List.take_append_drop, ← List.append_assoc] at hall
  unfold State.chronicle
  rw [hfd]
  exact hall

/-! ## `file_helper` -/

variable {a : Answers B} {s : State B}

theorem close_grows (a : Answers B) (s : State B) : Grows s (s.close a) [] := by
  unfold close
  split
  · exact .refl s
  · rename_i pending hfd
    have hpass : ∀ n, Grows s { s.append (pending.take n) with fd_ := none } [] := by
      intro n
      have hnone : ((none : Option (List B)).getD []).Sublist ((pending ++ []).drop n) :=
        List.nil_sublist _
      have h := Grows.pass hfd n hnone
      rwa [List.append_nil] at h
    split
    · have h := hpass pending.length
      rwa [List.take_length] at h
    · exact hpass _

theorem truncate_grows (s : State B) : Grows s (s.setFile s.base_filename_ (some [])) [] := by
  refine .shrink rfl rfl (fun fname hfname => hfname.setFile (Nat.zero_le _) _) (fun i => ?_)
    (.refl _)
  by_cases hi : i = 0
  · subst hi
    have hnil := s.setFile_contents 0 (some [])
    rw [← base_eq] at hnil
    rw [hnil]
    exact List.nil_sublist _
  · have hsame := s.setFile_other hi (some [])
    rw [← base_eq] at hsame
    rw [hsame]

theorem opened_grows (s : State B) : Grows s s.opened [] := by
  refine .shrink rfl rfl (fun fname hfname => hfname.setFile (Nat.zero_le _) _) (fun i => ?_)
    (List.nil_sublist _)
  show ((s.setFile s.base_filename_ _).contents i).Sublist _
  rw [base_eq s]
  by_cases hi : i = 0
  · subst hi
    rw [setFile_contents]
    exact .refl _
  · rw [setFile_other s hi]

theorem openLoop_grows (a : Answers B) (truncate : Bool) (n : ℕ) (s : State B) :
    Grows s (openLoop a truncate n s).1 [] := by
  induction n generalizing s with
  | zero => exact .refl s
  | succ n ih =>
      unfold openLoop
      split
      · exact ih s
      · rename_i s' hfirst
        have htruncate : Grows s s' [] := by
          unfold truncateFirst at hfirst
          split at hfirst
          · split at hfirst
            · cases hfirst
              exact truncate_grows s
            · cases hfirst
          · cases hfirst
            exact .refl s
        split
        · exact htruncate.trans_nil (opened_grows s')
        · exact htruncate.trans_nil (ih s')

theorem openFile_grows (a : Answers B) (truncate : Bool) (s : State B) :
    Grows s (s.openFile a truncate).1 [] :=
  (close_grows a s).trans_nil (openLoop_grows a truncate openTries _)

theorem reopen_grows (a : Answers B) (truncate : Bool) (s : State B) :
    Grows s (s.reopen a truncate).1 [] := by
  unfold reopen
  split
  · exact .refl s
  · exact openFile_grows a truncate s

theorem flush_grows (a : Answers B) (s : State B) : Grows s (s.flush a).1 [] := by
  unfold flush
  split
  · exact .refl s
  · rename_i pending hfd
    have hpass : ∀ n rest, (rest.getD []).Sublist (pending.drop n) →
        Grows s { s.append (pending.take n) with fd_ := rest } [] := by
      intro n rest hrest
      have h : Grows s { s.append ((pending ++ []).take n) with fd_ := rest } [] :=
        .pass hfd n (by rwa [List.append_nil])
      rwa [List.append_nil] at h
    split
    · have h := hpass pending.length (some []) (List.nil_sublist _)
      rwa [List.take_length] at h
    · exact hpass _ _ (Remains.sublist _ _)

theorem write_grows (a : Answers B) (buf : List B) (s : State B) :
    Grows s (s.write a buf).1 buf := by
  unfold write
  split
  · exact (Grows.refl s).weaken buf
  · rename_i pending hfd
    split
    · exact .pass hfd _ (.refl _)
    · exact .pass hfd _ (Remains.sublist _ _)

/-! ## `rotating_file_sink` -/

theorem move_grows (s : State B) {i : ℕ} (hi : i + 1 ≤ s.max_files_) :
    Grows s ((s.setFile (calcFilename s.base_filename_ (i + 1))
      (s.disk (calcFilename s.base_filename_ i))).setFile
        (calcFilename s.base_filename_ i) none) [] := by
  generalize hto : s.setFile (calcFilename s.base_filename_ (i + 1))
    (s.disk (calcFilename s.base_filename_ i)) = s₁
  have hbase : s.base_filename_ = s₁.base_filename_ := by rw [← hto]; rfl
  have hsame : ∀ j, j ≠ i + 1 → s₁.contents j = s.contents j := by
    intro j hj
    rw [← hto, setFile_other s hj]
  have hmoved : s₁.contents (i + 1) = s.contents i := by
    rw [← hto, setFile_contents]
    rfl
  have hmax : s₁.max_files_ = s.max_files_ := by rw [← hto]; rfl
  have houtside : ∀ fname, s.Outside fname → s₁.Outside fname ∧ s₁.disk fname = s.disk fname := by
    intro fname hfname
    rw [← hto]
    exact ⟨hfname, hfname.setFile hi _⟩
  rw [hbase]
  refine ⟨hbase.symm, hmax, fun fname hfname => ?_, ?_⟩
  · obtain ⟨hfname₁, hsame₁⟩ := houtside fname hfname
    exact (hfname₁.setFile (by omega) _).trans hsame₁
  rw [List.append_nil]
  have hfd : s₁.fd_ = s.fd_ := by rw [← hto]; rfl
  show (concat _ s₁.max_files_ ++ s₁.fd_.getD []).Sublist _
  rw [hmax, hfd]
  refine (concat_move (i := i) ?_ ?_ ?_ hi).append (.refl _)
  · rw [setFile_other s₁ (Nat.succ_ne_self i), hmoved]
  · rw [setFile_contents]
    rfl
  · intro j hj hj'
    rw [setFile_other s₁ hj, hsame j hj']

theorem renameFile_grows (a : Answers B) {i : ℕ} (attempt : ℕ) (s : State B)
    (hi : i + 1 ≤ s.max_files_) :
    Grows s (s.renameFile a (i + 1) attempt (calcFilename s.base_filename_ i)
      (calcFilename s.base_filename_ (i + 1))).1 [] := by
  unfold renameFile
  have hremove : Grows s (if a.remove (i + 1) attempt then
      s.setFile (calcFilename s.base_filename_ (i + 1)) none else s) [] := by
    split
    · refine .shrink rfl rfl (fun fname hfname => hfname.setFile hi _) (fun j => ?_) (.refl _)
      by_cases hj : j = i + 1
      · subst hj
        rw [setFile_contents]
        exact List.nil_sublist _
      · rw [setFile_other s hj]
    · exact .refl s
  generalize (if a.remove (i + 1) attempt then
    s.setFile (calcFilename s.base_filename_ (i + 1)) none else s) = s' at hremove
  dsimp only
  split
  · rw [← hremove.base]
    exact hremove.trans_nil (move_grows s' (hremove.maxFiles ▸ hi))
  · exact hremove

theorem renameTwice_grows (a : Answers B) {i : ℕ} (s : State B) (hi : i + 1 ≤ s.max_files_) :
    Grows s (s.renameTwice a (i + 1) (calcFilename s.base_filename_ i)
      (calcFilename s.base_filename_ (i + 1))).1 [] := by
  have hfirst := renameFile_grows a 0 s hi
  unfold renameTwice
  split
  · rename_i s' hrename
    rw [hrename] at hfirst
    exact hfirst
  · rename_i s' hrename
    rw [hrename] at hfirst
    have hsecond := renameFile_grows a 1 s' (hfirst.maxFiles ▸ hi)
    rw [hfirst.base] at hsecond
    exact hfirst.trans_nil hsecond

theorem shift_grows (a : Answers B) {n : ℕ} (s : State B) (hn : n ≤ s.max_files_) :
    Grows s (s.shift a n).1 [] := by
  induction n generalizing s with
  | zero => exact .refl s
  | succ n ih =>
      have hrename := renameTwice_grows a s hn
      unfold shift
      dsimp only
      split
      · exact ih s (by omega)
      · split
        · rename_i s' hok
          rw [hok] at hrename
          exact hrename.trans_nil (ih s' (by rw [hrename.maxFiles]; omega))
        · rename_i s' hfailed
          rw [hfailed] at hrename
          have hreopen := reopen_grows a true s'
          split
          · rename_i s'' e h
            rw [h] at hreopen
            exact hrename.trans_nil hreopen
          · rename_i s'' h
            rw [h] at hreopen
            exact hrename.trans_nil
              ⟨hreopen.base, hreopen.maxFiles, hreopen.outside, hreopen.chronicle⟩

theorem rotate_grows (a : Answers B) (s : State B) : Grows s (s.rotate a).1 [] := by
  have hclose := close_grows a s
  have hshift := shift_grows a (s.close a) (n := s.max_files_) (by rw [hclose.maxFiles])
  unfold rotate
  split
  · rename_i s' e h
    rw [h] at hshift
    exact hclose.trans_nil hshift
  · rename_i s' h
    rw [h] at hshift
    exact (hclose.trans_nil hshift).trans_nil (reopen_grows a true s')

theorem writeSized_grows (a : Answers B) (formatted : List B) (new_size : ℕ) (s : State B) :
    Grows s (s.writeSized a formatted new_size).1 formatted := by
  have hwrite := write_grows a formatted s
  unfold writeSized
  split
  · rename_i s' e h
    rw [h] at hwrite
    exact hwrite
  · rename_i s' h
    rw [h] at hwrite
    exact ⟨hwrite.base, hwrite.maxFiles, hwrite.outside, hwrite.chronicle⟩

theorem sinkIt_grows (a : Answers B) (formatted : List B) (s : State B) :
    Grows s (s.sinkIt a formatted).1 formatted := by
  have hflush := flush_grows a s
  unfold sinkIt
  dsimp only
  split
  · split
    · rename_i s' e h
      rw [h] at hflush
      exact hflush.weaken formatted
    · rename_i s' h
      rw [h] at hflush
      split
      · exact hflush.weaken formatted
      · exact hflush.trans_nil (writeSized_grows a formatted _ s')
      · have hrotate := rotate_grows a s'
        split
        · rename_i s'' e h
          rw [h] at hrotate
          exact (hflush.trans_nil hrotate).weaken formatted
        · rename_i s'' h
          rw [h] at hrotate
          exact (hflush.trans_nil hrotate).trans_nil (writeSized_grows a formatted _ s'')
  · exact writeSized_grows a formatted _ s

theorem step_grows (s : State B) (op : Op B) (a : Answers B) :
    Grows s (s.step op a).1 op.bytes := by
  cases op with
  | sinkIt formatted => exact sinkIt_grows a formatted s
  | flush => exact flush_grows a s
  | rotateNow => exact rotate_grows a s

theorem run_snoc (s : State B) (calls : List (Op B × Answers B)) (call : Op B × Answers B) :
    s.run (calls ++ [call]) = ((s.run calls).step call.1 call.2).1 := by
  unfold run
  rw [List.foldl_append]
  rfl

theorem run_grows (s : State B) (calls : List (Op B × Answers B)) :
    Grows s (s.run calls) (calls.flatMap fun call => call.1.bytes) := by
  induction calls using List.reverseRecOn with
  | nil => exact .refl s
  | append_singleton calls call ih =>
      rw [run_snoc, List.flatMap_append, List.flatMap_singleton]
      exact ih.trans (step_grows _ call.1 call.2)

/-- Whatever is called and whatever fails, the files hold some of what they held at first and
some of the bytes that have been logged since, each at most once and all in the order in which
they were logged, from the oldest file to the newest. -/
theorem run_in_order (s : State B) (calls : List (Op B × Answers B)) :
    (s.run calls).chronicle.Sublist (s.chronicle ++ calls.flatMap fun call => call.1.bytes) :=
  (run_grows s calls).chronicle

end State

end RotatingFileSink
