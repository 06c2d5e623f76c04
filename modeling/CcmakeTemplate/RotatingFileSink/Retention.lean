import CcmakeTemplate.RotatingFileSink.Order
import CcmakeTemplate.Containers.Chunks

/-!
# What the files keep when nothing fails

The files are the newest chunks of the log. A message goes to the newest one, or into a new
one if that would become too large, and no message is divided between two.
-/

namespace RotatingFileSink

open Containers

variable {B : Type}

/-! ## Calls that do not fail -/

/-- The removal of a file may fail, since the renaming takes its place anyway. -/
structure Answers.Fine (a : Answers B) : Prop where
  flush : a.flush.failure = none
  write : a.write.failure = none
  close : a.close = none
  rename : ∀ i attempt, a.rename i attempt = true
  fopen_wb : ∀ tries, a.fopen_wb tries = true
  fopen_ab : ∀ tries, a.fopen_ab tries = true

/-- The chunks after the call; the newest one is the first. -/
def Op.into (maxSize : ℕ) (chunks : List (List B)) : Op B → List (List B)
  | .sinkIt formatted => Chunks.put maxSize chunks formatted
  | .flush => chunks
  | .rotateNow => [] :: chunks

namespace State

variable {a : Answers B} {s : State B} {chunk : List B} {older chunks : List (List B)}

/-- The file with this number. -/
def file (s : State B) (i : ℕ) : Option (List B) := s.disk (calcFilename s.base_filename_ i)

/-- The file with this number, with what the stream keeps back. -/
def logged (s : State B) (i : ℕ) : Option (List B) :=
  (s.file i).map fun content => if i = 0 then content ++ s.fd_.getD [] else content

theorem setFile_file (s : State B) (i j : ℕ) (content : Option (List B)) :
    (s.setFile (calcFilename s.base_filename_ i) content).file j =
      if j = i then content else s.file j := by
  show Function.update s.disk (calcFilename s.base_filename_ i) content
    (calcFilename s.base_filename_ j) = _
  split
  · rename_i h
    rw [h, Function.update_self]
  · rename_i h
    rw [Function.update_of_ne fun hname => h (calcFilename_inj hname)]
    rfl

theorem append_zero (s : State B) (bytes : List B) :
    (s.append bytes).file 0 = (s.file 0).map (· ++ bytes) :=
  (setFile_file s 0 0 _).trans (if_pos rfl)

theorem append_succ (s : State B) (bytes : List B) (i : ℕ) :
    (s.append bytes).file (i + 1) = s.file (i + 1) :=
  (setFile_file s 0 (i + 1) _).trans (if_neg (Nat.succ_ne_zero i))

/-- The open file has the newest chunk, and the others have the chunks before it. -/
structure Shelved (s : State B) (chunk : List B) (older : List (List B)) : Prop where
  named : s.base_filename_ ≠ []
  newest : ∃ content pending, s.fd_ = some pending ∧ s.file 0 = some content ∧
    content ++ pending = chunk
  older : ∀ i, i < s.max_files_ → s.file (i + 1) = older[i]?

theorem Shelved.logged (h : Shelved s chunk older) {i : ℕ} (hi : i ≤ s.max_files_) :
    s.logged i = (chunk :: older)[i]? := by
  unfold State.logged
  cases i with
  | zero =>
      obtain ⟨content, pending, hfd, hfile, rfl⟩ := h.newest
      rw [hfile, hfd]
      rfl
  | succ i =>
      rw [h.older i (Nat.lt_of_succ_le hi), List.getElem?_cons_succ]
      cases older[i]? <;> rfl

/-! ## The stream -/

theorem Shelved.flush (h : Shelved s chunk older) (ha : a.Fine) :
    ∃ s', s.flush a = (s', none) ∧ Shelved s' chunk older ∧ s'.fd_ = some [] ∧
      s'.max_files_ = s.max_files_ ∧ s'.max_size_ = s.max_size_ ∧
      s'.current_size_ = s.current_size_ := by
  obtain ⟨content, pending, hfd, hfile, rfl⟩ := h.newest
  refine ⟨{ s.append pending with fd_ := some [] }, ?_, ⟨h.named, ?_, ?_⟩, rfl, rfl, rfl, rfl⟩
  · simp only [State.flush, hfd, ha.flush]
  · refine ⟨content ++ pending, [], rfl, ?_, List.append_nil _⟩
    show (s.append pending).file 0 = _
    rw [append_zero, hfile]
    rfl
  · intro i hi
    exact (append_succ s pending i).trans (h.older i hi)

theorem Shelved.write (h : Shelved s chunk older) (ha : a.Fine) (buf : List B) :
    ∃ s', s.write a buf = (s', none) ∧ Shelved s' (chunk ++ buf) older ∧
      s'.max_files_ = s.max_files_ ∧ s'.max_size_ = s.max_size_ := by
  obtain ⟨content, pending, hfd, hfile, rfl⟩ := h.newest
  refine ⟨{ s.append ((pending ++ buf).take a.write.moved) with
    fd_ := some ((pending ++ buf).drop a.write.moved) }, ?_, ⟨h.named, ?_, ?_⟩, rfl, rfl⟩
  · simp only [State.write, hfd, ha.write]
  · refine ⟨content ++ (pending ++ buf).take a.write.moved, _, rfl, ?_, ?_⟩
    · show (s.append ((pending ++ buf).take a.write.moved)).file 0 = _
      rw [append_zero, hfile]
      rfl
    · rw [List.append_assoc, List.take_append_drop, List.append_assoc]
  · intro i hi
    exact (append_succ s _ i).trans (h.older i hi)

/-! ## Rotating -/

theorem renamed_file (s : State B) (i : ℕ) :
    let s' := (s.setFile (calcFilename s.base_filename_ (i + 1))
      (s.disk (calcFilename s.base_filename_ i))).setFile (calcFilename s.base_filename_ i) none
    s'.file (i + 1) = s.file i ∧ s'.file i = none ∧
      ∀ j, j ≠ i → j ≠ i + 1 → s'.file j = s.file j := by
  generalize hto : s.setFile (calcFilename s.base_filename_ (i + 1))
    (s.disk (calcFilename s.base_filename_ i)) = s₁
  have hbase : s.base_filename_ = s₁.base_filename_ := by
    rw [← hto]
    rfl
  rw [hbase]
  refine ⟨?_, ?_, fun j hj hj' => ?_⟩
  · rw [setFile_file, if_neg (Nat.succ_ne_self i), ← hto, setFile_file, if_pos rfl]
    rfl
  · rw [setFile_file, if_pos rfl]
  · rw [setFile_file, if_neg hj, ← hto, setFile_file, if_neg hj']

theorem renameTwice_fine (ha : a.Fine) (s : State B) (i : ℕ) :
    ∃ s', s.renameTwice a (i + 1) (calcFilename s.base_filename_ i)
        (calcFilename s.base_filename_ (i + 1)) = (s', true) ∧
      s'.base_filename_ = s.base_filename_ ∧ s'.max_files_ = s.max_files_ ∧
      s'.max_size_ = s.max_size_ ∧ s'.fd_ = s.fd_ ∧
      s'.file (i + 1) = s.file i ∧ s'.file i = none ∧
      ∀ j, j ≠ i → j ≠ i + 1 → s'.file j = s.file j := by
  unfold renameTwice renameFile
  simp only [ha.rename, if_true]
  by_cases hremove : a.remove (i + 1) 0 = true
  · simp only [hremove, if_true]
    -- the target is removed before it is replaced
    obtain ⟨hto, hfrom, hother⟩ :=
      renamed_file (s.setFile (calcFilename s.base_filename_ (i + 1)) none) i
    refine ⟨_, rfl, rfl, rfl, rfl, rfl, hto.trans ?_, hfrom, fun j hj hj' =>
      (hother j hj hj').trans ?_⟩
    · rw [setFile_file, if_neg (Nat.succ_ne_self i).symm]
    · rw [setFile_file, if_neg hj']
  · rw [Bool.not_eq_true] at hremove
    simp only [hremove, Bool.false_eq_true, if_false]
    exact ⟨_, rfl, rfl, rfl, rfl, rfl, renamed_file s i⟩

/-- From the number `n` on down each file has taken the next higher number. -/
theorem shift_fine (ha : a.Fine) (s : State B) (chunks : List (List B)) {n : ℕ}
    (hlow : ∀ i, i < n → s.file i = chunks[i]?)
    (htop : 0 < n → chunks[n - 1]? = none → s.file n = none) :
    ∃ s', s.shift a n = (s', none) ∧ s'.base_filename_ = s.base_filename_ ∧
      s'.max_files_ = s.max_files_ ∧ s'.max_size_ = s.max_size_ ∧ s'.fd_ = s.fd_ ∧
      (∀ i, i < n → s'.file (i + 1) = chunks[i]?) ∧ ∀ i, n < i → s'.file i = s.file i := by
  induction n generalizing s with
  | zero => exact ⟨s, rfl, rfl, rfl, rfl, rfl, fun i hi => absurd hi (Nat.not_lt_zero i),
      fun i _ => rfl⟩
  | succ n ih =>
      have hsrc := hlow n (Nat.lt_succ_self n)
      cases hfile : s.file n with
      | none =>
          -- there is nothing to rename, and nothing at the next number either
          have htarget := htop (Nat.succ_pos n) (by rw [Nat.add_sub_cancel, ← hsrc, hfile])
          obtain ⟨s', hshift, hbase, hmax, hsize, hfd, hmoved, hother⟩ :=
            ih s (fun i hi => hlow i (Nat.lt_succ_of_lt hi)) fun _ _ => hfile
          refine ⟨s', ?_, hbase, hmax, hsize, hfd, fun i hi => ?_, fun i hi =>
            hother i (Nat.lt_of_succ_lt hi)⟩
          · have hnone : (s.disk (calcFilename s.base_filename_ n)).isNone = true :=
              Option.isNone_iff_eq_none.mpr hfile
            simp only [shift, hnone, if_true]
            exact hshift
          · by_cases hin : i = n
            · subst hin
              rw [hother (i + 1) (Nat.lt_succ_self i), htarget, ← hsrc, hfile]
            · exact hmoved i (by omega)
      | some content =>
          obtain ⟨s₁, hrename, hbase₁, hmax₁, hsize₁, hfd₁, hto, hfrom, hother₁⟩ :=
            renameTwice_fine ha s n
          obtain ⟨s', hshift, hbase, hmax, hsize, hfd, hmoved, hother⟩ :=
            ih s₁ (fun i hi => by
              rw [hother₁ i (by omega) (by omega)]
              exact hlow i (Nat.lt_succ_of_lt hi)) fun _ _ => hfrom
          refine ⟨s', ?_, hbase.trans hbase₁, hmax.trans hmax₁, hsize.trans hsize₁,
            hfd.trans hfd₁, fun i hi => ?_, fun i hi => ?_⟩
          · have hsome : (s.disk (calcFilename s.base_filename_ n)).isNone = false := by
              rw [show s.disk (calcFilename s.base_filename_ n) = some content from hfile]
              rfl
            simp only [shift, hsome, Bool.false_eq_true, if_false, hrename]
            exact hshift
          · by_cases hin : i = n
            · subst hin
              rw [hother (i + 1) (Nat.lt_succ_self i), hto, hsrc]
            · exact hmoved i (by omega)
          · rw [hother i (by omega), hother₁ i (by omega) (by omega)]

theorem Shelved.close (h : Shelved s chunk older) (ha : a.Fine) :
    (s.close a).fd_ = none ∧ (s.close a).base_filename_ = s.base_filename_ ∧
      (s.close a).max_files_ = s.max_files_ ∧ (s.close a).max_size_ = s.max_size_ ∧
      (s.close a).file 0 = some chunk ∧
      ∀ i, i < s.max_files_ → (s.close a).file (i + 1) = older[i]? := by
  obtain ⟨content, pending, hfd, hfile, rfl⟩ := h.newest
  have hclose : s.close a = { s.append pending with fd_ := none } := by
    simp only [State.close, hfd, ha.close]
  rw [hclose]
  refine ⟨rfl, rfl, rfl, rfl, ?_, fun i hi => (append_succ s pending i).trans (h.older i hi)⟩
  show (s.append pending).file 0 = _
  rw [append_zero, hfile]
  rfl

/-- The file is open again and empty. -/
theorem reopen_fine (ha : a.Fine) {s : State B} (hnamed : s.base_filename_ ≠ [])
    (hfd : s.fd_ = none) :
    ∃ s', s.reopen a true = (s', none) ∧ s'.base_filename_ = s.base_filename_ ∧
      s'.max_files_ = s.max_files_ ∧ s'.max_size_ = s.max_size_ ∧ s'.fd_ = some [] ∧
      s'.file 0 = some [] ∧ ∀ i, s'.file (i + 1) = s.file (i + 1) := by
  have hne : s.base_filename_.isEmpty = false := List.isEmpty_eq_false_iff.mpr hnamed
  have hopen : s.reopen a true = ((s.setFile s.base_filename_ (some [])).opened, none) := by
    simp only [reopen, hne, Bool.false_eq_true, if_false, openFile, close, hfd, openTries,
      openLoop, truncateFirst, ha.fopen_wb, ha.fopen_ab, if_true]
  have hempty := setFile_file s 0 0 (some [])
  rw [if_pos rfl] at hempty
  refine ⟨_, hopen, rfl, rfl, rfl, rfl, ?_, fun i => ?_⟩
  · show ((s.setFile s.base_filename_ (some [])).setFile (calcFilename s.base_filename_ 0)
      (some (((s.setFile s.base_filename_ (some [])).file 0).getD []))).file 0 = _
    have hself := setFile_file (s.setFile s.base_filename_ (some [])) 0 0
      (some (((s.setFile s.base_filename_ (some [])).file 0).getD []))
    rw [if_pos rfl] at hself
    refine hself.trans ?_
    rw [show (s.setFile s.base_filename_ (some [])).file 0 = some [] from hempty]
    rfl
  · have hother := setFile_file (s.setFile s.base_filename_ (some [])) 0 (i + 1)
      (some (((s.setFile s.base_filename_ (some [])).file 0).getD []))
    rw [if_neg (Nat.succ_ne_zero i)] at hother
    refine hother.trans ?_
    exact (setFile_file s 0 (i + 1) (some [])).trans (if_neg (Nat.succ_ne_zero i))

/-- A rotation begins a new chunk. -/
theorem Shelved.rotate (h : Shelved s chunk older) (ha : a.Fine) :
    ∃ s', s.rotate a = (s', none) ∧ Shelved s' [] (chunk :: older) ∧
      s'.max_files_ = s.max_files_ ∧ s'.max_size_ = s.max_size_ := by
  obtain ⟨hfd, hbase, hmax, hsize, hzero, holder⟩ := h.close ha
  obtain ⟨s₁, hshift, hbase₁, hmax₁, hsize₁, hfd₁, hmoved, -⟩ :=
    shift_fine ha (s.close a) (chunk :: older) (n := s.max_files_) (by
      intro i hi
      cases i with
      | zero => exact hzero
      | succ i => exact holder i (Nat.lt_of_succ_lt hi)) (by
      intro hpos hnone
      obtain ⟨m, hm⟩ := Nat.exists_eq_succ_of_ne_zero hpos.ne'
      rw [hm] at hnone ⊢
      rw [holder m (hm ▸ Nat.lt_succ_self m)]
      rw [List.getElem?_eq_none_iff] at hnone ⊢
      rw [List.length_cons] at hnone
      omega)
  obtain ⟨s', hreopen, hbase', hmax', hsize', hfd', hzero', hother⟩ :=
    reopen_fine ha (s := s₁) (by rw [hbase₁, hbase]; exact h.named) (hfd₁.trans hfd)
  have hmaxs : s'.max_files_ = s.max_files_ := (hmax'.trans hmax₁).trans hmax
  refine ⟨s', ?_, ⟨?_, ⟨[], [], hfd', hzero', rfl⟩, fun i hi => ?_⟩, hmaxs,
    (hsize'.trans hsize₁).trans hsize⟩
  · simp only [State.rotate, hshift, hreopen]
  · rw [hbase', hbase₁, hbase]
    exact h.named
  · rw [hother, hmoved i (hmaxs ▸ hi)]

/-! ## Messages -/

/-- The files hold the newest of these chunks, and the sink knows how large the first is. -/
structure Kept (s : State B) (chunks : List (List B)) : Prop where
  shelved : ∃ chunk older, chunks = chunk :: older ∧ Shelved s chunk older ∧
    s.current_size_ = chunk.length

theorem Shelved.writeSized (h : Shelved s chunk older) (ha : a.Fine) (buf : List B) :
    ∃ s', s.writeSized a buf (chunk ++ buf).length = (s', none) ∧
      Kept s' ((chunk ++ buf) :: older) ∧
      s'.max_files_ = s.max_files_ ∧ s'.max_size_ = s.max_size_ := by
  obtain ⟨s', hwrite, hshelved, hmax, hsize⟩ := h.write ha buf
  refine ⟨{ s' with current_size_ := (chunk ++ buf).length }, ?_, ⟨_, _, rfl, ?_, rfl⟩, hmax, hsize⟩
  · simp only [State.writeSized, hwrite]
  · exact ⟨hshelved.named, hshelved.newest, hshelved.older⟩

theorem Kept.sinkIt (h : Kept s chunks) (ha : a.Fine) (formatted : List B) :
    ∃ s', s.sinkIt a formatted = (s', none) ∧
      Kept s' (Chunks.put s.max_size_ chunks formatted) ∧
      s'.max_files_ = s.max_files_ ∧ s'.max_size_ = s.max_size_ := by
  obtain ⟨chunk, older, rfl, hshelved, hcurrent⟩ := h.shelved
  have hnew : s.current_size_ + formatted.length = (chunk ++ formatted).length := by
    rw [List.length_append, hcurrent]
  unfold State.sinkIt
  rw [hnew]
  dsimp only
  split
  · rename_i hlarge
    obtain ⟨s₁, hflush, hshelved₁, hfd₁, hmax₁, hsize₁, -⟩ := hshelved.flush ha
    obtain ⟨content, pending, hfd, hfile, hchunk⟩ := hshelved₁.newest
    -- nothing is kept back any more, so the size of the file is that of the chunk
    obtain rfl : pending = [] := Option.some.inj (hfd.symm.trans hfd₁)
    rw [List.append_nil] at hchunk
    subst hchunk
    have hreal : s₁.size = some content.length := by
      unfold size
      rw [hfd₁, show s₁.disk s₁.base_filename_ = some content from hfile]
      rfl
    rw [hflush]
    simp only [hreal]
    cases content with
    | nil =>
        obtain ⟨s', hwrite, hkept, hmax, hsize⟩ := hshelved₁.writeSized ha formatted
        refine ⟨s', hwrite, ?_, hmax.trans hmax₁, hsize.trans hsize₁⟩
        rw [Chunks.put_room (.inl rfl)]
        exact hkept
    | cons b content =>
        obtain ⟨s₂, hrotate, hshelved₂, hmax₂, hsize₂⟩ := hshelved₁.rotate ha
        obtain ⟨s', hwrite, hkept, hmax, hsize⟩ := hshelved₂.writeSized ha formatted
        refine ⟨s', ?_, ?_, (hmax.trans hmax₂).trans hmax₁, (hsize.trans hsize₂).trans hsize₁⟩
        · rw [List.nil_append] at hwrite
          simp only [List.length_cons, hrotate, hwrite]
        · rw [Chunks.put_full (List.cons_ne_nil b content) (by rwa [List.length_append] at hlarge)]
          exact hkept
  · rename_i hsmall
    obtain ⟨s', hwrite, hkept, hmax, hsize⟩ := hshelved.writeSized ha formatted
    refine ⟨s', hwrite, ?_, hmax, hsize⟩
    rw [Chunks.put_room (.inr (by rw [List.length_append] at hsmall; omega))]
    exact hkept

theorem Kept.step (h : Kept s chunks) {op : Op B} (hop : op ≠ .rotateNow) (ha : a.Fine) :
    ∃ s', s.step op a = (s', none) ∧ Kept s' (op.into s.max_size_ chunks) ∧
      s'.max_files_ = s.max_files_ ∧ s'.max_size_ = s.max_size_ := by
  cases op with
  | sinkIt formatted => exact h.sinkIt ha formatted
  | flush =>
      obtain ⟨chunk, older, rfl, hshelved, hcurrent⟩ := h.shelved
      obtain ⟨s', hflush, hshelved', -, hmax, hsize, hcurrent'⟩ := hshelved.flush ha
      exact ⟨s', hflush, ⟨_, _, rfl, hshelved', hcurrent'.trans hcurrent⟩, hmax, hsize⟩
  | rotateNow => exact absurd rfl hop

theorem Kept.run (h : Kept s chunks) {calls : List (Op B × Answers B)}
    (hcalls : ∀ call ∈ calls, call.1 ≠ .rotateNow ∧ call.2.Fine) :
    Kept (s.run calls)
        (calls.foldl (fun chunks call => call.1.into s.max_size_ chunks) chunks) ∧
      (s.run calls).max_files_ = s.max_files_ ∧ (s.run calls).max_size_ = s.max_size_ := by
  induction calls using List.reverseRecOn with
  | nil => exact ⟨h, rfl, rfl⟩
  | append_singleton calls call ih =>
      obtain ⟨hkept, hmax, hsize⟩ := ih fun call hcall => hcalls call (List.mem_append_left _ hcall)
      obtain ⟨hop, ha⟩ := hcalls call (List.mem_append_right _ (List.mem_singleton_self call))
      obtain ⟨s', hstep, hkept', hmax', hsize'⟩ := hkept.step hop ha
      rw [run_snoc, hstep, List.foldl_append]
      rw [hsize] at hkept'
      exact ⟨hkept', hmax'.trans hmax, hsize'.trans hsize⟩

/-! ## From the constructor on -/

/-- The sink goes on with the file that it finds, or with a new one. -/
theorem new_fine (ha : a.Fine) {base : Filename} (hbase : base ≠ []) {maxSize maxFiles : ℕ}
    (hsize : 0 < maxSize) (hfiles : maxFiles ≤ 200000) {disk : Filename → Option (List B)}
    (hdisk : ∀ i, i < maxFiles → disk (calcFilename base (i + 1)) = older[i]?) :
    ∃ s, new a base maxSize maxFiles false disk = (s, none) ∧
      Kept s ((disk base).getD [] :: older) ∧ s.base_filename_ = base ∧
      s.max_files_ = maxFiles ∧ s.max_size_ = maxSize ∧
      ∀ i, s.file (i + 1) = disk (calcFilename base (i + 1)) := by
  let s : State B := ⟨base, maxSize, maxFiles, 0, none, disk⟩
  have hopen : s.openFile a false = (s.opened, none) := by
    simp only [openFile, close, s, openTries, openLoop, truncateFirst, Bool.false_eq_true,
      if_false, ha.fopen_ab, if_true]
  have hzero : s.opened.file 0 = some ((disk base).getD []) := by
    show (s.setFile (calcFilename base 0) (some ((disk base).getD []))).file 0 = _
    exact (setFile_file s 0 0 _).trans (if_pos rfl)
  have hother : ∀ i, s.opened.file (i + 1) = disk (calcFilename base (i + 1)) := fun i =>
    (setFile_file s 0 (i + 1) _).trans (if_neg (Nat.succ_ne_zero i))
  have hreal : s.opened.size = some ((disk base).getD []).length := by
    show some ((s.opened.file 0).getD []).length = _
    rw [hzero]
    rfl
  refine ⟨{ s.opened with current_size_ := ((disk base).getD []).length }, ?_,
    ⟨_, _, rfl, ⟨hbase, ⟨_, [], rfl, hzero, List.append_nil _⟩, fun i hi => ?_⟩, rfl⟩, rfl, rfl,
    rfl, hother⟩
  · unfold new
    rw [if_neg hsize.ne', if_neg (by omega)]
    simp only [show openFile a false ⟨base, maxSize, maxFiles, 0, none, disk⟩ = _ from hopen,
      hreal, Bool.false_and, Bool.false_eq_true, if_false]
  · exact (hother i).trans (hdisk i hi)

theorem foldl_flatten (maxSize : ℕ) (chunks : List (List B)) (calls : List (Op B × Answers B)) :
    (calls.foldl (fun chunks call => call.1.into maxSize chunks) chunks).reverse.flatten =
      chunks.reverse.flatten ++ calls.flatMap fun call => call.1.bytes := by
  induction calls generalizing chunks with
  | nil => exact (List.append_nil _).symm
  | cons call calls ih =>
      rw [List.foldl_cons, ih, List.flatMap_cons, ← List.append_assoc]
      congr 1
      cases call.1 with
      | sinkIt formatted => exact Chunks.put_flatten maxSize chunks formatted
      | flush => exact (List.append_nil _).symm
      | rotateNow => simp [Op.into, Op.bytes]

theorem foldl_length {maxSize size : ℕ} (hsize : maxSize ≤ size)
    {calls : List (Op B × Answers B)} (hcalls : ∀ call ∈ calls, call.1.bytes.length ≤ size)
    (h : ∀ chunk ∈ chunks, chunk.length ≤ size) :
    ∀ chunk ∈ calls.foldl (fun chunks call => call.1.into maxSize chunks) chunks,
      chunk.length ≤ size := by
  induction calls generalizing chunks with
  | nil => exact h
  | cons call calls ih =>
      obtain ⟨hcall, hrest⟩ := List.forall_mem_cons.mp hcalls
      apply ih hrest
      obtain ⟨op, a⟩ := call
      cases op with
      | sinkIt formatted => exact Chunks.put_length hsize hcall h
      | flush => exact h
      | rotateNow => exact List.forall_mem_cons.mpr ⟨Nat.zero_le _, h⟩

/-- When nothing fails, the file number `i` holds the chunk number `i` of the log, counted
from the newest, and the files with higher numbers are left as they were. The chunks together
are what there was and what has been logged since, and none is larger than the limit, unless
one message is, or a file was at the beginning. -/
theorem newest_chunks_kept (base : Filename) (maxSize maxFiles : ℕ)
    (disk : Filename → Option (List B)) (older : List (List B)) (calls : List (Op B × Answers B))
    (hbase : base ≠ []) (hsize : 0 < maxSize) (hfiles : maxFiles ≤ 200000)
    (hdisk : ∀ i, i < maxFiles → disk (calcFilename base (i + 1)) = older[i]?) (ha : a.Fine)
    (hcalls : ∀ call ∈ calls, call.1 ≠ .rotateNow ∧ call.2.Fine) :
    let s := (new a base maxSize maxFiles false disk).1.run calls
    let first := (disk base).getD [] :: older
    let chunks := calls.foldl (fun chunks call => call.1.into maxSize chunks) first
    (∀ i, i ≤ maxFiles → s.logged i = chunks[i]?) ∧
      (∀ i, maxFiles < i → s.file i = disk (calcFilename base i)) ∧
      chunks.reverse.flatten = first.reverse.flatten ++ calls.flatMap (fun call => call.1.bytes) ∧
      ∀ size, maxSize ≤ size → (∀ chunk ∈ first, chunk.length ≤ size) →
        (∀ call ∈ calls, call.1.bytes.length ≤ size) → ∀ chunk ∈ chunks, chunk.length ≤ size := by
  obtain ⟨s, hnew, hkept, hname, hmax, hlimit, hfound⟩ := new_fine ha hbase hsize hfiles hdisk
  obtain ⟨hrun, hmaxRun, -⟩ := hkept.run hcalls
  rw [hlimit] at hrun
  refine ⟨fun i hi => ?_, fun i hi => ?_, foldl_flatten _ _ calls, fun size hle hfirst hbytes =>
    foldl_length hle hbytes hfirst⟩
  · rw [hnew]
    obtain ⟨chunk, older', heq, hshelved, -⟩ := hrun.shelved
    rw [heq]
    exact hshelved.logged (by rw [hmaxRun, hmax]; exact hi)
  · rw [hnew]
    have hgrows := run_grows s calls
    have houtside : s.Outside (calcFilename s.base_filename_ i) := by
      intro j hj hsame
      have hij := calcFilename_inj hsame
      omega
    obtain ⟨j, rfl⟩ : ∃ j, i = j + 1 := ⟨i - 1, by omega⟩
    unfold State.file
    rw [hgrows.base, hgrows.outside _ houtside]
    exact hfound j

/-- Answers of a system where nothing fails and each write goes straight to its file. -/
def nothingFails : Answers ℕ where
  flush := ⟨0, none⟩
  write := ⟨10, none⟩
  close := none
  remove := fun _ _ => true
  rename := fun _ _ => true
  fopen_wb := fun _ => true
  fopen_ab := fun _ => true

theorem nothingFails_fine : nothingFails.Fine := by
  constructor
  · rfl
  · rfl
  · rfl
  · exact fun _ _ => rfl
  · exact fun _ => rfl
  · exact fun _ => rfl

/-- Four messages, of which the first does not fit into three files any more. -/
theorem newest_chunks_kept_four :
    let calls : List (Op ℕ × Answers ℕ) :=
      [(.sinkIt [1, 2], nothingFails), (.sinkIt [3, 4], nothingFails),
        (.sinkIt [5, 6, 7, 8], nothingFails), (.sinkIt [9], nothingFails)]
    let s := (new nothingFails "log.txt".toList 3 2 false fun _ => none).1.run calls
    s.logged 0 = some [9] ∧ s.logged 1 = some [5, 6, 7, 8] ∧ s.logged 2 = some [3, 4] := by
  intro calls s
  have hcalls : ∀ call ∈ calls, call.1 ≠ .rotateNow ∧ call.2.Fine := by
    intro call hcall
    simp only [calls, List.mem_cons, List.not_mem_nil, or_false] at hcall
    rcases hcall with rfl | rfl | rfl | rfl
    all_goals exact ⟨by simp, nothingFails_fine⟩
  have h := (newest_chunks_kept "log.txt".toList 3 2 (fun _ => none) [] calls (by decide)
    (by decide) (by decide) (fun i _ => rfl) nothingFails_fine hcalls).1
  exact ⟨h 0 (by decide), h 1 (by decide), h 2 (by decide)⟩

end State

end RotatingFileSink
