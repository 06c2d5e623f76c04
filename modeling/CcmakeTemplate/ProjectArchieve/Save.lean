import CcmakeTemplate.ProjectArchieve.Model

/-!
# What a call of `saveSourceTarData` has saved

A call that gets through has written the archive to the file that `path ++ "project.tar.gz"`
names. This file is in the directory only if the path ends in a separator. Without one it is
a neighbour of the directory, and the call reports success all the same.
-/

namespace ProjectArchieve

open Posix FileSystem

/-! ## The outcomes of a call -/

variable {strerror : ℕ → String} {test_h : List UInt8} {calls : Calls} {path : String}
  {success : Option Bool} {errString : Option String} {w : World UInt8}

/-- The path is a directory, and no call on the stream fails. The file system refuses to open
a file in the place of a directory, or under a path that has a NUL. -/
structure Succeeds (calls : Calls) (path : String) (w : World UInt8) : Prop where
  directory : isDirectory w path = true
  openFile : calls.openFile = none
  opens : w.fs.Opens (path ++ fileName).toList
  write : calls.write.failure = none
  close : calls.close.failure = none

inductive Outcome (strerror : ℕ → String) (test_h : List UInt8) (calls : Calls) (path : String)
    (success : Option Bool) (errString : Option String) (w : World UInt8) : Result → Prop
  | notDirectory (hdir : isDirectory w path = false) :
      Outcome strerror test_h calls path success errString w
        ⟨w, success.map fun _ => false, errString.map fun _ => "path is not a dir"⟩
  | fails {w' : World UInt8} {errno : ℕ} (hdir : isDirectory w path = true)
      (hfails : ¬ Succeeds calls path w) (hpos : 0 < errno)
      (hframe : ∀ loc, w.fs.resolve (path ++ fileName).toList = .ok loc → Frame loc w.fs w'.fs) :
      Outcome strerror test_h calls path success errString w
        ⟨w', success.map fun _ => false, errString.map fun _ => strerror errno⟩
  | saved {w' : World UInt8} {loc : Location} (h : Succeeds calls path w)
      (hpath : w.fs.resolve (path ++ fileName).toList = .ok loc)
      (hframe : Frame loc w.fs w'.fs) (hsaved : w'.fs.entry loc = some (.file test_h)) :
      Outcome strerror test_h calls path success errString w
        ⟨w', success.map fun _ => true,
          errString.map fun _ =>
            "dump project tar package to [" ++ quoted (path ++ fileName) ++ "]"⟩

theorem isDirectory_iff :
    isDirectory w path = true ↔
      ∃ dir, w.fs.resolve path.toList = .ok dir ∧ w.fs.entry dir = some .directory := by
  unfold isDirectory FileSystem.stat
  cases w.fs.resolve path.toList with
  | error errno => simp
  | ok dir =>
      cases hentry : w.fs.entry dir with
      | none => simp [hentry]
      | some node => cases node <;> simp [hentry]

theorem pathExists_of_isDirectory (h : isDirectory w path = true) : pathExists w path = true := by
  unfold isDirectory at h
  unfold pathExists
  split at h
  · rename_i hstat
    rw [hstat]
  · cases h

theorem outcome (strerror : ℕ → String) (test_h : List UInt8) (calls : Calls) (path : String)
    (success : Option Bool) (errString : Option String) (w : World UInt8) :
    Outcome strerror test_h calls path success errString w
      (saveSourceTarData strerror test_h calls path success errString w) := by
  by_cases hdir : isDirectory w path = true
  · have haccepted : (!pathExists w path || !isDirectory w path) = false := by
      simp [hdir, pathExists_of_isDirectory hdir]
    simp only [saveSourceTarData, projectSourceTarData, haccepted, Bool.false_eq_true, if_false,
      Option.map_map, List.take_length]
    by_cases hopen : calls.openFile = none ∧ w.fs.Opens (path ++ fileName).toList
    · obtain ⟨hanswer, loc, hpath, hloc⟩ := hopen
      obtain ⟨f, w₁, hopened, hwriting, hframe₁⟩ := OFStream.openFile_ok hpath hloc
      rw [hanswer, hopened]
      simp only [hwriting.fail, Bool.false_eq_true, if_false]
      -- from here on a call that fails leaves its traces in the opened file only
      have hfails : ∀ {w'} (failure : Failure), ¬ Succeeds calls path w →
          Frame loc w.fs w'.fs → Outcome strerror test_h calls path success errString w
            ⟨w', success.map fun _ => false, errString.map fun _ => strerror failure.errno⟩ := by
        intro w' failure hnot hframe
        refine .fails hdir hnot failure.positive ?_
        intro loc' hpath'
        cases hpath.symm.trans hpath'
        exact hframe
      cases hwrite : calls.write.failure with
      | some failure =>
          obtain ⟨f₂, w₂, hwritten, hfail, hfile, herrno, hframe₂⟩ :=
            hwriting.write_fails hwrite test_h
          simp only [hwritten, hfail, if_true, fileFail, herrno, Option.map_map]
          refine hfails failure (fun h => ?_)
            ((hframe₁.trans hframe₂).trans (OFStream.destroy_frame hfile _))
          cases hwrite.symm.trans h.write
      | none =>
          obtain ⟨f₂, w₂, hwritten, hwriting₂, hframe₂⟩ := hwriting.write hwrite test_h
          simp only [hwritten, hwriting₂.fail, Bool.false_eq_true, if_false]
          cases hclose : calls.close.failure with
          | some failure =>
              obtain ⟨f₃, w₃, hclosed, hfail, hfile, herrno, hframe₃⟩ :=
                hwriting₂.close_fails hclose
              simp only [hclosed, hfail, if_true, fileFail, herrno, Option.map_map,
                OFStream.destroy_closed hfile]
              refine hfails failure (fun h => ?_) ((hframe₁.trans hframe₂).trans hframe₃)
              cases hclose.symm.trans h.close
          | none =>
              obtain ⟨f₃, w₃, hclosed, hfail, hfile, hsaved, hframe₃⟩ := hwriting₂.close hclose
              simp only [hclosed, hfail, Bool.false_eq_true, if_false,
                OFStream.destroy_closed hfile]
              exact .saved ⟨hdir, hanswer, ⟨loc, hpath, hloc⟩, hwrite, hclose⟩ hpath
                ((hframe₁.trans hframe₂).trans hframe₃) hsaved
    · obtain ⟨errno, hpos, hopened⟩ := OFStream.openFile_fails (not_and_or.mp hopen)
      rw [hopened]
      simp only [if_true, fileFail, Option.map_map]
      refine .fails hdir (fun h => hopen ⟨h.openFile, h.opens⟩) hpos ?_
      intro loc _
      rw [OFStream.destroy_closed rfl]
      exact .refl loc w.fs
  · rw [Bool.not_eq_true] at hdir
    have hrefused : (!pathExists w path || !isDirectory w path) = true := by simp [hdir]
    simp only [saveSourceTarData, hrefused, if_true, Option.map_map]
    exact .notDirectory hdir

/-- However the call ends, no entry but the one that `path ++ "project.tar.gz"` names is
different, and no directory has come or gone. -/
theorem save_frame {loc : Location} (hpath : w.fs.resolve (path ++ fileName).toList = .ok loc) :
    Frame loc w.fs
      (saveSourceTarData strerror test_h calls path success errString w).world.fs := by
  have ho := outcome strerror test_h calls path success errString w
  generalize saveSourceTarData strerror test_h calls path success errString w = r at ho ⊢
  cases ho with
  | notDirectory => exact .refl loc w.fs
  | fails _ _ _ hframe => exact hframe loc hpath
  | saved _ hpath' hframe =>
      cases hpath.symm.trans hpath'
      exact hframe

/-! ## Truthful reports -/

/-- The file of the archive directly inside the directory that the path leads to. -/
def Holds (test_h : List UInt8) (path : String) (fs : FileSystem UInt8) : Prop :=
  ∃ dir, fs.resolve path.toList = .ok dir ∧ fs.entry dir = some .directory ∧
    fs.entry (fileName.toList :: dir) = some (.file test_h)

/-- A text for an error: the one for a path that is no directory, or that of an error number. -/
def IsErrorText (strerror : ℕ → String) (text : String) : Prop :=
  text = "path is not a dir" ∨ ∃ errno, 0 < errno ∧ text = strerror errno

/-- What a call reports is so: that it saved the archive, that the path is no directory, or
that something failed. Where there is no `*success` to tell it, the outcome is the one of the
calls. -/
structure Truthful (strerror : ℕ → String) (test_h : List UInt8) (calls : Calls) (path : String)
    (success : Option Bool) (errString : Option String) (w : World UInt8) (r : Result) : Prop where
  reports : r.success = some true ∨ success = none ∧ Succeeds calls path w →
    isDirectory w path = true ∧ Holds test_h path r.world.fs
  untouched : isDirectory w path = false → r.world.fs = w.fs
  otherwise : r.success ≠ some true → (success = none → ¬ Succeeds calls path w) →
    r.success = success.map (fun _ => false) ∧
      ∃ text, IsErrorText strerror text ∧ r.errString = errString.map fun _ => text

theorem fileName_proper : Name.Proper fileName.toList := by
  constructor <;> decide

/-- Nothing is opened under a path with a NUL: the name of the file is cut off. -/
theorem Succeeds.no_nul (h : Succeeds calls path w) : nul ∉ path.toList := by
  intro hnul
  obtain ⟨dir, hpath, hdir⟩ := isDirectory_iff.mp h.directory
  obtain ⟨loc, hfull, hloc⟩ := h.opens
  rw [String.toList_append, resolve_append_nul hnul, hpath] at hfull
  cases hfull
  exact hloc hdir

/-- A file written beside the directory leaves what is inside as it was. -/
theorem holds_beside {w' : World UInt8} {loc : Location} (h : Succeeds calls path w)
    (hsep : path.toList.getLast? ≠ some separator)
    (hpath : w.fs.resolve (path ++ fileName).toList = .ok loc) (hframe : Frame loc w.fs w'.fs)
    (hholds : Holds test_h path w'.fs) : Holds test_h path w.fs := by
  obtain ⟨dir, hdirPath, hdir⟩ := isDirectory_iff.mp h.directory
  obtain ⟨loc', hfull, hne⟩ := resolve_append_beside fileName_proper h.no_nul hdirPath hsep
  rw [String.toList_append, hfull] at hpath
  cases hpath
  obtain ⟨dir', hdirPath', -, hfile⟩ := hholds
  -- the path still leads to the same directory
  cases (hframe.resolve hdirPath).symm.trans hdirPath'
  exact ⟨dir, hdirPath, hdir, (hframe.other _ hne.symm).symm.trans hfile⟩

theorem holds_saved {w' : World UInt8} {loc : Location} (h : Succeeds calls path w)
    (hpath : w.fs.resolve (path ++ fileName).toList = .ok loc) (hframe : Frame loc w.fs w'.fs)
    (hsaved : w'.fs.entry loc = some (.file test_h))
    (hinside : path.toList.getLast? = some separator ∨ Holds test_h path w.fs) :
    Holds test_h path w'.fs := by
  obtain ⟨dir, hdirPath, hdir⟩ := isDirectory_iff.mp h.directory
  refine ⟨dir, hframe.resolve hdirPath, (hframe.directory dir).mpr hdir, ?_⟩
  by_cases hloc : fileName.toList :: dir = loc
  · rw [hloc]
    exact hsaved
  · rcases hinside with hsep | ⟨dir', hdirPath', -, hfile⟩
    · have hfull := resolve_append_inside fileName_proper h.no_nul hdirPath hsep
      rw [String.toList_append, hfull] at hpath
      cases hpath
      exact absurd rfl hloc
    · cases hdirPath.symm.trans hdirPath'
      exact (hframe.other _ hloc).trans hfile

theorem Truthful.cause {r : Result}
    (ho : Outcome strerror test_h calls path success errString w r)
    (ht : Truthful strerror test_h calls path success errString w r)
    (h : Succeeds calls path w) (hsep : path.toList.getLast? ≠ some separator) :
    Holds test_h path w.fs := by
  cases ho with
  | notDirectory hdir => cases hdir.symm.trans h.directory
  | fails _ hfails => exact absurd h hfails
  | saved _ hpath hframe =>
      refine holds_beside h hsep hpath hframe (ht.reports ?_).2
      cases success with
      | none => exact .inr ⟨rfl, h⟩
      | some b => exact .inl rfl

theorem Outcome.truthful {r : Result}
    (ho : Outcome strerror test_h calls path success errString w r)
    (h : ¬ Succeeds calls path w ∨ path.toList.getLast? = some separator ∨
      Holds test_h path w.fs) :
    Truthful strerror test_h calls path success errString w r := by
  cases ho with
  | notDirectory hdir =>
      have hno : ¬ Succeeds calls path w := fun hdone => by
        cases hdir.symm.trans hdone.directory
      refine ⟨?_, fun _ => rfl, fun _ _ => ⟨rfl, _, .inl rfl, rfl⟩⟩
      rintro (htrue | ⟨-, hdone⟩)
      · cases success <;> cases htrue
      · exact absurd hdone hno
  | fails hdir hfails hpos =>
      refine ⟨?_, fun hno => ?_, fun _ _ => ⟨rfl, _, .inr ⟨_, hpos, rfl⟩, rfl⟩⟩
      · rintro (htrue | ⟨-, hdone⟩)
        · cases success <;> cases htrue
        · exact absurd hdone hfails
      · cases hno.symm.trans hdir
  | saved hdone hpath hframe hsaved =>
      have hinside := h.resolve_left (not_not.mpr hdone)
      refine ⟨fun _ => ?_, fun hno => ?_, fun hnot hnull => ?_⟩
      · exact ⟨hdone.directory, holds_saved hdone hpath hframe hsaved hinside⟩
      · cases hno.symm.trans hdone.directory
      · cases success with
        | none => exact absurd hdone (hnull rfl)
        | some b => exact absurd rfl hnot

/-- A call is truthful exactly when it does not get through, when the path ends in a
separator, or when the archive has been in the directory already. -/
theorem truthful_iff (strerror : ℕ → String) (test_h : List UInt8) (calls : Calls) (path : String)
    (success : Option Bool) (errString : Option String) (w : World UInt8) :
    Truthful strerror test_h calls path success errString w
        (saveSourceTarData strerror test_h calls path success errString w) ↔
      ¬ Succeeds calls path w ∨ path.toList.getLast? = some separator ∨
        Holds test_h path w.fs := by
  have ho := outcome strerror test_h calls path success errString w
  constructor
  · intro ht
    by_cases hdone : Succeeds calls path w
    · by_cases hsep : path.toList.getLast? = some separator
      · exact .inr (.inl hsep)
      · exact .inr (.inr (ht.cause ho hdone hsep))
    · exact .inl hdone
  · exact ho.truthful

/-! ## A path without a separator at its end -/

/-- A root with one directory, which is empty. -/
def oneDirectory (name : Name) : FileSystem UInt8 where
  entry := fun loc => if loc = [] ∨ loc = [name] then some .directory else none
  cwd := []
  root := if_pos (.inl rfl)
  parent := by
    intro name' dir hentry
    have hloc : name' :: dir = [] ∨ name' :: dir = [name] := by
      by_contra hno
      exact hentry (if_neg hno)
    obtain ⟨-, rfl⟩ := List.cons.inj (hloc.resolve_left (List.cons_ne_nil _ _))
    exact if_pos (.inl rfl)
  cwd_directory := if_pos (.inl rfl)

theorem oneDirectory_none {name other : Name} (h : other ≠ name) (dir : Location) :
    (oneDirectory name).entry (other :: dir) = none := by
  refine if_neg ?_
  rintro (hloc | hloc)
  · cases hloc
  · exact h (List.cons.inj hloc).1

/-- The archive comes to stand in `outproject.tar.gz`, and `out` stays empty. -/
theorem saved_beside :
    ¬ ∀ (strerror : ℕ → String) (test_h : List UInt8) (calls : Calls) (path : String)
      (success : Option Bool) (errString : Option String) (w : World UInt8),
      Truthful strerror test_h calls path success errString w
        (saveSourceTarData strerror test_h calls path success errString w) := by
  intro hall
  let calls : Calls := ⟨none, ⟨0, none⟩, ⟨0, none⟩, 0⟩
  let w : World UInt8 := ⟨oneDirectory "out".toList, 0⟩
  have hdone : Succeeds calls "out" w := by
    refine ⟨rfl, rfl, ⟨["outproject.tar.gz".toList], rfl, ?_⟩, rfl, rfl⟩
    rw [oneDirectory_none (by decide)]
    nofun
  have ht := hall (fun _ => "error") [31, 139] calls "out" (some false) (some "") w
  obtain ⟨dir, -, -, hfile⟩ := ht.cause (outcome _ _ _ _ _ _ _) hdone (by decide)
  cases (oneDirectory_none (by decide) dir).symm.trans hfile

end ProjectArchieve
