import Mathlib.Data.List.Infix
import Mathlib.Logic.Function.Basic

/-!
# Directories and files

A file system is a tree of directories and files, without links and permissions. What is
above an entry is a directory, and so are the root and the working directory.
-/

namespace Posix

/-! ## Entries -/

abbrev Name := List Char

/-- The names from an entry up to the root, its own name first. -/
abbrev Location := List Name

inductive Node (B : Type) where
  | directory
  | file (content : List B)

structure FileSystem (B : Type) where
  entry : Location → Option (Node B)
  cwd : Location
  root : entry [] = some .directory
  parent : ∀ name dir, entry (name :: dir) ≠ none → entry dir = some .directory
  cwd_directory : entry cwd = some .directory

variable {B : Type}

namespace FileSystem

def isDirectory (fs : FileSystem B) (loc : Location) : Bool :=
  match fs.entry loc with
  | some .directory => true
  | _ => false

theorem isDirectory_iff {fs : FileSystem B} {loc : Location} :
    fs.isDirectory loc = true ↔ fs.entry loc = some .directory := by
  unfold isDirectory
  split
  · rename_i hentry
    exact iff_of_true rfl hentry
  · rename_i hentry
    exact iff_of_false Bool.false_ne_true hentry

/-- There is a directory for the file, and no directory in its place. -/
def writable (fs : FileSystem B) : Location → Bool
  | [] => false
  | name :: dir => !fs.isDirectory (name :: dir) && fs.isDirectory dir

theorem writable_iff {fs : FileSystem B} {loc : Location} :
    fs.writable loc = true ↔ fs.entry loc ≠ some .directory ∧
      ∃ name dir, loc = name :: dir ∧ fs.entry dir = some .directory := by
  cases loc with
  | nil => simp [writable]
  | cons name dir =>
      rw [writable, Bool.and_eq_true, Bool.not_eq_true', ← Bool.not_eq_true, isDirectory_iff,
        isDirectory_iff]
      refine and_congr_right fun _ => ⟨fun hdir => ⟨name, dir, rfl, hdir⟩, ?_⟩
      rintro ⟨_, _, hloc, hdir⟩
      cases hloc
      exact hdir

/-- A stored file takes the place of no directory. -/
theorem update_directory {fs : FileSystem B} {loc : Location} (h : fs.writable loc = true)
    (content : List B) (l : Location) :
    Function.update fs.entry loc (some (.file content)) l = some .directory ↔
      fs.entry l = some .directory := by
  by_cases hl : l = loc
  · subst hl
    rw [Function.update_self]
    exact iff_of_false (by simp) (writable_iff.mp h).1
  · rw [Function.update_of_ne hl]

/-- The file at `loc` gets this content, if there can be a file. -/
def store (fs : FileSystem B) (loc : Location) (content : List B) : FileSystem B :=
  if h : fs.writable loc = true then
    { entry := Function.update fs.entry loc (some (.file content))
      cwd := fs.cwd
      root := (update_directory h content []).mpr fs.root
      parent := by
        intro name dir hentry
        rw [update_directory h]
        by_cases hloc : name :: dir = loc
        · obtain ⟨-, name', dir', hloc', hdir⟩ := writable_iff.mp h
          obtain ⟨-, rfl⟩ := List.cons.inj (hloc.trans hloc')
          exact hdir
        · rw [Function.update_of_ne hloc] at hentry
          exact fs.parent name dir hentry
      cwd_directory := (update_directory h content fs.cwd).mpr fs.cwd_directory }
  else fs

theorem store_self {fs : FileSystem B} {loc : Location} (h : fs.writable loc = true)
    (content : List B) : (fs.store loc content).entry loc = some (.file content) := by
  rw [store, dif_pos h]
  exact Function.update_self ..

/-- The file at `loc` grows by these bytes. -/
def append (fs : FileSystem B) (loc : Location) (bytes : List B) : FileSystem B :=
  match fs.entry loc with
  | some (.file content) => fs.store loc (content ++ bytes)
  | _ => fs

/-- Nothing but the file at `loc` is different. -/
structure Frame (loc : Location) (fs fs' : FileSystem B) : Prop where
  cwd : fs'.cwd = fs.cwd
  other : ∀ l, l ≠ loc → fs'.entry l = fs.entry l
  directory : ∀ l, fs'.entry l = some .directory ↔ fs.entry l = some .directory

theorem Frame.refl (loc : Location) (fs : FileSystem B) : Frame loc fs fs :=
  ⟨rfl, fun _ _ => rfl, fun _ => .rfl⟩

theorem Frame.trans {loc : Location} {fs fs' fs'' : FileSystem B} (h : Frame loc fs fs')
    (h' : Frame loc fs' fs'') : Frame loc fs fs'' :=
  ⟨h'.cwd.trans h.cwd, fun l hl => (h'.other l hl).trans (h.other l hl),
    fun l => (h'.directory l).trans (h.directory l)⟩

theorem Frame.store (fs : FileSystem B) (loc : Location) (content : List B) :
    Frame loc fs (fs.store loc content) := by
  unfold FileSystem.store
  split
  · rename_i h
    exact ⟨rfl, fun l hl => Function.update_of_ne hl .., update_directory h content⟩
  · exact .refl loc fs

theorem Frame.append (fs : FileSystem B) (loc : Location) (bytes : List B) :
    Frame loc fs (fs.append loc bytes) := by
  unfold FileSystem.append
  split
  · exact .store fs loc _
  · exact .refl loc fs

/-- Nothing is different but these entries and what is below them. -/
structure Within (own : List Location) (fs fs' : FileSystem B) : Prop where
  cwd : fs'.cwd = fs.cwd
  other : ∀ l, (∀ loc ∈ own, ¬ loc <:+ l) → fs'.entry l = fs.entry l

theorem Within.refl (own : List Location) (fs : FileSystem B) : Within own fs fs :=
  ⟨rfl, fun _ _ => rfl⟩

theorem Frame.within {loc : Location} {fs fs' : FileSystem B} (h : Frame loc fs fs')
    {own : List Location} (hloc : loc ∈ own) : Within own fs fs' := by
  refine ⟨h.cwd, fun l hl => h.other l ?_⟩
  rintro rfl
  exact hl l hloc (List.suffix_refl l)

theorem Within.trans {own : List Location} {fs fs' fs'' : FileSystem B} (h : Within own fs fs')
    (h' : Within own fs' fs'') : Within own fs fs'' :=
  ⟨h'.cwd.trans h.cwd, fun l hl => (h'.other l hl).trans (h.other l hl)⟩

theorem Within.mono {own more : List Location} {fs fs' : FileSystem B} (h : Within own fs fs')
    (hmore : own ⊆ more) : Within more fs fs' :=
  ⟨h.cwd, fun l hl => h.other l fun loc hloc => hl loc (hmore hloc)⟩

/-- Somebody who changes some entries and what is below them, and nothing else. -/
structure Writer (B : Type) where
  run : List Location → FileSystem B → FileSystem B
  within : ∀ own fs, Within own fs (run own fs)

theorem Frame.writable {loc : Location} {fs fs' : FileSystem B} (h : Frame loc fs fs')
    (l : Location) : fs'.writable l = true ↔ fs.writable l = true := by
  simp only [writable_iff, ne_eq, h.directory]

end FileSystem

end Posix
