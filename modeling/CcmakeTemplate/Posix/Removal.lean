import CcmakeTemplate.Posix.Path

/-!
# Files that are opened for appending and removed again

`path / name` puts a separator between the two where there is none. When the path is a
directory, it therefore names an entry of this directory, whatever the path ends in.
-/

namespace Posix

variable {B : Type} {fs : FileSystem B} {loc dir : Location} {name : Name}

/-- `path / name`, for a path that is not empty. -/
def child (path name : List Char) : List Char :=
  if path.getLast? = some separator then path ++ name else path ++ separator :: name

namespace FileSystem

/-! ## Operations -/

/-- Opens a file for appending. One that is there is left as it is, else it is created. -/
def openAppend (fs : FileSystem B) (path : List Char) : Except ℕ (Location × FileSystem B) :=
  match fs.resolve path with
  | .error errno => .error errno
  | .ok loc =>
      match fs.entry loc with
      | some .directory => .error EISDIR
      | some (.file _) => .ok (loc, fs)
      | none => .ok (loc, fs.store loc [])

/-- The file at `loc` is removed. -/
def unlink (fs : FileSystem B) (loc : Location) : FileSystem B :=
  if h : fs.isDirectory loc = true then fs
  else
    { entry := Function.update fs.entry loc none
      cwd := fs.cwd
      root := by
        rw [Function.update_of_ne]
        · exact fs.root
        · rintro rfl
          exact h (isDirectory_iff.mpr fs.root)
      parent := by
        intro name dir hentry
        have hchild : fs.entry (name :: dir) ≠ none := by
          intro hnone
          by_cases hloc : name :: dir = loc
          · exact hentry (hloc ▸ Function.update_self ..)
          · rw [Function.update_of_ne hloc] at hentry
            exact hentry hnone
        have hdir := fs.parent name dir hchild
        rw [Function.update_of_ne]
        · exact hdir
        · rintro rfl
          exact h (isDirectory_iff.mpr hdir)
      cwd_directory := by
        rw [Function.update_of_ne]
        · exact fs.cwd_directory
        · intro hcwd
          exact h (isDirectory_iff.mpr (hcwd ▸ fs.cwd_directory)) }

theorem Frame.unlink (fs : FileSystem B) (loc : Location) : Frame loc fs (fs.unlink loc) := by
  by_cases h : fs.isDirectory loc = true
  · rw [FileSystem.unlink, dif_pos h]
    exact .refl loc fs
  · rw [FileSystem.unlink, dif_neg h]
    refine ⟨rfl, fun l hl => Function.update_of_ne hl .., fun l => ?_⟩
    show Function.update fs.entry loc none l = some .directory ↔ fs.entry l = some .directory
    by_cases hl : l = loc
    · subst hl
      rw [Function.update_self]
      exact iff_of_false (by simp) (isDirectory_iff.not.mp h)
    · rw [Function.update_of_ne hl]

/-- The entries that the paths lead to. -/
def locations (fs : FileSystem B) (paths : List (List Char)) : List Location :=
  paths.filterMap fun path => (fs.resolve path).toOption

end FileSystem

end Posix
