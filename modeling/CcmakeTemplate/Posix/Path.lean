import CcmakeTemplate.Posix.FileSystem
import Mathlib.Data.List.Basic
import Mathlib.Data.List.TakeWhile

/-!
# Path strings

A path string is handed over as a pointer, so it ends at its first NUL. It is cut at its
separators and walked from the root or from the working directory, and every entry on the way
has to be a directory.

The main result says where `path ++ name` leads when `path` leads somewhere: below it if
`path` ends in a separator, and to a neighbour of its last entry if not.
-/

namespace Posix

def separator : Char := '/'

def nul : Char := Char.ofNat 0

/-! The error numbers of a path that leads to nothing the call can use. -/

def ENOENT : ℕ := 2
def ENOTDIR : ℕ := 20
def EISDIR : ℕ := 21

/-! ## Resolution -/

/-- What is left of a string that is read through a pointer to it. -/
def cString (s : List Char) : List Char := s.takeWhile (· ≠ nul)

/-- Where a name leads to from a directory. -/
def Location.enter (loc : Location) (name : Name) : Location :=
  if name = [] ∨ name = ['.'] then loc
  else if name = ['.', '.'] then loc.tail
  else name :: loc

variable {B : Type} {fs fs' : FileSystem B} {loc loc' dir : Location} {names : List Name}
  {name : Name}

namespace FileSystem

def walk (fs : FileSystem B) : Location → List Name → Except ℕ Location
  | loc, [] => .ok loc
  | loc, name :: names =>
      match fs.entry loc with
      | none => .error ENOENT
      | some (.file _) => .error ENOTDIR
      | some .directory => fs.walk (loc.enter name) names

/-- An absolute string starts at the root. -/
def start (fs : FileSystem B) (path : List Char) : Location :=
  if path.head? = some separator then [] else fs.cwd

def resolve (fs : FileSystem B) (path : List Char) : Except ℕ Location :=
  if cString path = [] then .error ENOENT
  else fs.walk (fs.start (cString path)) ((cString path).splitOn separator)

def stat (fs : FileSystem B) (path : List Char) : Except ℕ (Node B) :=
  match fs.resolve path with
  | .error errno => .error errno
  | .ok loc =>
      match fs.entry loc with
      | none => .error ENOENT
      | some node => .ok node

/-- Opens a file for writing. One that is there is cut to nothing, else it is created. -/
def openWrite (fs : FileSystem B) (path : List Char) : Except ℕ (Location × FileSystem B) :=
  match fs.resolve path with
  | .error errno => .error errno
  | .ok loc => if fs.isDirectory loc then .error EISDIR else .ok (loc, fs.store loc [])

/-! ## Walks -/

theorem walk_append_singleton :
    fs.walk loc (names ++ [name]) = .ok dir ↔
      ∃ l, fs.walk loc names = .ok l ∧ fs.entry l = some .directory ∧ dir = l.enter name := by
  induction names generalizing loc with
  | nil =>
      simp only [List.nil_append, walk]
      cases hentry : fs.entry loc with
      | none => simp [hentry]
      | some node => cases node <;> simp [hentry, eq_comm]
  | cons first names ih =>
      simp only [List.cons_append, walk]
      cases hentry : fs.entry loc with
      | none => simp
      | some node =>
          cases node with
          | directory => exact ih
          | file content => simp

theorem Frame.walk (h : Frame loc' fs fs') (hwalk : fs.walk loc names = .ok dir) :
    fs'.walk loc names = .ok dir := by
  induction names generalizing loc with
  | nil => exact hwalk
  | cons name names ih =>
      simp only [FileSystem.walk] at hwalk ⊢
      cases hentry : fs.entry loc with
      | none => simp [hentry] at hwalk
      | some node =>
          cases node with
          | directory =>
              rw [hentry] at hwalk
              rw [(h.directory loc).mpr hentry]
              exact ih hwalk
          | file content => simp [hentry] at hwalk

theorem Frame.resolve (h : Frame loc' fs fs') {path : List Char}
    (hpath : fs.resolve path = .ok dir) : fs'.resolve path = .ok dir := by
  unfold FileSystem.resolve FileSystem.start at hpath ⊢
  rw [h.cwd]
  split at hpath
  · cases hpath
  · rename_i hne
    rw [if_neg hne]
    exact h.walk hpath

/-- A walk ends at a directory or where a file can be. -/
theorem enter_usable (hloc : fs.entry loc = some .directory) :
    fs.entry (loc.enter name) = some .directory ∨ fs.writable (loc.enter name) = true := by
  unfold Location.enter
  split
  · exact .inl hloc
  · split
    · left
      cases loc with
      | nil => exact hloc
      | cons first loc => exact fs.parent first loc (by simp [hloc])
    · by_cases hdir : fs.entry (name :: loc) = some .directory
      · exact .inl hdir
      · exact .inr (writable_iff.mpr ⟨hdir, name, loc, rfl, hloc⟩)

theorem walk_usable (hloc : fs.entry loc = some .directory ∨ fs.writable loc = true)
    (hwalk : fs.walk loc names = .ok dir) :
    fs.entry dir = some .directory ∨ fs.writable dir = true := by
  induction names generalizing loc with
  | nil =>
      cases hwalk
      exact hloc
  | cons name names ih =>
      simp only [walk] at hwalk
      cases hentry : fs.entry loc with
      | none => simp [hentry] at hwalk
      | some node =>
          cases node with
          | directory =>
              rw [hentry] at hwalk
              exact ih (enter_usable hentry) hwalk
          | file content => simp [hentry] at hwalk

theorem resolve_usable {path : List Char} (hpath : fs.resolve path = .ok loc) :
    fs.entry loc = some .directory ∨ fs.writable loc = true := by
  unfold resolve start at hpath
  split at hpath
  · cases hpath
  · refine walk_usable (.inl ?_) hpath
    split
    · exact fs.root
    · exact fs.cwd_directory

theorem walk_error {errno : ℕ} (h : fs.walk loc names = .error errno) : 0 < errno := by
  induction names generalizing loc with
  | nil => cases h
  | cons name names ih =>
      simp only [walk] at h
      cases hentry : fs.entry loc with
      | none =>
          rw [hentry] at h
          cases h
          decide
      | some node =>
          cases node with
          | directory =>
              rw [hentry] at h
              exact ih h
          | file content =>
              rw [hentry] at h
              cases h
              decide

theorem resolve_error {path : List Char} {errno : ℕ} (h : fs.resolve path = .error errno) :
    0 < errno := by
  unfold resolve at h
  split at h
  · cases h
    decide
  · exact walk_error h

/-- There is a file under this path, or there can be one. -/
def Opens (fs : FileSystem B) (path : List Char) : Prop :=
  ∃ loc, fs.resolve path = .ok loc ∧ fs.entry loc ≠ some .directory

theorem openWrite_error {path : List Char} (h : ¬ fs.Opens path) :
    ∃ errno, fs.openWrite path = .error errno ∧ 0 < errno := by
  cases hpath : fs.resolve path with
  | error errno => exact ⟨errno, by simp [openWrite, hpath], resolve_error hpath⟩
  | ok loc =>
      have hdir : fs.isDirectory loc = true := by
        rw [isDirectory_iff]
        by_contra hloc
        exact h ⟨loc, hpath, hloc⟩
      exact ⟨EISDIR, by simp [openWrite, hpath, hdir], by decide⟩

theorem openWrite_ok {path : List Char} (hpath : fs.resolve path = .ok loc)
    (hloc : fs.entry loc ≠ some .directory) :
    fs.openWrite path = .ok (loc, fs.store loc []) ∧ fs.writable loc = true := by
  have hfree : fs.isDirectory loc = false := by
    rw [← Bool.not_eq_true, isDirectory_iff]
    exact hloc
  exact ⟨by simp [openWrite, hpath, hfree], (resolve_usable hpath).resolve_left hloc⟩

end FileSystem

/-! ## A name after a path -/

/-- An ordinary name of an entry. -/
structure Name.Proper (name : Name) : Prop where
  ne_nil : name ≠ []
  ne_dot : name ≠ ['.']
  ne_dots : name ≠ ['.', '.']
  no_separator : separator ∉ name
  no_nul : nul ∉ name

/-- What stands before an ordinary name makes no special one of it. -/
theorem Location.enter_append (h : name.Proper) (last : Name) :
    loc.enter (last ++ name) = (last ++ name) :: loc := by
  have hne := h.ne_nil
  have hspecial : ¬ (last ++ name = [] ∨ last ++ name = ['.']) ∧ last ++ name ≠ ['.', '.'] := by
    match last with
    | [] => exact ⟨not_or.mpr ⟨hne, h.ne_dot⟩, h.ne_dots⟩
    | [c] =>
        refine ⟨by simp [hne], ?_⟩
        intro hdots
        exact h.ne_dot (List.cons.inj hdots).2
    | c :: c' :: rest => simp [hne]
  rw [enter, if_neg hspecial.1, if_neg hspecial.2]

theorem last_separator {path : List Char} (h : separator ∈ path) :
    ∃ front last, path = front ++ separator :: last ∧ separator ∉ last := by
  obtain ⟨last, front, hpath, hlast⟩ := List.eq_append_cons_of_mem (List.mem_reverse.mpr h)
  refine ⟨front.reverse, last.reverse, ?_, by rwa [List.mem_reverse]⟩
  rw [← List.reverse_reverse path, hpath]
  simp

/-- The name after the last separator takes up what is appended. -/
theorem splitOn_append (path : List Char) (hname : separator ∉ name) :
    ∃ names last, path.splitOn separator = names ++ [last] ∧
      (path ++ name).splitOn separator = names ++ [last ++ name] ∧
      (last = [] ↔ path = [] ∨ path.getLast? = some separator) := by
  by_cases hpath : separator ∈ path
  · obtain ⟨front, last, rfl, hlast⟩ := last_separator hpath
    refine ⟨front.splitOn separator, last, ?_, ?_, ?_⟩
    · rw [List.splitOn_append_cons_self, List.splitOn_eq_singleton hlast]
    · have hjoined : separator ∉ last ++ name := by simp [hlast, hname]
      rw [List.append_assoc, List.cons_append, List.splitOn_append_cons_self,
        List.splitOn_eq_singleton hjoined]
    · cases hlast' : last.getLast? with
      | none => simp [List.getLast?_eq_none_iff.mp hlast']
      | some c =>
          have hmem : c ∈ last := List.mem_of_getLast? hlast'
          have hc : c ≠ separator := fun hc => hlast (hc ▸ hmem)
          simp [List.getLast?_append, List.getLast?_cons, hlast', hc, List.ne_nil_of_mem hmem]
  · refine ⟨[], path, ?_, ?_, ?_⟩
    · rw [List.splitOn_eq_singleton hpath, List.nil_append]
    · have hjoined : separator ∉ path ++ name := by simp [hpath, hname]
      rw [List.splitOn_eq_singleton hjoined, List.nil_append]
    · refine ⟨.inl, fun h => h.resolve_right ?_⟩
      intro hsep
      exact hpath (List.mem_of_getLast? hsep)

theorem cString_of_notMem {s : List Char} (h : nul ∉ s) : cString s = s := by
  unfold cString
  rw [List.takeWhile_eq_self_iff]
  intro c hc
  simpa using fun hnul : c = nul => h (hnul ▸ hc)

theorem cString_append {s : List Char} (h : nul ∈ s) (more : List Char) :
    cString (s ++ more) = cString s := by
  obtain ⟨front, rest, rfl, hfront⟩ := List.eq_append_cons_of_mem h
  have hcut : ∀ rest, cString (front ++ nul :: rest) = front := by
    intro rest
    unfold cString
    rw [List.takeWhile_append_of_pos]
    · simp
    · intro c hc
      simpa using fun hnul : c = nul => hfront (hnul ▸ hc)
  rw [List.append_assoc, List.cons_append, hcut, hcut]

namespace FileSystem

theorem resolve_append_nul {path : List Char} (h : nul ∈ path) (more : List Char) :
    fs.resolve (path ++ more) = fs.resolve path := by
  unfold resolve
  rw [cString_append h]

/-- `path ++ name` leads to where `path` has its last name, and the two names are one there. -/
theorem resolve_append {path : List Char} (hname : name.Proper) (hnul : nul ∉ path)
    (hpath : fs.resolve path = .ok dir) :
    ∃ (l : Location) (last : Name), dir = l.enter last ∧
      fs.resolve (path ++ name) = .ok ((last ++ name) :: l) ∧
      (last = [] ↔ path.getLast? = some separator) := by
  have hne : path ≠ [] := by
    rintro rfl
    cases hpath
  obtain ⟨names, last, hsplit, happend, hlast⟩ := splitOn_append path hname.no_separator
  rw [resolve, cString_of_notMem hnul, if_neg hne, hsplit, walk_append_singleton] at hpath
  obtain ⟨l, hwalk, hl, hdir⟩ := hpath
  refine ⟨l, last, hdir, ?_, by simpa [hne] using hlast⟩
  have hstart : fs.start (path ++ name) = fs.start path := by
    unfold start
    rw [List.head?_append_of_ne_nil _ hne]
  rw [resolve, cString_of_notMem (by simp [hnul, hname.no_nul]), if_neg (by simp [hne]), happend,
    hstart, walk_append_singleton]
  exact ⟨l, hwalk, hl, (Location.enter_append hname last).symm⟩

/-- After a separator the name stands for an entry of the directory itself. -/
theorem resolve_append_inside {path : List Char} (hname : name.Proper) (hnul : nul ∉ path)
    (hpath : fs.resolve path = .ok dir) (hsep : path.getLast? = some separator) :
    fs.resolve (path ++ name) = .ok (name :: dir) := by
  obtain ⟨l, last, hdir, hfull, hlast⟩ := resolve_append hname hnul hpath
  obtain rfl := hlast.mpr hsep
  rw [hfull, hdir]
  rfl

/-- Without one it stands for no entry of this name. -/
theorem resolve_append_beside {path : List Char} (hname : name.Proper) (hnul : nul ∉ path)
    (hpath : fs.resolve path = .ok dir) (hsep : path.getLast? ≠ some separator) :
    ∃ loc, fs.resolve (path ++ name) = .ok loc ∧ loc ≠ name :: dir := by
  obtain ⟨l, last, -, hfull, hlast⟩ := resolve_append hname hnul hpath
  refine ⟨_, hfull, ?_⟩
  intro hsame
  have hnames : last ++ name = name := (List.cons.inj hsame).1
  exact hsep (hlast.mp (List.append_left_eq_self.mp hnames))

end FileSystem

end Posix
