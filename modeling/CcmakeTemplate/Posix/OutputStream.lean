import CcmakeTemplate.Posix.Path

/-!
# A file stream for output

A `std::ofstream` keeps bytes back before it passes them on to its file. Which of its calls
fail, and how many of the bytes have been passed on by then, is answered from outside; every
failure sets `errno` to an error number.

What is stored and what is kept back make up what has been written, and no call changes
anything but the file.
-/

namespace Posix

/-! ## The stream and its calls -/

structure Failure where
  errno : ℕ
  positive : 0 < errno

/-- How many of the bytes that are kept back a call passes on, and whether it fails. -/
structure Answer where
  moved : ℕ
  failure : Option Failure

structure World (B : Type) where
  fs : FileSystem B
  errno : ℕ

structure OFStream (B : Type) where
  file : Option Location
  pending : List B
  fail : Bool

variable {B : Type}

namespace OFStream

def openFile (answer : Option Failure) (path : List Char) (w : World B) :
    OFStream B × World B :=
  match answer with
  | some failure => (⟨none, [], true⟩, { w with errno := failure.errno })
  | none =>
      match w.fs.openWrite path with
      | .error errno => (⟨none, [], true⟩, { w with errno := errno })
      | .ok (loc, fs) => (⟨some loc, [], false⟩, { w with fs := fs })

/-- Passes the first `n` of the pending bytes on. -/
def flush (f : OFStream B) (n : ℕ) (w : World B) : OFStream B × World B :=
  match f.file with
  | none => (f, w)
  | some loc =>
      ({ f with pending := f.pending.drop n },
        { w with fs := w.fs.append loc (f.pending.take n) })

/-- The call has failed, if it has. -/
def settle (failure : Option Failure) : OFStream B × World B → OFStream B × World B
  | (f, w) =>
      match failure with
      | none => (f, w)
      | some failure => ({ f with fail := true }, { w with errno := failure.errno })

def write (f : OFStream B) (answer : Answer) (bytes : List B) (w : World B) :
    OFStream B × World B :=
  if f.fail then (f, w)
  else settle answer.failure ({ f with pending := f.pending ++ bytes }.flush answer.moved w)

/-- A `close` that does not fail passes everything on. -/
def close (f : OFStream B) (answer : Answer) (w : World B) : OFStream B × World B :=
  match f.file with
  | none => ({ f with fail := true }, w)
  | some _ =>
      let n := if answer.failure.isSome then answer.moved else f.pending.length
      let closed := settle answer.failure (f.flush n w)
      ({ closed.1 with file := none }, closed.2)

/-- The destructor closes a file that is still open. -/
def destroy (f : OFStream B) (moved : ℕ) (w : World B) : World B := (f.flush moved w).2

/-! ## What has been written -/

variable {f : OFStream B} {w : World B} {loc : Location} {bytes : List B}

/-- The file at `loc` is open, and what it holds and what is kept back make up `bytes`. -/
structure Writing (f : OFStream B) (w : World B) (loc : Location) (bytes : List B) : Prop where
  file : f.file = some loc
  fail : f.fail = false
  writable : w.fs.writable loc = true
  stored : ∃ content, w.fs.entry loc = some (.file content) ∧ content ++ f.pending = bytes

theorem openFile_ok {path : List Char} (hpath : w.fs.resolve path = .ok loc)
    (hloc : w.fs.entry loc ≠ some .directory) :
    ∃ f w', openFile none path w = (f, w') ∧ Writing f w' loc [] ∧
      FileSystem.Frame loc w.fs w'.fs := by
  obtain ⟨hopen, hwritable⟩ := FileSystem.openWrite_ok hpath hloc
  have hframe := FileSystem.Frame.store w.fs loc []
  refine ⟨⟨some loc, [], false⟩, { w with fs := w.fs.store loc [] }, ?_, ?_, hframe⟩
  · simp only [openFile, hopen]
  · exact ⟨rfl, rfl, (hframe.writable loc).mpr hwritable,
      ⟨[], FileSystem.store_self hwritable [], rfl⟩⟩

theorem openFile_fails {answer : Option Failure} {path : List Char}
    (h : answer ≠ none ∨ ¬ w.fs.Opens path) :
    ∃ errno, 0 < errno ∧
      openFile answer path w = (⟨none, [], true⟩, { w with errno := errno }) := by
  cases answer with
  | some failure => exact ⟨failure.errno, failure.positive, rfl⟩
  | none =>
      obtain ⟨errno, hopen, hpos⟩ := FileSystem.openWrite_error (h.resolve_left (by simp))
      exact ⟨errno, hpos, by simp only [openFile, hopen]⟩

/-- Passing bytes on moves them from the one part to the other. -/
theorem Writing.flush (h : Writing f w loc bytes) (n : ℕ) :
    ∃ f' w', f.flush n w = (f', w') ∧ Writing f' w' loc bytes ∧
      f'.pending = f.pending.drop n ∧ FileSystem.Frame loc w.fs w'.fs := by
  obtain ⟨content, hentry, hbytes⟩ := h.stored
  have hframe := FileSystem.Frame.append w.fs loc (f.pending.take n)
  refine ⟨{ f with pending := f.pending.drop n },
    { w with fs := w.fs.append loc (f.pending.take n) }, ?_, ?_, rfl, hframe⟩
  · simp only [OFStream.flush, h.file]
  · refine ⟨h.file, h.fail, (hframe.writable loc).mpr h.writable,
      content ++ f.pending.take n, ?_, ?_⟩
    · show (w.fs.append loc (f.pending.take n)).entry loc = _
      simp only [FileSystem.append, hentry, FileSystem.store_self h.writable]
    · rw [List.append_assoc, List.take_append_drop, hbytes]

theorem Writing.keepBack (h : Writing f w loc bytes) (more : List B) :
    Writing { f with pending := f.pending ++ more } w loc (bytes ++ more) := by
  obtain ⟨content, hentry, hbytes⟩ := h.stored
  exact ⟨h.file, h.fail, h.writable, content, hentry, by rw [← List.append_assoc, hbytes]⟩

theorem Writing.write (h : Writing f w loc bytes) {answer : Answer}
    (hanswer : answer.failure = none) (more : List B) :
    ∃ f' w', f.write answer more w = (f', w') ∧ Writing f' w' loc (bytes ++ more) ∧
      FileSystem.Frame loc w.fs w'.fs := by
  obtain ⟨f', w', hflush, hwriting, -, hframe⟩ := (h.keepBack more).flush answer.moved
  refine ⟨f', w', ?_, hwriting, hframe⟩
  rw [OFStream.write, if_neg (by simp [h.fail]), hflush, hanswer]
  rfl

theorem Writing.write_fails (h : Writing f w loc bytes) {answer : Answer} {failure : Failure}
    (hanswer : answer.failure = some failure) (more : List B) :
    ∃ f' w', f.write answer more w = (f', w') ∧ f'.fail = true ∧ f'.file = some loc ∧
      w'.errno = failure.errno ∧ FileSystem.Frame loc w.fs w'.fs := by
  obtain ⟨f', w', hflush, hwriting, -, hframe⟩ := (h.keepBack more).flush answer.moved
  refine ⟨{ f' with fail := true }, { w' with errno := failure.errno }, ?_, rfl, hwriting.file,
    rfl, hframe⟩
  rw [OFStream.write, if_neg (by simp [h.fail]), hflush, hanswer]
  rfl

theorem Writing.close (h : Writing f w loc bytes) {answer : Answer}
    (hanswer : answer.failure = none) :
    ∃ f' w', f.close answer w = (f', w') ∧ f'.fail = false ∧ f'.file = none ∧
      w'.fs.entry loc = some (.file bytes) ∧ FileSystem.Frame loc w.fs w'.fs := by
  obtain ⟨f', w', hflush, hwriting, hpending, hframe⟩ := h.flush f.pending.length
  refine ⟨{ f' with file := none }, w', ?_, hwriting.fail, rfl, ?_, hframe⟩
  · simp [OFStream.close, h.file, hanswer, hflush, settle]
  · obtain ⟨content, hentry, hbytes⟩ := hwriting.stored
    rw [hpending, List.drop_length, List.append_nil] at hbytes
    rw [hentry, hbytes]

theorem Writing.close_fails (h : Writing f w loc bytes) {answer : Answer} {failure : Failure}
    (hanswer : answer.failure = some failure) :
    ∃ f' w', f.close answer w = (f', w') ∧ f'.fail = true ∧ f'.file = none ∧
      w'.errno = failure.errno ∧ FileSystem.Frame loc w.fs w'.fs := by
  obtain ⟨f', w', hflush, -, -, hframe⟩ := h.flush answer.moved
  refine ⟨{ f' with fail := true, file := none }, { w' with errno := failure.errno }, ?_, rfl, rfl,
    rfl, hframe⟩
  simp [OFStream.close, h.file, hanswer, hflush, settle]

theorem destroy_closed (h : f.file = none) (moved : ℕ) : f.destroy moved w = w := by
  simp only [destroy, flush, h]

theorem destroy_frame (h : f.file = some loc) (moved : ℕ) :
    FileSystem.Frame loc w.fs (f.destroy moved w).fs := by
  simp only [destroy, OFStream.flush, h]
  exact .append w.fs loc _

end OFStream

end Posix
