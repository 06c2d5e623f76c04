import Mathlib.Data.List.Basic
import Mathlib.Logic.Function.Basic

/-!
# `rotating_file_sink` with its `file_helper`

The sink writes to one file and, when this would grow beyond its limit, gives all its files
the next higher number and begins a new one. All files are in one directory, and nobody else
touches them.

A stream keeps bytes back before it passes them on to its file. Which calls fail, and how many
bytes have been passed on by then, is answered from outside. The sleeps between two attempts
and the handlers of file events are left out.
-/

namespace RotatingFileSink

/-! ## Names of files -/

abbrev Filename := List Char

/-- `std::string::rfind`: the place where the character is for the last time. -/
def rfind (c : Char) : Filename → Option ℕ
  | [] => none
  | first :: s =>
      match rfind c s with
      | some i => some (i + 1)
      | none => if first = c then some 0 else none

def splitByExtension (fname : Filename) : Filename × Filename :=
  match rfind '.' fname with
  | none => (fname, [])
  | some ext_index =>
      if ext_index = 0 ∨ ext_index = fname.length - 1 then (fname, [])
      else
        match rfind '/' fname with
        | none => (fname.take ext_index, fname.drop ext_index)
        | some folder_index =>
            if ext_index - 1 ≤ folder_index then (fname, [])
            else (fname.take ext_index, fname.drop ext_index)

def calcFilename (filename : Filename) (index : ℕ) : Filename :=
  if index = 0 then filename
  else
    let (basename, ext) := splitByExtension filename
    basename ++ '.' :: Nat.toDigits 10 index ++ ext

/-! ## Calls of the system -/

/-- What is left of the bytes in a buffer when a call has failed: some of them, in order. -/
structure Remains (B : Type) where
  keep : List B → List B
  sublist : ∀ bytes, (keep bytes).Sublist bytes

/-- How many bytes a call on the stream passes on, and what is left when it fails. -/
structure Answer (B : Type) where
  moved : ℕ
  failure : Option (Remains B)

/-- What the calls during one call of the sink answer. A file that is removed or renamed has a
number, and there are two attempts for each; a file that is opened has five tries. -/
structure Answers (B : Type) where
  flush : Answer B
  write : Answer B
  /-- If `fclose` fails, only the first bytes have been passed on. -/
  close : Option ℕ
  remove : ℕ → ℕ → Bool
  rename : ℕ → ℕ → Bool
  fopen_wb : ℕ → Bool
  fopen_ab : ℕ → Bool

inductive Error where
  | maxSize
  | maxFiles
  | opening (fname : Filename)
  | reopening
  | flushing (fname : Filename)
  | writing (fname : Filename)
  | size (fname : Filename)
  | renaming (src target : Filename)
deriving DecidableEq

/-- The sink with the files of its directory. An open stream has the bytes that it keeps
back. -/
structure State (B : Type) where
  base_filename_ : Filename
  max_size_ : ℕ
  max_files_ : ℕ
  current_size_ : ℕ
  fd_ : Option (List B)
  disk : Filename → Option (List B)

variable {B : Type}

namespace State

/-! ## `file_helper` -/

/-- The file is there with this content, or it is not there. -/
def setFile (s : State B) (fname : Filename) (content : Option (List B)) : State B :=
  { s with disk := Function.update s.disk fname content }

/-- The file that is open grows by these bytes. -/
def append (s : State B) (bytes : List B) : State B :=
  s.setFile s.base_filename_ ((s.disk s.base_filename_).map (· ++ bytes))

def close (a : Answers B) (s : State B) : State B :=
  match s.fd_ with
  | none => s
  | some pending =>
      { s.append (match a.close with | none => pending | some n => pending.take n) with
        fd_ := none }

def openTries : ℕ := 5

/-- The file is truncated by opening it apart from the stream; `none` is a failure. -/
def truncateFirst (a : Answers B) (truncate : Bool) (tries : ℕ) (s : State B) : Option (State B) :=
  if truncate then
    if a.fopen_wb tries then some (s.setFile s.base_filename_ (some [])) else none
  else some s

/-- The file is open for appending, and it has been created if it was not there. -/
def opened (s : State B) : State B :=
  { s.setFile s.base_filename_ (some ((s.disk s.base_filename_).getD [])) with fd_ := some [] }

/-- The last `n` of the tries. -/
def openLoop (a : Answers B) (truncate : Bool) : ℕ → State B → State B × Option Error
  | 0, s => (s, some (.opening s.base_filename_))
  | n + 1, s =>
      match s.truncateFirst a truncate (openTries - (n + 1)) with
      | none => openLoop a truncate n s
      | some s =>
          if a.fopen_ab (openTries - (n + 1)) then (s.opened, none)
          else openLoop a truncate n s

/-- `open`, always of the same file. -/
def openFile (a : Answers B) (truncate : Bool) (s : State B) : State B × Option Error :=
  openLoop a truncate openTries (s.close a)

def reopen (a : Answers B) (truncate : Bool) (s : State B) : State B × Option Error :=
  if s.base_filename_.isEmpty then (s, some .reopening) else openFile a truncate s

/-- `fflush` of a null pointer flushes the other streams. -/
def flush (a : Answers B) (s : State B) : State B × Option Error :=
  match s.fd_ with
  | none => (s, none)
  | some pending =>
      match a.flush.failure with
      | none => ({ s.append pending with fd_ := some [] }, none)
      | some remains =>
          ({ s.append (pending.take a.flush.moved) with
              fd_ := some (remains.keep (pending.drop a.flush.moved)) },
            some (.flushing s.base_filename_))

def write (a : Answers B) (buf : List B) (s : State B) : State B × Option Error :=
  match s.fd_ with
  | none => (s, none)
  | some pending =>
      let s' := s.append ((pending ++ buf).take a.write.moved)
      let rest := (pending ++ buf).drop a.write.moved
      match a.write.failure with
      | none => ({ s' with fd_ := some rest }, none)
      | some remains =>
          ({ s' with fd_ := some (remains.keep rest) }, some (.writing s.base_filename_))

/-- What is in the file, without what the stream keeps back. It throws on a closed file. -/
def size (s : State B) : Option ℕ :=
  s.fd_.map fun _ => ((s.disk s.base_filename_).getD []).length

/-! ## `rotating_file_sink` -/

/-- Attempt number `attempt` for the file that is to have the number `i`. -/
def renameFile (a : Answers B) (i attempt : ℕ) (src target : Filename) (s : State B) :
    State B × Bool :=
  let s := if a.remove i attempt then s.setFile target none else s
  if a.rename i attempt then ((s.setFile target (s.disk src)).setFile src none, true)
  else (s, false)

/-- Two attempts to rename the file with the number `i - 1`. -/
def renameTwice (a : Answers B) (i : ℕ) (src target : Filename) (s : State B) : State B × Bool :=
  match s.renameFile a i 0 src target with
  | (s, true) => (s, true)
  | (s, false) => s.renameFile a i 1 src target

/-- The loop of `rotate_` from the number `n` down to 1. -/
def shift (a : Answers B) : ℕ → State B → State B × Option Error
  | 0, s => (s, none)
  | i + 1, s =>
      let src := calcFilename s.base_filename_ i
      let target := calcFilename s.base_filename_ (i + 1)
      if (s.disk src).isNone then shift a i s
      else
        match s.renameTwice a (i + 1) src target with
        | (s, true) => shift a i s
        | (s, false) =>
            match s.reopen a true with
            | (s, some e) => (s, some e)
            | (s, none) => ({ s with current_size_ := 0 }, some (.renaming src target))

def rotate (a : Answers B) (s : State B) : State B × Option Error :=
  match (s.close a).shift a s.max_files_ with
  | (s, some e) => (s, some e)
  | (s, none) => s.reopen a true

/-- The end of `sink_it_`. -/
def writeSized (a : Answers B) (formatted : List B) (new_size : ℕ) (s : State B) :
    State B × Option Error :=
  match s.write a formatted with
  | (s, some e) => (s, some e)
  | (s, none) => ({ s with current_size_ := new_size }, none)

def sinkIt (a : Answers B) (formatted : List B) (s : State B) : State B × Option Error :=
  let new_size := s.current_size_ + formatted.length
  if s.max_size_ < new_size then
    match s.flush a with
    | (s, some e) => (s, some e)
    | (s, none) =>
        match s.size with
        | none => (s, some (.size s.base_filename_))
        | some 0 => s.writeSized a formatted new_size
        | some (_ + 1) =>
            match s.rotate a with
            | (s, some e) => (s, some e)
            | (s, none) => s.writeSized a formatted formatted.length
  else s.writeSized a formatted new_size

/-- The constructor, on a directory with these files. -/
def new (a : Answers B) (base_filename : Filename) (maxSize maxFiles : ℕ) (rotate_on_open : Bool)
    (disk : Filename → Option (List B)) : State B × Option Error :=
  let s : State B := ⟨base_filename, maxSize, maxFiles, 0, none, disk⟩
  if maxSize = 0 then (s, some .maxSize)
  else if 200000 < maxFiles then (s, some .maxFiles)
  else
    match s.openFile a false with
    | (s, some e) => (s, some e)
    | (s, none) =>
        match s.size with
        | none => (s, some (.size base_filename))
        | some n =>
            let s := { s with current_size_ := n }
            if rotate_on_open && decide (0 < n) then
              match s.rotate a with
              | (s, some e) => (s, some e)
              | (s, none) => ({ s with current_size_ := 0 }, none)
            else (s, none)

end State

/-! ## Calls in any order -/

inductive Op (B : Type) where
  | sinkIt (formatted : List B)
  | flush
  | rotateNow

/-- What the call is to add to the log. -/
def Op.bytes : Op B → List B
  | .sinkIt formatted => formatted
  | .flush | .rotateNow => []

def State.step (s : State B) (op : Op B) (a : Answers B) : State B × Option Error :=
  match op with
  | .sinkIt formatted => s.sinkIt a formatted
  | .flush => s.flush a
  | .rotateNow => s.rotate a

/-- The calls, each with the answers that it gets. What they throw is caught by the logger. -/
def State.run (s : State B) (calls : List (Op B × Answers B)) : State B :=
  calls.foldl (fun s call => (s.step call.1 call.2).1) s

end RotatingFileSink
