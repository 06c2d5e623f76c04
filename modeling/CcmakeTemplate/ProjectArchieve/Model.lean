import CcmakeTemplate.Posix.OutputStream

/-!
# `saveSourceTarData`

The function writes the archive of the project's sources, which is linked into the program,
to `project.tar.gz`. It takes the name of the file from the path as it stands. A null pointer
for one of the two outputs is `none`.

The bytes of the archive, the texts of `strerror` and what the calls on the stream answer are
given from outside.
-/

namespace ProjectArchieve

open Posix

/-- The bytes from `test_h` up to `test_h_end`, and how many they are. -/
def projectSourceTarData (test_h : List UInt8) : List UInt8 × ℕ := (test_h, test_h.length)

def fileName : String := "project.tar.gz"

/-! ## `std::filesystem` -/

/-- `std::filesystem::exists`. It and `is_directory` throw when the status of the path cannot
be told, which is left out here: a path that leads nowhere does not exist. -/
def pathExists (w : World UInt8) (path : String) : Bool :=
  match w.fs.stat path.toList with
  | .ok _ => true
  | .error _ => false

def isDirectory (w : World UInt8) (path : String) : Bool :=
  match w.fs.stat path.toList with
  | .ok .directory => true
  | _ => false

def quote : Char := Char.ofNat 34
def backslash : Char := Char.ofNat 92

/-- How a `std::filesystem::path` is printed. -/
def quoted (path : String) : String :=
  let escaped := path.toList.flatMap fun c =>
    if c = quote ∨ c = backslash then [backslash, c] else [c]
  String.ofList (quote :: escaped ++ [quote])

/-! ## Saving -/

/-- What the constructor, `write`, `close` and the destructor of the stream answer. -/
structure Calls where
  openFile : Option Failure
  write : Answer
  close : Answer
  destroy : ℕ

structure Result where
  world : World UInt8
  success : Option Bool
  errString : Option String

/-- The text is made before the stream is destroyed. -/
def fileFail (strerror : ℕ → String) (calls : Calls) (tarFile : OFStream UInt8) (w : World UInt8)
    (success : Option Bool) (errString : Option String) : Result :=
  { world := tarFile.destroy calls.destroy w
    success := success
    errString := errString.map fun _ => strerror w.errno }

def saveSourceTarData (strerror : ℕ → String) (test_h : List UInt8) (calls : Calls)
    (path : String) (success : Option Bool) (errString : Option String) (w : World UInt8) :
    Result :=
  let (tarData, dataSize) := projectSourceTarData test_h
  let success := success.map fun _ => false
  let errString := errString.map fun _ => "___not_finish___"
  if !pathExists w path || !isDirectory w path then
    ⟨w, success, errString.map fun _ => "path is not a dir"⟩
  else
    let fullName := path ++ fileName
    let (tarFile, w) := OFStream.openFile calls.openFile fullName.toList w
    if tarFile.fail then fileFail strerror calls tarFile w success errString
    else
      let (tarFile, w) := tarFile.write calls.write (tarData.take dataSize) w
      if tarFile.fail then fileFail strerror calls tarFile w success errString
      else
        let (tarFile, w) := tarFile.close calls.close w
        if tarFile.fail then fileFail strerror calls tarFile w success errString
        else
          ⟨tarFile.destroy calls.destroy w, success.map fun _ => true,
            errString.map fun _ => "dump project tar package to [" ++ quoted fullName ++ "]"⟩

end ProjectArchieve
