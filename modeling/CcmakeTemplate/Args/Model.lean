import Mathlib.Data.List.Basic

/-!
# `ArgumentParser`: the arguments of a command line

The parser walks over the arguments once. A chunk with a prefix names a flag, or several
flags by one letter each, and takes the values of the flag along: joined to it, or in the
chunks that follow.

The flags have no options, and the parser has neither positionals nor commands. What is
thrown is the text of the error.
-/

namespace Args

abbrev Text := List Char

/-! The prefixes, the separator and the terminator that the constructor sets. -/

def longPrefix : Text := ['-', '-']
def shortPrefix : Text := ['-']
def longseparator : Char := '='
def terminator : Text := ['-', '-']

/-! ## Flags -/

/-- How many values a flag takes. -/
structure Nargs where
  min : ℕ
  max : ℕ
  le : min ≤ max

/-- A flag with its matcher, and with the values that `ParseValue` was last called with. -/
structure Flag where
  shortFlags : List Char
  longFlags : List Text
  nargs : Nargs
  matched : Bool
  values : List Text

inductive EitherFlag where
  | short (c : Char)
  | long (s : Text)

def Flag.matches (flag : Flag) : EitherFlag → Bool
  | .short c => flag.shortFlags.contains c
  | .long s => flag.longFlags.contains s

structure ArgumentParser where
  children : List Flag
  allowJoinedShortValue : Bool
  allowJoinedLongValue : Bool
  allowSeparateShortValue : Bool
  allowSeparateLongValue : Bool

/-! ## Kinds of chunks -/

inductive OptionType where
  | LongFlag | ShortFlag | Positional
deriving DecidableEq

def parseOption (s : Text) : OptionType :=
  if longPrefix.isPrefixOf s && decide (longPrefix.length < s.length) then .LongFlag
  else if shortPrefix.isPrefixOf s && decide (shortPrefix.length < s.length) then .ShortFlag
  else .Positional

/-- The name, and the value if the separator is there. -/
def splitJoined (argchunk : Text) : Text × Option Text :=
  (argchunk.takeWhile (· ≠ longseparator),
    if longseparator ∈ argchunk then some ((argchunk.dropWhile (· ≠ longseparator)).tail)
    else none)

/-! ## Texts of errors -/

def decimal (n : ℕ) : Text := (toString n).toList

def joinedDisallowed (arg : Text) : Text :=
  "Flag '".toList ++ arg ++ "' was passed a joined argument, but these are disallowed".toList

def separateDisallowed (arg : Text) : Text :=
  "Flag '".toList ++ arg ++ "' was passed a separate argument, but these are disallowed".toList

def tooMany (arg : Text) : Text :=
  "Passed an argument into a non-argument flag: ".toList ++ arg

def tooFew (nargs : Nargs) (arg : Text) (n : ℕ) : Text :=
  if nargs.min = 1 ∧ nargs.max = 1 then
    "Flag '".toList ++ arg ++ "' requires an argument but received none".toList
  else if nargs.min = 1 then
    "Flag '".toList ++ arg ++ "' requires at least one argument but received none".toList
  else if nargs.min ≠ nargs.max then
    "Flag '".toList ++ arg ++ "' requires at least ".toList ++ decimal nargs.min ++
      " arguments but received ".toList ++ decimal n
  else
    "Flag '".toList ++ arg ++ "' requires ".toList ++ decimal nargs.min ++
      " arguments but received ".toList ++ decimal n

def unmatchedLong (arg : Text) : Text := "Flag could not be matched: ".toList ++ arg

def unmatchedShort (c : Char) : Text :=
  "Flag could not be matched: '".toList ++ [c] ++ "'".toList

def noPositional (chunk : Text) : Text :=
  "Passed in argument, but no positional arguments were ready to receive it: ".toList ++ chunk

/-! ## Values -/

/-- The loop over the chunks that follow the flag. -/
def takeValues (nargs : Nargs) : List Text → List Text → List Text × List Text
  | values, [] => (values, [])
  | values, chunk :: rest =>
      if values.length < nargs.max ∧
          (values.length < nargs.min ∨ parseOption chunk = .Positional) then
        takeValues nargs (values ++ [chunk]) rest
      else (values, chunk :: rest)

/-- The test at the end of `ParseArgsValues`. -/
def checkNumber (nargs : Nargs) (arg : Text) (values rest : List Text) :
    Except Text (List Text × List Text) :=
  if nargs.max < values.length then .error (tooMany arg)
  else if values.length < nargs.min then .error (tooFew nargs arg values.length)
  else .ok (values, rest)

/-- The values of a flag, and the chunks after them. -/
def parseArgsValues (nargs : Nargs) (arg : Text) (rest : List Text)
    (allowSeparate allowJoined : Bool) (joined : Option Text) (canDiscardJoined : Bool) :
    Except Text (List Text × List Text) :=
  match joined with
  | some joinedArg =>
      if !allowJoined && nargs.min != 0 then .error (joinedDisallowed arg)
      else if !canDiscardJoined || nargs.max != 0 then checkNumber nargs arg [joinedArg] rest
      else checkNumber nargs arg [] rest
  | none =>
      if !allowSeparate then
        if nargs.min != 0 then .error (separateDisallowed arg) else checkNumber nargs arg [] rest
      else
        let (values, rest) := takeValues nargs [] rest
        checkNumber nargs arg values rest

/-! ## The walk over the arguments -/

namespace ArgumentParser

/-- The first flag that matches. -/
def find (p : ArgumentParser) (name : EitherFlag) : Option ℕ :=
  p.children.findIdx? fun flag => flag.matches name

def nargs (p : ArgumentParser) (i : ℕ) : Nargs :=
  (p.children[i]?.map Flag.nargs).getD ⟨0, 0, Nat.le_refl 0⟩

/-- The flag is matched, and `ParseValue` is called. -/
def hit (p : ArgumentParser) (i : ℕ) (values : List Text) : ArgumentParser :=
  { p with children := p.children.modify i fun flag =>
      { flag with matched := true, values := values } }

def reset (p : ArgumentParser) : ArgumentParser :=
  { p with children := p.children.map fun flag => { flag with matched := false, values := [] } }

def parseLong (p : ArgumentParser) (chunk : Text) (rest : List Text) :
    Except Text (ArgumentParser × List Text) :=
  let (arg, joined) := splitJoined (chunk.drop longPrefix.length)
  match p.find (.long arg) with
  | none => .error (unmatchedLong arg)
  | some i =>
      match parseArgsValues (p.nargs i) arg rest p.allowSeparateLongValue p.allowJoinedLongValue
          joined false with
      | .error errorMessage => .error errorMessage
      | .ok (values, rest) => .ok (p.hit i values, rest)

/-- The loop of `ParseShort` over the letters. -/
def parseLetters (p : ArgumentParser) : Text → List Text → Except Text (ArgumentParser × List Text)
  | [], rest => .ok (p, rest)
  | c :: value, rest =>
      match p.find (.short c) with
      | none => .error (unmatchedShort c)
      | some i =>
          match parseArgsValues (p.nargs i) [c] rest p.allowSeparateShortValue
              p.allowJoinedShortValue (if value.isEmpty then none else some value)
              (!value.isEmpty) with
          | .error errorMessage => .error errorMessage
          | .ok (values, rest) =>
              if values.isEmpty then (p.hit i values).parseLetters value rest
              else .ok (p.hit i values, rest)

def parseShort (p : ArgumentParser) (chunk : Text) (rest : List Text) :
    Except Text (ArgumentParser × List Text) :=
  p.parseLetters (chunk.drop shortPrefix.length) rest

/-- The loop of `Parse`, for at most `n` rounds. -/
def parseLoop : ℕ → ArgumentParser → Bool → List Text → Except Text ArgumentParser
  | 0, p, _, _ => .ok p
  | _ + 1, p, _, [] => .ok p
  | n + 1, p, terminated, chunk :: rest =>
      if !terminated && chunk == terminator then parseLoop n p true rest
      else if !terminated && parseOption chunk == .LongFlag then
        match p.parseLong chunk rest with
        | .error errorMessage => .error errorMessage
        | .ok (p, rest) => parseLoop n p terminated rest
      else if !terminated && parseOption chunk == .ShortFlag then
        match p.parseShort chunk rest with
        | .error errorMessage => .error errorMessage
        | .ok (p, rest) => parseLoop n p terminated rest
      else .error (noPositional chunk)

/-- Each round takes a chunk at least. -/
def parse (p : ArgumentParser) (args : List Text) : Except Text ArgumentParser :=
  parseLoop args.length p false args

end ArgumentParser

end Args
