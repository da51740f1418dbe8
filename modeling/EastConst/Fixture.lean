import EastConst.FileTree
import EastConst.Relocation

/-!
# Fixtures

A fixture is a pair of files: `name.in.cc` is a source, and `name.out.cc` is what its relocation
should give. The directory of a fixture names its spacing.
-/

namespace EastConst

/-- A source and what its relocation should give. -/
structure Fixture where
  name : String
  path : String
  input : List Char
  expected : List Char
  options : Options

namespace Fixture

/-- Why a fixture cannot be loaded. -/
inductive Error where
  /-- The path does not name the source of a fixture. -/
  | notAnInput (path : String)
  /-- A file cannot be read. -/
  | unreadable (cause : ReadError)
  /-- A file is not UTF-8. -/
  | undecodable
  deriving DecidableEq, Repr

/-- How the name of a source ends. -/
def inputSuffix : String := ".in.cc"

/-- How the name of an expected output ends. -/
def outputSuffix : String := ".out.cc"

/-- An error in words. -/
def Error.message : Error → String
  | .notAnInput path => path ++ " is not a " ++ inputSuffix ++ " file"
  | .unreadable cause => cause.message
  | .undecodable => "stream did not contain valid UTF-8"

/-- A string without a given ending. -/
def withoutSuffix? (suffix name : String) : Option String :=
  if suffix.toList.isSuffixOf name.toList then
    some (String.ofList (name.toList.take (name.length - suffix.length)))
  else none

/-- The name of the fixture whose source has a path. -/
def name? (path : String) : Option String :=
  (Path.fileName? path).bind (withoutSuffix? inputSuffix)

/-- The path of the expected output for a source. -/
def expectedPath? (path : String) : Option String :=
  (name? path).map fun name => Path.withFileName path (name ++ outputSuffix)

/-- The text of a file. -/
def readText (tree : FileTree) (path : String) : Except Error (List Char) :=
  match tree.read path with
  | .error cause => .error (.unreadable cause)
  | .ok bytes =>
    match Utf8.decode bytes with
    | .ok text => .ok text
    | .error _ => .error .undecodable

/-- The fixture whose source has a path. -/
def load (tree : FileTree) (options : Options) (path : String) : Except Error Fixture := do
  match name? path, expectedPath? path with
  | some name, some expected =>
    let input ← readText tree path
    let expected ← readText tree expected
    return { name, path, input, expected, options }
  | _, _ => throw (.notAnInput path)

/-- The spacing that a directory names. -/
def spacingOf (directory : String) : Spacing :=
  if Path.fileName? directory == some Spacing.padded.name then .padded else .compact

/-- The fixtures in a directory, by the names of their files. -/
def discover (tree : FileTree) (directory : String) : Except Error (List Fixture) := do
  match tree.list directory with
  | .error cause => throw (.unreadable cause)
  | .ok names =>
    let inputs := (names.filter fun name => (withoutSuffix? inputSuffix name).isSome).mergeSort
      fun a b => decide (a ≤ b)
    let options : Options := { spacing := spacingOf directory }
    inputs.mapM fun name => load tree options (Path.join directory name)

/-- What the relocation of a fixture's source gives. -/
def result (fixture : Fixture) : Except Failure Relocated :=
  relocate fixture.options fixture.input

/-- Whether the relocation of a fixture's source gives what it should. -/
def isMet (fixture : Fixture) : Bool :=
  match fixture.result with
  | .ok r => r.output == fixture.expected
  | .error _ => false

end Fixture

end EastConst
