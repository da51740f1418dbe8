import EastConst.FileTree
import EastConst.Options
import EastConst.Settings.Environment
import EastConst.Settings.Key
import EastConst.Settings.Toml
import EastConst.Text.Utf8

/-!
# Settings

Settings have defaults. Files and the environment are laid over them in order, and single overrides
over everything else. `Sources.resolve` gives the settings that result, or why they cannot be had.
-/

namespace EastConst

/-- How diagnostics are written. -/
inductive DiagnosticFormat where
  | text | json
  deriving DecidableEq, Repr

/-- The name of a format. -/
def DiagnosticFormat.name : DiagnosticFormat → String
  | .text => "text"
  | .json => "json"

/-- The format with a name. -/
def DiagnosticFormat.ofName? : String → Option DiagnosticFormat
  | "text" => some .text
  | "json" => some .json
  | _ => none

/-- What can be set. -/
structure Settings where
  options : Options := {}
  diagnostics : DiagnosticFormat := .text
  /-- Whether diagnostics count as failures. -/
  strict : Bool := false
  deriving DecidableEq, Repr

namespace Settings

/-- Why settings cannot be had. -/
inductive Error where
  /-- A text spells no key. -/
  | badKey
  /-- A file that has to be there is missing, or is no text. -/
  | unreadableFile
  /-- A file breaks a rule of its format. -/
  | badFile
  /-- A value cannot be taken as one of the type that is wanted. -/
  | badType
  /-- A value has the wrong shape or names no choice. -/
  | badShape
  deriving DecidableEq, Repr

/-- What is wrong, in words. -/
def Error.message : Error → String
  | .badKey => "a key cannot be read"
  | .unreadableFile => "a configuration file cannot be read"
  | .badFile => "a configuration file is not valid"
  | .badType => "a value has the wrong type"
  | .badShape => "a value is not one of those allowed"

/-! ## Values of a type -/

/-- One of several choices, by its name without case or as the only name of a table. -/
def choice (ofName? : String → Option α) (value : Value) : Except Error α :=
  let name? : Option String :=
    match value with
    | .string name => some name
    | .table [(name, _)] => some name
    | _ => none
  match name?.bind fun name => ofName? name.toLower with
  | some a => .ok a
  | none => .error .badShape

/-- The words for a truth value. -/
def truthWord? (word : String) : Option Bool :=
  match word.toLower with
  | "true" | "on" | "yes" => some true
  | "false" | "off" | "no" => some false
  | _ => none

/-- A truth value. -/
def truth : Value → Except Error Bool
  | .bool b => .ok b
  | .int n => .ok (n != 0)
  | .float x => .ok (x != 0)
  | .string "1" => .ok true
  | .string "0" => .ok false
  | .string s => (truthWord? s).elim (.error .badType) .ok
  | _ => .error .badType

/-- The greatest number that fits 64 bits. -/
def maxCount : Nat := 0xFFFFFFFFFFFFFFFF

/-- The nearest number of 64 bits to a floating-point value. A half goes up, and what is no number
is zero. -/
def nearestCount (x : Float) : Nat :=
  x.round.toUInt64.toNat

/-- A number of 64 bits without a sign. -/
def count : Value → Except Error Nat
  | .int n => if 0 ≤ n then .ok n.toNat else .error .badType
  | .bool b => .ok b.toNat
  | .float x => .ok (nearestCount x)
  | .string s =>
    match truthWord? s with
    | some b => .ok b.toNat
    | none =>
      let text := s.toList
      let digits := if text.head? == some '+' then text.drop 1 else text
      if digits.isEmpty || !digits.all Char.isDigit || maxCount < Decimal.ofDigits digits then
        .error .badType
      else .ok (Decimal.ofDigits digits)
  | _ => .error .badType

/-- A text. -/
def text : Value → Except Error String
  | .string s => .ok s
  | .bool b => .ok (if b then "true" else "false")
  | .int n => .ok (toString n)
  | .float x => .ok (Decimal.ofFloat x)
  | _ => .error .badType

/-- A list of words. -/
def words : Value → Except Error (List (List Char))
  | .list items => items.mapM fun item => (text item).map String.toList
  | _ => .error .badShape

/-! ## Sections -/

/-- The value of a field of a section, by its name in a table or by its place in a list. -/
def field? (value : Value) (place : Nat) (name : String) : Except Error (Option Value) :=
  match value with
  | .table entries => .ok (Value.lookup? entries name)
  | .list items => .ok items[place]?
  | _ => .error .badShape

/-- A field that has a default. -/
def fieldOr (value : Value) (place : Nat) (name : String) (default : α)
    (decode : Value → Except Error α) : Except Error α :=
  match field? value place name with
  | .error e => .error e
  | .ok none => .ok default
  | .ok (some v) => decode v

/-- A field that has to be there. -/
def requiredField (value : Value) (place : Nat) (name : String)
    (decode : Value → Except Error α) : Except Error α :=
  match field? value place name with
  | .error e => .error e
  | .ok none => .error .badShape
  | .ok (some v) => decode v

/-- The options in a section. -/
def decodeOptions (fields : Value) : Except Error Options := do
  let defaults : Options := {}
  let spacing ← fieldOr fields 0 "spacing" defaults.spacing (choice Spacing.ofName?)
  let relocateVolatile ← fieldOr fields 1 "relocate_volatile" defaults.relocateVolatile truth
  let declMacros ← fieldOr fields 2 "decl_macros" defaults.declMacros words
  let maxExtentTokens ← fieldOr fields 3 "max_extent_tokens" defaults.maxExtentTokens count
  return { spacing, relocateVolatile, declMacros, maxExtentTokens }

/-- A section, which has to be there. -/
def part (root : Value) (name : String) : Except Error Value :=
  (root.get? name).elim (.error .badShape) .ok

/-- The settings in a tree of values. -/
def decode (root : Value) : Except Error Settings := do
  let options ← decodeOptions (← part root "rewrite")
  let output ← part root "output"
  let diagnostics ← requiredField output 0 "diagnostics" (choice DiagnosticFormat.ofName?)
  let strict ← requiredField output 1 "strict" truth
  return { options, diagnostics, strict }

/-- Settings as a tree of values. -/
def toValue (settings : Settings) : Value :=
  .table
    [("rewrite", .table
      [("spacing", .string settings.options.spacing.name),
       ("relocate_volatile", .bool settings.options.relocateVolatile),
       ("decl_macros", .list (settings.options.declMacros.map fun word =>
          .string (String.ofList word))),
       ("max_extent_tokens", .int settings.options.maxExtentTokens)]),
     ("output", .table
      [("diagnostics", .string settings.diagnostics.name),
       ("strict", .bool settings.strict)])]

/-! ## Files -/

/-- The bytes of a settings file. Where no file has the given name, `.toml` is added to it. -/
def findFile? (read : String → Except ReadError (List UInt8)) (path : String) :
    Option (List UInt8) :=
  match read path with
  | .ok bytes => some bytes
  | .error _ =>
    match Path.fileName? path with
    | none => none
    | some name => (read (Path.withFileName path (name ++ ".toml"))).toOption

/-- The text of a settings file. A file that is not UTF-8 has none. -/
def fileText? (read : String → Except ReadError (List UInt8)) (path : String) :
    Option (List Char) :=
  (findFile? read path).bind fun bytes => (Utf8.decode bytes).toOption

/-- The entries of the text of a settings file. -/
def fileEntries (text : List Char) : Except Error (List (String × Value)) :=
  (Toml.parse? text).elim (.error .badFile) .ok

/-! ## Sources -/

/-- A place that settings come from. -/
inductive Layer where
  /-- A file. Unless it is `required`, it may be missing or no text, and then gives nothing; what it
  holds has to be valid all the same. -/
  | file (path : String) (required : Bool)
  /-- The variables of the environment. -/
  | environment
  deriving DecidableEq, Repr

/-- Where settings come from. -/
structure Sources where
  /-- Laid over the defaults from first to last. -/
  layers : List Layer := []
  /-- Laid over everything else from first to last. -/
  overrides : List (Key × Value) := []

/-- What settings are read from. -/
structure Surroundings where
  /-- Reads a file. -/
  read : String → Except ReadError (List UInt8)
  /-- The variables of the environment. -/
  environment : List (String × String) := []

/-- The entries of a layer. -/
def Layer.entries (surroundings : Surroundings) : Layer → Except Error (List (String × Value))
  | .environment => .ok (Environment.entries surroundings.environment)
  | .file path required =>
    match fileText? surroundings.read path with
    | some text => fileEntries text
    | none => if required then .error .unreadableFile else .ok []

/-- Adds a layer over those there are. -/
def Sources.addLayer (sources : Sources) (layer : Layer) : Sources :=
  { sources with layers := sources.layers ++ [layer] }

/-- Adds an override. One of the same key is replaced. -/
def Sources.override (sources : Sources) (key : Key) (value : Value) : Sources :=
  { sources with overrides := sources.overrides.filter (·.1 != key) ++ [(key, value)] }

/-- The tree of values that all sources give together. -/
def Sources.collect (sources : Sources) (surroundings : Surroundings) : Except Error Value := do
  let base : Value := toValue {}
  let layered ← sources.layers.foldlM
    (fun root layer => (layer.entries surroundings).map root.overlay) base
  return sources.overrides.foldl (fun root (key, value) => key.set value root) layered

/-- The settings that all sources give together. -/
def Sources.resolve (sources : Sources) (surroundings : Surroundings) : Except Error Settings := do
  decode (← sources.collect surroundings)

end Settings

end EastConst
