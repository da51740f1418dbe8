import EastConst.Settings.Value
import EastConst.Text.Decimal
import EastConst.Text.Substitute

/-!
# Settings in the environment

A variable holds a setting if its name starts with the mark of the program; section and name of the
setting follow, with two underscores between them, in any case. The value of a variable is read as a
truth value, a number or a text, whichever fits first.
-/

namespace EastConst.Settings.Environment

/-- What the names of variables with settings start with, in lower case. -/
def mark : List Char := "westerly__".toList

/-- The settings whose text is a list with commas between its items. -/
def listKeys : List String := ["rewrite.decl_macros"]

/-- The key of a variable with a setting. -/
def key? (name : String) : Option String :=
  let name := (Value.lowerName name).toList
  if mark.isPrefixOf name then
    some (String.ofList (substitute ['_', '_'] ['.'] (name.drop mark.length)))
  else none

/-- The integer that a text spells, if it fits 64 bits with a sign. -/
def integer? (text : List Char) : Option Int :=
  (Decimal.int? text).filter Decimal.fitsWord

/-- The value of a setting that is given as a text. -/
def value (key text : String) : Value :=
  match text.toLower with
  | "true" => .bool true
  | "false" => .bool false
  | _ =>
    match integer? text.toList with
    | some n => .int n
    | none =>
      match Decimal.float? text.toList with
      | some x => .float x
      | none =>
        if listKeys.contains key then .list ((text.splitOn ",").map .string) else .string text

/-- The settings in given variables, by key. -/
def entries (given : List (String × String)) : List (String × Value) :=
  given.filterMap fun (name, text) =>
    (key? name).map fun key => (key, value key text)

end EastConst.Settings.Environment
