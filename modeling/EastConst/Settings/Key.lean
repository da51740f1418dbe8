import EastConst.Settings.Value
import EastConst.Text.Decimal

/-!
# Keys

A key leads to a setting: names with dots between them, and indices of list items in square
brackets.
-/

namespace EastConst.Settings

/-- The way to a setting. -/
inductive Key where
  | name (name : String)
  | child (parent : Key) (name : String)
  | item (parent : Key) (index : Int)
  deriving DecidableEq, Repr

namespace Key

/-- Whether a character may stand in a name. -/
def isNameChar (c : Char) : Bool :=
  c.isAlphanum || c == '_' || c == '-' || c == ' '

/-- A name at the start of a text, and what follows it. -/
def word? (text : List Char) : Option (String × List Char) :=
  let word := text.takeWhile isNameChar
  if word.isEmpty then none else some (String.ofList word, text.drop word.length)

/-- Whether a character is a blank on a line. -/
def isGap (c : Char) : Bool := c == ' ' || c == '\t'

/-- A list index up to its closing bracket, and what follows it. -/
def index? (text : List Char) : Option (Int × List Char) :=
  let text := text.dropWhile isGap
  let negative := text.head? == some '-'
  let text := if negative then text.drop 1 else text
  let digits := text.takeWhile Char.isDigit
  match (text.drop digits.length).dropWhile isGap with
  | ']' :: rest =>
    if digits.isEmpty then none
    else
      let n : Int := Int.ofNat (Decimal.ofDigits digits)
      let index := if negative then -n else n
      if Decimal.fitsWord index then some (index, rest) else none
  | _ => none

/-- The steps that follow a key, read with as much fuel as there is text. -/
def extend? : (fuel : Nat) → Key → List Char → Option Key
  | _, key, [] => some key
  | 0, _, _ :: _ => none
  | fuel + 1, key, '.' :: text => do
    let (word, rest) ← word? text
    extend? fuel (key.child word) rest
  | fuel + 1, key, '[' :: text => do
    let (index, rest) ← index? text
    extend? fuel (key.item index) rest
  | _ + 1, _, _ :: _ => none

/-- The key that a text spells. -/
def parse? (text : String) : Option Key := do
  let (first, rest) ← word? text.toList
  extend? rest.length (.name first) rest

/-- Changes the value that a key leads to. -/
def update : Key → (Value → Value) → Value → Value
  | name n, f => Value.updateName n f
  | child parent n, f => parent.update (Value.updateName n f)
  | item parent index, f => parent.update (Value.updateItem index f)

/-- Sets the value that a key leads to. -/
def set (key : Key) (value : Value) (root : Value) : Value :=
  match key with
  | name n => root.setName n value
  | child parent n => parent.update (·.setName n value) root
  | item parent index => parent.update (Value.updateItem index fun _ => value) root

end Key

/-- Sets each entry of a table in another one. A name that spells a key is taken as that key. -/
def Value.overlay (root : Value) (entries : List (String × Value)) : Value :=
  entries.foldl (fun root (name, value) =>
    ((Key.parse? name).getD (.name name)).set value root) root

end EastConst.Settings
