import EastConst.Settings.Toml.Node
import EastConst.Settings.Toml.Scalar

/-!
# TOML documents

Settings files are TOML documents. `Toml.parse?` gives the top-level entries of a document, or
`none` if it breaks a rule of the format.
-/

namespace EastConst.Settings.Toml

/-- A comment at the start of a text is left out, up to the line break. -/
def comment? (text : List Char) : Option (List Char) :=
  match text with
  | '#' :: rest =>
    let rest := rest.dropWhile isText
    match rest with
    | [] => some []
    | rest => if (newline? rest).isSome then some rest else none
  | text => some text

/-- The end of a line: blanks, a comment, and a line break or the end of the text. -/
def lineEnd? (text : List Char) : Option (List Char) := do
  let rest ← comment? (text.dropWhile isBlank)
  match rest with
  | [] => some []
  | rest => newline? rest

/-- The text after blanks, line breaks and comments. -/
def skipLines : (fuel : Nat) → List Char → Option (List Char)
  | 0, _ => none
  | fuel + 1, text => do
    let rest ← comment? (text.dropWhile isBlank)
    match newline? rest with
    | some rest => skipLines fuel rest
    | none => some rest

/-- Whether a character may stand in a name without quotes. -/
def isBareChar (c : Char) : Bool :=
  c.isAlphanum || c == '_' || c == '-'

/-- A name at the start of a text. -/
def simpleName? (text : List Char) : Option (String × List Char) :=
  match text with
  | '"' :: body => (lineBody '"' true (body.length + 1) body).map fun (s, rest) =>
    (String.ofList s, rest)
  | '\'' :: body => (lineBody '\'' false (body.length + 1) body).map fun (s, rest) =>
    (String.ofList s, rest)
  | text =>
    let name := text.takeWhile isBareChar
    if name.isEmpty then none else some (String.ofList name, text.drop name.length)

/-- How many parts a dotted name may have, and how deep lists and inline tables may be nested. -/
def maxDepth : Nat := 79

/-- Names with dots between them, and blanks around the dots: all but the last, and the last. There
are at most as many names as there is room for. -/
def names? : (room : Nat) → List Char → Option (List String × String × List Char)
  | 0, _ => none
  | room + 1, text => do
    let (name, rest) ← simpleName? (text.dropWhile isBlank)
    match rest.dropWhile isBlank with
    | '.' :: rest => do
      let (names, last, rest) ← names? room rest
      some (name :: names, last, rest)
    | rest => some ([], name, rest)

/-- A dotted name at the start of a text. -/
def dottedName? (text : List Char) : Option (List String × String × List Char) :=
  names? maxDepth text

mutual

/-- A value at the start of a text, with room for so many lists and tables in one another. -/
def value? : (fuel room : Nat) → List Char → Option (Value × List Char)
  | fuel + 1, room + 1, '[' :: text => do
    let (items, rest) ← items? fuel room text
    some (.list items, rest)
  | fuel + 1, room + 1, '\x7b' :: text =>
    match text.dropWhile isBlank with
    | '\x7d' :: rest => some (.table [], rest)
    | text => do
      let (node, rest) ← fields? fuel room .emptyTable text
      some (node.toValue, rest)
  | _, _, text => scalar? text

/-- The items of a list, after its opening bracket or a comma. -/
def items? : (fuel room : Nat) → List Char → Option (List Value × List Char)
  | 0, _, _ => none
  | fuel + 1, room, text => do
    match ← skipLines (text.length + 1) text with
    | ']' :: rest => some ([], rest)
    | text => do
      let (item, rest) ← value? fuel room text
      match ← skipLines (rest.length + 1) rest with
      | ',' :: rest => do
        let (items, rest) ← items? fuel room rest
        some (item :: items, rest)
      | ']' :: rest => some ([item], rest)
      | _ => none

/-- The fields of an inline table, after its opening brace or a comma. -/
def fields? : (fuel room : Nat) → Node → List Char → Option (Node × List Char)
  | 0, _, _, _ => none
  | fuel + 1, room, node, text => do
    let (names, last, rest) ← dottedName? text
    match rest with
    | '=' :: rest => do
      let (v, rest) ← value? fuel room (rest.dropWhile isBlank)
      let node ← node.addValue [] names last v
      match rest.dropWhile isBlank with
      | ',' :: rest => fields? fuel room node rest
      | '\x7d' :: rest => some (node, rest)
      | _ => none
    | _ => none

end

/-- The name in a header, after its opening brackets. The header ends with `closing`. -/
def header? (closing text : List Char) : Option (List String × String × List Char) := do
  let (names, last, rest) ← dottedName? text
  if closing.isPrefixOf rest then
    let rest ← lineEnd? (rest.drop closing.length)
    some (names, last, rest)
  else none

/-- The lines of a document, added to what has been read before them. Values go to the table at
`current`. -/
def lines? : (fuel : Nat) → (root : Node) → (current : List String) → List Char → Option Node
  | 0, _, _, _ => none
  | fuel + 1, root, current, text => do
    match ← skipLines (text.length + 1) text with
    | [] => some root
    | '[' :: '[' :: text => do
      let (parents, name, rest) ← header? [']', ']'] text
      let root ← root.openItem parents name
      lines? fuel root (parents ++ [name]) rest
    | '[' :: text => do
      let (parents, name, rest) ← header? [']'] text
      let root ← root.openTable parents name
      lines? fuel root (parents ++ [name]) rest
    | text => do
      let (names, last, rest) ← dottedName? text
      match rest with
      | '=' :: rest => do
        let (v, rest) ← value? (rest.length + 1) maxDepth (rest.dropWhile isBlank)
        let rest ← lineEnd? rest
        let root ← root.addValue current names last v
        lines? fuel root current rest
      | _ => none

/-- The entries of a document. A byte order mark at its start does not count. -/
def parse? (text : List Char) : Option (List (String × Value)) := do
  let text := if text.head? == some '\uFEFF' then text.drop 1 else text
  let root ← lines? (text.length + 1) .emptyTable [] text
  some root.toValue.entries

end EastConst.Settings.Toml
