/-!
# JSON text

Values written as JSON, on one line or spread over lines with an indent of two. Only quotes,
backslashes and control characters are escaped. The fields of an object are written in the order
they are given in.
-/

namespace EastConst

/-- A value that can be written as JSON. -/
inductive Json where
  | null
  | number (n : Nat)
  | string (s : String)
  | array (items : List Json)
  | object (fields : List (String × Json))

namespace Json

/-- A character inside a JSON string. -/
def escapedChar (c : Char) : List Char :=
  match c with
  | '"' => ['\\', '"']
  | '\\' => ['\\', '\\']
  | '\x08' => ['\\', 'b']
  | '\t' => ['\\', 't']
  | '\n' => ['\\', 'n']
  | '\x0C' => ['\\', 'f']
  | '\r' => ['\\', 'r']
  | c =>
    if c.toNat < 0x20 then
      let digits := Nat.toDigits 16 c.toNat
      ['\\', 'u'] ++ List.replicate (4 - digits.length) '0' ++ digits
    else [c]

/-- A string in JSON. -/
def ofString (s : String) : String :=
  String.ofList ('"' :: s.toList.flatMap escapedChar ++ ['"'])

/-- Strings with brackets around them and commas between them. -/
def enclose (opening closing : String) (items : List String) : String :=
  opening ++ ",".intercalate items ++ closing

mutual

/-- A value on one line. -/
def compact : Json → String
  | null => "null"
  | number n => toString n
  | string s => ofString s
  | array items => enclose "[" "]" (compactItems items)
  | object fields => enclose "\x7b" "\x7d" (compactFields fields)

/-- The items of an array, each on one line. -/
def compactItems : List Json → List String
  | [] => []
  | item :: rest => item.compact :: compactItems rest

/-- The fields of an object, each on one line. -/
def compactFields : List (String × Json) → List String
  | [] => []
  | (name, value) :: rest => (ofString name ++ ":" ++ value.compact) :: compactFields rest

end

/-- A line break and an indent. -/
def newline (depth : Nat) : String :=
  "\n".pushn ' ' (2 * depth)

/-- Strings on lines of their own, with brackets around them. -/
def spread (depth : Nat) (opening closing : String) (items : List String) : String :=
  if items.isEmpty then opening ++ closing
  else
    opening ++ newline (depth + 1) ++ ("," ++ newline (depth + 1)).intercalate items ++
      newline depth ++ closing

mutual

/-- A value spread over lines, inside `depth` others. -/
def prettyAt (depth : Nat) : Json → String
  | null => "null"
  | number n => toString n
  | string s => ofString s
  | array items => spread depth "[" "]" (prettyItems (depth + 1) items)
  | object fields => spread depth "\x7b" "\x7d" (prettyFields (depth + 1) fields)

/-- The items of an array, spread over lines. -/
def prettyItems (depth : Nat) : List Json → List String
  | [] => []
  | item :: rest => item.prettyAt depth :: prettyItems depth rest

/-- The fields of an object, spread over lines. -/
def prettyFields (depth : Nat) : List (String × Json) → List String
  | [] => []
  | (name, value) :: rest =>
    (ofString name ++ ": " ++ value.prettyAt depth) :: prettyFields depth rest

end

/-- A value spread over lines. -/
def pretty (value : Json) : String := value.prettyAt 0

end Json

end EastConst
