/-!
# Lexemes

A lexeme is a piece of source text that reads as one unit of C or C++. The kinds are coarse: every
name-shaped run is a `word`, whether the language reserves it or not, and every operator is a
`punctuator`. A comment or literal that never ends is a lexeme all the same, marked as not closed.
-/

namespace EastConst

/-- The kinds of lexemes. -/
inductive Lexeme.Kind where
  /-- Blanks, line breaks, continued line breaks, byte order marks. -/
  | whitespace
  /-- From `//` to the end of the line. -/
  | lineComment
  /-- From `/*` to `*/`. -/
  | blockComment
  /-- A string between double quotes. -/
  | string
  /-- A character between single quotes. -/
  | character
  /-- A string between `R"delimiter(` and `)delimiter"`. -/
  | rawString
  /-- A name or a reserved word. -/
  | word
  /-- A preprocessing number. -/
  | number
  /-- An operator or a bracket. -/
  | punctuator
  /-- A character with no part in the language. -/
  | stray
  deriving DecidableEq, Repr

/-- The name of a kind. -/
def Lexeme.Kind.name : Lexeme.Kind → String
  | .whitespace => "whitespace"
  | .lineComment => "line-comment"
  | .blockComment => "block-comment"
  | .string => "string"
  | .character => "char"
  | .rawString => "raw-string"
  | .word => "word"
  | .number => "number"
  | .punctuator => "punct"
  | .stray => "stray"

/-- A piece of source text that reads as one unit. -/
structure Lexeme where
  kind : Lexeme.Kind
  text : List Char
  /-- Whether the lexeme has its closing delimiter, if its kind has one. -/
  closed : Bool
  deriving DecidableEq, Repr

/-- What stands at the start of a text: a lexeme of a kind and of a number of characters. -/
structure Lexeme.Extent where
  kind : Lexeme.Kind
  length : Nat
  closed : Bool := true
  deriving DecidableEq, Repr

/-- The lexeme of an extent at the start of a text. -/
def Lexeme.Extent.lexeme (extent : Lexeme.Extent) (text : List Char) : Lexeme :=
  ⟨extent.kind, text.take extent.length, extent.closed⟩

end EastConst
