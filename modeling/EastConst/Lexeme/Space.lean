/-!
# Whitespace lexemes

A run of blanks, line breaks, byte order marks and continuations (a backslash and the line break
after it). A backslash that ends no line is not whitespace, with one exception: right after a run it
belongs to the run and ends it.
-/

namespace EastConst.Lexeme.Space

/-- Whether a character is whitespace wherever it stands. -/
def isSpace (c : Char) : Bool :=
  c == ' ' || c == '\t' || c == '\r' || c == '\n' || c == '\x0B' || c == '\x0C' || c == '\uFEFF'

/-- The length of the run of blanks and continuations at the start of a text. -/
def runLength : List Char → Nat
  | '\\' :: '\n' :: text => runLength text + 2
  | '\\' :: '\r' :: '\n' :: text => runLength text + 3
  | c :: text => if isSpace c then runLength text + 1 else 0
  | [] => 0

/-- The length of the whitespace at the start of a text, with the backslash that ends a run. -/
def length (text : List Char) : Nat :=
  let run := runLength text
  if run ≠ 0 ∧ (text.drop run).head? = some '\\' then run + 1 else run

end EastConst.Lexeme.Space
