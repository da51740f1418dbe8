import EastConst.Text.Utf8

/-!
# Lines and columns

Problems are reported by byte offset. `lineColumn` turns an offset into a line and a column for the
reader, and `excerpt` shows the lines around it.
-/

namespace EastConst

/-- The characters that end at or before a byte offset: an offset inside a character counts as its
start, and one past the end as the end. -/
def charsBefore : (offset : Nat) → List Char → List Char
  | _, [] => []
  | offset, c :: text =>
    if c.utf8Size ≤ offset then c :: charsBefore (offset - c.utf8Size) text else []

/-- The characters after the last line break of a text. -/
def lastLine (text : List Char) : List Char :=
  (text.reverse.takeWhile (· != '\n')).reverse

/-- Line and column of a byte offset, both from zero. The column counts characters. -/
def lineColumn (source : List Char) (offset : Nat) : Nat × Nat :=
  let before := charsBefore offset source
  (before.count '\n', (lastLine before).length)

/-- The lines of a text. A line ends at a line feed, a carriage return right before it goes with it,
and there is no line after a final line feed. -/
def lines : List Char → List (List Char)
  | [] => []
  | '\r' :: '\n' :: text => [] :: lines text
  | '\n' :: text => [] :: lines text
  | c :: text =>
    match lines text with
    | [] => [[c]]
    | line :: rest => (c :: line) :: rest

/-- A number, filled with spaces on the left to three places. -/
def lineNumber (n : Nat) : String :=
  let digits := toString n
  "".pushn ' ' (3 - digits.length) ++ digits

/-- One line of an excerpt. -/
def excerptLine (marked number : Nat) (line : List Char) : String :=
  let marker := if number == marked then ">>" else "  "
  marker ++ " " ++ lineNumber (number + 1) ++ " | " ++ String.ofList line ++ "\n"

/-- The lines from two before to two after the line of an offset, numbered from one, with a mark on
the line itself. -/
def excerpt (source : List Char) (offset : Nat) : String :=
  let line := (lineColumn source offset).1
  let shown := ((lines source).zipIdx.take (line + 3)).drop (line - 2)
  String.join (shown.map fun (text, number) => excerptLine line number text)

end EastConst
