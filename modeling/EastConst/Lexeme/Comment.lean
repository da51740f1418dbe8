/-!
# Comments

A line comment ends before the first line break that no backslash continues. A block comment ends
with the first `*/`; the quotes in it mean nothing.
-/

namespace EastConst.Lexeme.Comment

/-- The length of a line comment after its `//`. A line break is a line feed with the carriage
return right before it, if there is one. -/
def lineLength : List Char → Nat
  | '\\' :: '\n' :: text => lineLength text + 2
  | '\\' :: '\r' :: '\n' :: text => lineLength text + 3
  | '\r' :: '\n' :: _ => 0
  | '\n' :: _ => 0
  | _ :: text => lineLength text + 1
  | [] => 0

/-- The length of a block comment after its `/*`, and whether it is closed. -/
def blockLength : List Char → Nat × Bool
  | '*' :: '/' :: _ => (2, true)
  | _ :: text => let (n, closed) := blockLength text; (n + 1, closed)
  | [] => (0, false)

end EastConst.Lexeme.Comment
