/-!
# Nesting

The brackets that are open at a place in the source, innermost first. Since `<` also compares, an
angle bracket on the stack is a guess: every other bracket that closes, a brace that opens and a
semicolon drop the angle brackets above them.

Qualifiers are never moved inside a template header or the operand of `decltype`. How many such
brackets are open is kept beside the stack.
-/

namespace EastConst

/-- An open bracket. -/
inductive Bracket where
  /-- A parenthesis; `operand` says whether it holds the operand of `decltype`. -/
  | paren (operand : Bool)
  | square
  | brace
  /-- An angle bracket; `header` says whether it is the one of a template header. -/
  | angle (header : Bool)
  deriving DecidableEq, Repr

/-- Whether no qualifier inside the bracket is moved. -/
def Bracket.suppresses : Bracket → Bool
  | .paren operand => operand
  | .angle header => header
  | _ => false

/-- Whether a bracket is an angle bracket. -/
def Bracket.isAngle : Bracket → Bool
  | .angle _ => true
  | _ => false

/-- Whether a bracket is a parenthesis. -/
def Bracket.isParen : Bracket → Bool
  | .paren _ => true
  | _ => false

/-- The open brackets. -/
structure Nesting where
  /-- The open brackets, innermost first. -/
  brackets : List Bracket := []
  /-- How many of them suppress qualifiers. -/
  suppressed : Nat := 0
  deriving DecidableEq, Repr

namespace Nesting

/-- How many brackets are open. -/
def depth (n : Nesting) : Nat := n.brackets.length

/-- Whether some open bracket suppresses qualifiers. -/
def isSuppressed (n : Nesting) : Bool := 0 < n.suppressed

/-- Opens a bracket. -/
def push (n : Nesting) (b : Bracket) : Nesting :=
  ⟨b :: n.brackets, if b.suppresses then n.suppressed + 1 else n.suppressed⟩

/-- Closes the innermost bracket. -/
def pop (n : Nesting) : Nesting :=
  match n.brackets with
  | [] => n
  | b :: rest => ⟨rest, if b.suppresses then n.suppressed - 1 else n.suppressed⟩

/-- Closes a number of brackets. -/
def popMany : Nat → Nesting → Nesting
  | 0, n => n
  | count + 1, n => popMany count n.pop

/-- Closes brackets until at most `depth` are open. -/
def truncate (n : Nesting) (depth : Nat) : Nesting :=
  n.popMany (n.depth - depth)

/-- Closes the angle brackets that are innermost. -/
def dropAngles (n : Nesting) : Nesting :=
  n.popMany (n.brackets.takeWhile Bracket.isAngle).length

/-- Closes the innermost bracket if it is an angle bracket, and gives it. -/
def closeAngle (n : Nesting) : Option Bracket × Nesting :=
  match n.brackets with
  | .angle header :: _ => (some (.angle header), n.pop)
  | _ => (none, n)

/-- Closes a parenthesis and the angle brackets in it. -/
def closeParen (n : Nesting) : Nesting :=
  let n := n.dropAngles
  if n.brackets.head?.any Bracket.isParen then n.pop else n

/-- Closes a square bracket and the angle brackets in it. -/
def closeSquare (n : Nesting) : Nesting :=
  let n := n.dropAngles
  if n.brackets.head? = some .square then n.pop else n

/-- Closes the innermost brace and everything in it. -/
def closeBrace (n : Nesting) : Nesting :=
  if n.brackets.contains .brace then
    n.popMany ((n.brackets.takeWhile (· != .brace)).length + 1)
  else n

end Nesting

end EastConst
