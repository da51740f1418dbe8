import EastConst.Lexeme.Scan
import EastConst.Options
import EastConst.Plan

/-!
# Closing the gap

When a qualifier is taken away, the white space after it goes too. If a line break follows instead,
the blanks before the qualifier go, up to the line break before them. Line breaks stay. Two tokens
that come to touch must not read as something else: where they would, one space is left between
them.
-/

namespace EastConst

/-- Whether two tokens written side by side still read as the first one and something after it. -/
def Token.standsApart (left right : Token) : Bool :=
  left.kind == .whitespace || right.kind == .endOfInput ||
    (Lexeme.recognise (left.text ++ right.text)).length == left.text.length

namespace Plan

/-- Whether the token at an index leaves nothing behind. -/
def isGone (plan : Plan) (index : Nat) : Bool :=
  match plan.spaces.get? index with
  | some text => text.isEmpty
  | none => plan.removes index

/-- The last index before another whose token leaves something behind. -/
def survivorBefore? (plan : Plan) : (index : Nat) → Option Nat
  | 0 => none
  | index + 1 => if plan.isGone index then plan.survivorBefore? index else some index

/-- Whether the token at an index is white space that goes with the qualifier before it. -/
def isPending (plan : Plan) (t : Token) (index : Nat) : Bool :=
  t.isHorizontalSpace && 0 < index && plan.removes (index - 1)

/-- The index of the first of some tokens that will leave something behind, the first token having a
given index. -/
def survivorFrom? (plan : Plan) : (index : Nat) → List Token → Option Nat
  | _, [] => none
  | index, t :: rest =>
    if plan.isGone index || plan.isPending t index then plan.survivorFrom? (index + 1) rest
    else some index

/-- The first index from another on whose token will leave something behind. -/
def survivorAfter? (plan : Plan) (tokens : List Token) (start : Nat) : Option Nat :=
  plan.survivorFrom? start (tokens.drop start)

/-- Whether the tokens at two indices, with nothing left between them, stay apart. -/
def standApart (plan : Plan) (tokens : List Token) (left right : Nat) : Bool :=
  plan.spaces.contains left ||
    match tokens[left]?, tokens[right]? with
    | some l, some r => l.standsApart r
    | _, _ => true

/-- A text up to its last line break. -/
def throughLastLine (text : List Char) : List Char :=
  (text.reverse.dropWhile (· != '\n')).reverse

/-- Writes a text in place of the token at an index. -/
def setSpace (plan : Plan) (index : Nat) (text : List Char) : Plan :=
  { plan with spaces := plan.spaces.insert index text }

/-- Drops the blanks after the qualifier at an index, unless what is around them would be joined. -/
def dropSpaceAfter (plan : Plan) (tokens : List Token) (index : Nat) : Plan :=
  let apart :=
    match plan.survivorBefore? index, plan.survivorAfter? tokens (index + 2) with
    | some left, some right => plan.standApart tokens left right
    | _, _ => true
  if apart then plan.setSpace (index + 1) [] else plan

/-- Drops the blanks before the qualifier at an index, back to the last line break in them, unless
they have been changed already. -/
def trimSpaceBefore (plan : Plan) (tokens : List Token) (index : Nat) : Plan :=
  match index with
  | 0 => plan
  | before + 1 =>
    match tokens[before]? with
    | none => plan
    | some t =>
      let kept := throughLastLine t.text
      if t.kind = .whitespace ∧ ¬ plan.spaces.contains before ∧ kept.length < t.text.length then
        plan.setSpace before kept
      else plan

/-- Leaves a space in place of the qualifier at an index, if what is around it would be joined. -/
def keepApart (plan : Plan) (tokens : List Token) (index : Nat) : Plan :=
  match plan.survivorBefore? index with
  | none => plan
  | some left =>
    if plan.standApart tokens left (index + 1) then plan else plan.setSpace index [' ']

/-- Closes the gap that the qualifier at an index leaves. -/
def closeGap (plan : Plan) (tokens : List Token) (index : Nat) : Plan :=
  match tokens[index + 1]? with
  | none => plan
  | some next =>
    if next.isHorizontalSpace then plan.dropSpaceAfter tokens index
    else if next.kind = .whitespace then plan.trimSpaceBefore tokens index
    else plan.keepApart tokens index

/-- Whether a mark has a space before it in padded style. -/
def isPaddedMark : Mark → Bool
  | .star | .ampersand | .ampersands | .squareOpen | .parenOpen | .braceOpen | .scope => true
  | _ => false

/-- Whether the qualifiers put after an anchor need a space after them. -/
def needsPadding (spacing : Spacing) (tokens : List Token) (anchor : Nat) : Bool :=
  match tokens[anchor + 1]? with
  | none => false
  | some next =>
    match next.kind with
    | .keyword | .identifier | .literal | .comment => true
    | .punctuation => spacing == .padded && next.mark?.any isPaddedMark
    | .whitespace | .endOfInput => false

end Plan

end EastConst
