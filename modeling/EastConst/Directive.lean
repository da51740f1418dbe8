import EastConst.Token

/-!
# Preprocessor directives

A `#` that is the first significant token of its line starts a directive, which runs to the line
break that no backslash continues. `segments` cuts tokens into directives and the tokens outside
them, and `macroBody?` finds the body of a `#define`.
-/

namespace EastConst

/-- Whether a text has a line break that no backslash continues. -/
def endsLine : List Char → Bool
  | [] => false
  | '\\' :: '\n' :: text => endsLine text
  | '\\' :: '\r' :: '\n' :: text => endsLine text
  | '\n' :: _ => true
  | _ :: text => endsLine text

/-- Whether a token is whitespace that ends its line. -/
def Token.endsLine (t : Token) : Bool :=
  t.kind == .whitespace && EastConst.endsLine t.text

/-- A place between two tokens. -/
inductive Place where
  /-- No significant token has been met on the line. -/
  | lineStart
  /-- A significant token has been met on the line. -/
  | midLine
  /-- In a directive, whose tokens so far are given. -/
  | directive (held : List Token)
  deriving DecidableEq, Repr

/-- The place after one more token. -/
def Place.after : Place → Token → Place
  | .directive held, t => if t.endsLine then .lineStart else .directive (held ++ [t])
  | .lineStart, t =>
    if t.isMark .hash then .directive [t] else if t.isTrivia then .lineStart else .midLine
  | .midLine, t => if t.endsLine then .lineStart else .midLine

/-- A piece of the token sequence. -/
inductive Segment where
  /-- A token outside all directives. -/
  | token (t : Token)
  /-- The tokens of a directive, from its `#` to before the line break that ends it. -/
  | directive (tokens : List Token)
  deriving DecidableEq, Repr

/-- The tokens of a segment. -/
def Segment.tokens : Segment → List Token
  | .token t => [t]
  | .directive tokens => tokens

/-- The segments of tokens that follow a place. -/
def segmentsFrom : Place → List Token → List Segment
  | .directive held, [] => [.directive held]
  | _, [] => []
  | .directive held, t :: rest =>
    if t.endsLine then .directive held :: .token t :: segmentsFrom .lineStart rest
    else segmentsFrom (.directive (held ++ [t])) rest
  | place, t :: rest =>
    match place.after t with
    | .directive held => segmentsFrom (.directive held) rest
    | after => .token t :: segmentsFrom after rest

/-- The tokens before the end of the input. -/
def beforeEnd (tokens : List Token) : List Token :=
  tokens.takeWhile (·.kind != .endOfInput)

/-- The segments of a token sequence up to the end of the input. -/
def segments (tokens : List Token) : List Segment :=
  segmentsFrom .lineStart (beforeEnd tokens)

/-- What follows the parenthesis that closes `depth` open ones. -/
def afterParens : (depth : Nat) → List Token → List Token
  | _, [] => []
  | depth, t :: rest =>
    match t.mark? with
    | some .parenOpen => afterParens (depth + 1) rest
    | some .parenClose => if depth ≤ 1 then rest else afterParens (depth - 1) rest
    | _ => afterParens depth rest

/-- What follows the parameters of a macro. There are some only if a parenthesis touches the
name. -/
def afterParameters : List Token → List Token
  | [] => []
  | t :: rest => if t.isMark .parenOpen then afterParens 1 rest else t :: rest

/-- The body of a macro that a directive defines. -/
def macroBody? (directive : List Token) : Option (List Token) :=
  match (directive.drop 1).dropWhile Token.isTrivia with
  | [] => none
  | word :: rest =>
    if word.text = "define".toList then
      match rest.dropWhile Token.isTrivia with
      | [] => none
      | _ :: afterName => some (afterParameters afterName)
    else none

end EastConst
