import EastConst.IndexMap
import EastConst.Qualifier
import EastConst.Text.Blank

/-!
# Plans

A plan says which qualifiers move where in a token sequence, and what becomes of the white space
around them. Tokens themselves are never changed. `Plan.pieces` carries a plan out, and `Plan.check`
says whether a plan only moves qualifiers forward and only changes white space.
-/

namespace EastConst

/-- Takes the qualifier at `index` and puts it right after the token at `anchor`. -/
structure Move where
  index : Nat
  anchor : Nat
  qualifier : Qualifier
  deriving DecidableEq, Repr

/-- Moves of qualifiers, and changes of white space. -/
structure Plan where
  moves : List Move := []
  /-- What is written in place of a whitespace token, or of a moved qualifier. -/
  spaces : IndexMap (List Char) := {}
  /-- The anchors that have a space after the qualifiers put there. -/
  padded : IndexMap Unit := {}
  deriving DecidableEq, Repr

namespace Plan

/-- Whether a plan moves nothing. -/
def isEmpty (plan : Plan) : Bool := plan.moves.isEmpty

/-- Whether a plan takes away the token at an index. -/
def removes (plan : Plan) (index : Nat) : Bool :=
  plan.moves.any (·.index == index)

/-! ## Carrying a plan out -/

/-- What is written after the token at an index: the qualifiers moved there, each after a space, and
the padding. -/
def insertion (plan : Plan) (index : Nat) : List Char :=
  let here := plan.moves.filter (·.anchor == index)
  if here.isEmpty then []
  else
    here.flatMap (fun m => ' ' :: m.qualifier.text) ++
      if plan.padded.contains index then [' '] else []

/-- What is written for the token at an index. -/
def piece (plan : Plan) (t : Token) (index : Nat) : List Char :=
  if plan.removes index then (plan.spaces.get? index).getD []
  else (plan.spaces.get? index).getD t.text ++ plan.insertion index

/-- What is written for each token. -/
def pieces (plan : Plan) (tokens : List Token) : List (List Char) :=
  tokens.zipIdx.map fun (t, index) => plan.piece t index

/-- The text that a plan makes of tokens. -/
def render (plan : Plan) (tokens : List Token) : List Char :=
  (plan.pieces tokens).flatten

/-! ## Checking a plan -/

/-- What is wrong with a plan. -/
inductive Fault where
  | notAQualifier (index : Nat)
  | duplicateRemoval (index : Nat)
  | anchorOutOfRange (anchor : Nat)
  | anchorRemoved (anchor : Nat)
  | backwardMove (index anchor : Nat)
  | notWhitespace (index : Nat)
  | nonBlankReplacement (index : Nat)
  deriving DecidableEq, Repr

/-- A fault in words. -/
def Fault.message : Fault → String
  | .notAQualifier index => "token " ++ toString index ++ " is not a qualifier"
  | .duplicateRemoval index => "token " ++ toString index ++ " is removed twice"
  | .anchorOutOfRange anchor => "insertion anchor " ++ toString anchor ++ " is out of range"
  | .anchorRemoved anchor => "insertion anchor " ++ toString anchor ++ " is itself removed"
  | .backwardMove index anchor =>
    "insertion anchor " ++ toString anchor ++ " does not follow removed token " ++ toString index
  | .notWhitespace index =>
    "token " ++ toString index ++ " is neither whitespace nor a removed qualifier"
  | .nonBlankReplacement index => "replacement for token " ++ toString index ++ " is not blank"

/-- The fault in what a move takes away, the moves before it having taken the indices `taken`. -/
def removalFault? (tokens : List Token) (taken : List Nat) (m : Move) : Option Fault :=
  if (tokens[m.index]?.bind Qualifier.ofToken?) ≠ some m.qualifier then
    some (.notAQualifier m.index)
  else if taken.contains m.index then some (.duplicateRemoval m.index)
  else none

/-- The first fault in what moves take away. -/
def removalsFault? (tokens : List Token) : (taken : List Nat) → List Move → Option Fault
  | _, [] => none
  | taken, m :: rest =>
    match removalFault? tokens taken m with
    | some fault => some fault
    | none => removalsFault? tokens (m.index :: taken) rest

/-- The fault in where a move puts its qualifier. -/
def anchorFault? (plan : Plan) (tokens : List Token) (m : Move) : Option Fault :=
  if tokens.length ≤ m.anchor then some (.anchorOutOfRange m.anchor)
  else if plan.removes m.anchor then some (.anchorRemoved m.anchor)
  else if m.anchor ≤ m.index then some (.backwardMove m.index m.anchor)
  else none

/-- The fault in a change of white space. -/
def spaceFault? (plan : Plan) (tokens : List Token) (index : Nat) (text : List Char) :
    Option Fault :=
  if tokens[index]?.map Token.kind ≠ some .whitespace ∧ ¬ plan.removes index then
    some (.notWhitespace index)
  else if text.all isBlank then none
  else some (.nonBlankReplacement index)

/-- The first fault of a plan: what moves take away comes first, then where they put it, then white
space in ascending order. -/
def fault? (plan : Plan) (tokens : List Token) : Option Fault :=
  removalsFault? tokens [] plan.moves
    <|> plan.moves.findSome? (plan.anchorFault? tokens)
    <|> plan.spaces.entries.findSome? fun (index, text) => plan.spaceFault? tokens index text

/-- Refuses a plan with a fault. -/
def check (plan : Plan) (tokens : List Token) : Except Fault Unit :=
  match plan.fault? tokens with
  | some fault => .error fault
  | none => .ok ()

end Plan

end EastConst
