import EastConst.Occurrence
import EastConst.Plan.Gap
import EastConst.Token.Stream
import EastConst.TypeExtent

/-!
# Groups

Leading qualifiers that belong to one type form a group. A group starts at a leading qualifier and
goes on over qualifiers, specifiers and configured macros; the first other token starts the type.
The qualifiers of a group move together and keep their order, or stay together when the type has no
extent.
-/

namespace EastConst

/-- Leading qualifiers of one type that are to be moved. -/
structure Group where
  /-- The indices of the qualifiers, in ascending order. -/
  members : List Nat
  /-- The index where the type starts. -/
  typeStart : Nat
  /-- The index of the first token that the type cannot reach. -/
  boundary : Nat
  deriving DecidableEq, Repr

/-- Whether a token may stand between a leading qualifier and its type. -/
def Token.isTypePrefix (options : Options) (t : Token) : Bool :=
  match t.kind with
  | .keyword => Vocabulary.isQualifier t.text || Vocabulary.isSpecifier t.text
  | .identifier => options.isDeclMacro t.text
  | _ => false

namespace Group

/-- The indices of the qualifiers that `moves` picks before a type, and the index where the type
starts, the first token having a given index. -/
def collect (options : Options) (moves : Nat → Qualifier → Bool) (boundary : Nat) :
    (index : Nat) → List Token → List Nat × Nat
  | _, [] => ([], boundary)
  | index, t :: rest =>
    if boundary ≤ index then ([], boundary)
    else if t.isTrivia then collect options moves boundary (index + 1) rest
    else
      match Qualifier.ofToken? t with
      | some q =>
        let (members, typeStart) := collect options moves boundary (index + 1) rest
        (if moves index q then index :: members else members, typeStart)
      | none =>
        if t.isTypePrefix options then collect options moves boundary (index + 1) rest
        else ([], index)

/-- Whether the occurrences say that the qualifier at an index leads a type. -/
def isLeading (found : List Occurrence) (index : Nat) : Bool :=
  found.any fun o => o.index == index && o.role == .leading

/-- The group that starts at an occurrence. -/
def ofOccurrence (options : Options) (tokens : List Token) (found : List Occurrence)
    (o : Occurrence) : Group :=
  let moves := fun index q => isLeading found index && options.relocates q
  let (members, typeStart) :=
    collect options moves o.boundary o.index (tokens.drop o.index)
  ⟨members, typeStart, o.boundary⟩

/-- The groups that start at the given occurrences, none of them before the index `free`. A group
that has no qualifier to move is left out. -/
def groupsFrom (options : Options) (tokens : List Token) (found : List Occurrence) :
    (free : Nat) → List Occurrence → List Group
  | _, [] => []
  | free, o :: rest =>
    if o.role = .leading ∧ free ≤ o.index then
      let group := ofOccurrence options tokens found o
      let later := groupsFrom options tokens found group.typeStart rest
      if group.members.isEmpty then later else group :: later
    else groupsFrom options tokens found free rest

/-- The extent of the type of a group. -/
def extent (options : Options) (tokens : List Token) (group : Group) : Except Refusal TypeExtent :=
  TypeExtent.find options.maxExtentTokens tokens group.typeStart group.boundary

end Group

/-- The groups of leading qualifiers in a token sequence. -/
def groups (options : Options) (tokens : List Token) : List Group :=
  let found := occurrences options tokens
  Group.groupsFrom options tokens found 0 found

namespace Plan

/-- The moves of the qualifiers at given indices to one anchor. -/
def movesTo (tokens : List Token) (anchor : Nat) (members : List Nat) : List Move :=
  members.filterMap fun index =>
    (tokens[index]?.bind Qualifier.ofToken?).map (⟨index, anchor, ·⟩)

/-- A plan that also moves the qualifiers at given indices to one anchor. -/
def addMoves (options : Options) (tokens : List Token) (plan : Plan) (members : List Nat)
    (anchor : Nat) : Plan :=
  let moved := { plan with moves := plan.moves ++ movesTo tokens anchor members }
  let closed := members.foldl (fun p index => p.closeGap tokens index) moved
  if needsPadding options.spacing tokens anchor then
    { closed with padded := closed.padded.insert anchor () }
  else closed

/-- A plan that also moves a group, if its type has an extent. -/
def addGroup (options : Options) (tokens : List Token) (plan : Plan) (group : Group) : Plan :=
  match group.extent options tokens with
  | .ok extent => plan.addMoves options tokens group.members extent.last
  | .error _ => plan

/-- The plan that moves every group whose type has an extent. -/
def ofTokens (options : Options) (tokens : List Token) : Plan :=
  (groups options tokens).foldl (addGroup options tokens) {}

end Plan

/-- A group that stays because its type has no extent. -/
structure RefusedGroup where
  group : Group
  refusal : Refusal
  deriving DecidableEq, Repr

/-- The groups whose types have no extent. -/
def refusedGroups (options : Options) (tokens : List Token) : List RefusedGroup :=
  (groups options tokens).filterMap fun group =>
    match group.extent options tokens with
    | .ok _ => none
    | .error refusal => some ⟨group, refusal⟩

/-- The diagnostic of a group that stays, at its first qualifier. -/
def RefusedGroup.diagnostic (tokens : List Token) (refused : RefusedGroup) : Diagnostic :=
  .warning (offsetAt tokens (refused.group.members.headD 0)) refused.refusal.code
    refused.refusal.message

end EastConst
