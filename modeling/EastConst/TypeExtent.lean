import EastConst.Token

/-!
# The extent of a type

`TypeExtent.scan` finds where the type ends that starts a sequence of significant tokens: a run of
fundamental type words, a name with its scopes and template arguments, an elaborated name or
`decltype(...)`. It looks at a limited number of tokens. When it finds no type, a `Refusal` says
why.
-/

namespace EastConst

/-- Why a type has no extent. -/
inductive Refusal where
  | missingType
  | implicitInt
  | unbalancedTemplate
  | splitAngle
  | extentTooLong
  deriving DecidableEq, Repr

/-- The code of a refusal. -/
def Refusal.code : Refusal → String
  | .missingType => "missing-type"
  | .implicitInt => "implicit-int"
  | .unbalancedTemplate => "unbalanced-template"
  | .splitAngle => "split-angle"
  | .extentTooLong => "extent-too-long"

/-- A refusal in words. -/
def Refusal.message : Refusal → String
  | .missingType => "no type follows the qualifier"
  | .implicitInt => "declaration without a type (implicit int)"
  | .unbalancedTemplate => "template argument list is not closed"
  | .splitAngle => "closing `>>` is shared with an enclosing template argument list"
  | .extentTooLong => "type is too long to scan"

/-- The indices of the first and the last token of a type. -/
structure TypeExtent where
  first : Nat
  last : Nat
  deriving DecidableEq, Repr

namespace TypeExtent

/-- The significant tokens before the index `stop`, with their indices, the first token having a
given index. -/
def significantFrom (stop : Nat) : (index : Nat) → List Token → List (Token × Nat)
  | _, [] => []
  | index, t :: rest =>
    if stop ≤ index then []
    else if t.isSignificant then (t, index) :: significantFrom stop (index + 1) rest
    else significantFrom stop (index + 1) rest

/-- The significant tokens from one index to before another, with their indices. -/
def significantBetween (tokens : List Token) (start stop : Nat) : List (Token × Nat) :=
  significantFrom stop start (tokens.drop start)

/-- The last index of a run of fundamental type words that has come to an index. -/
def builtinRun (last : Nat) : List (Token × Nat) → Nat
  | [] => last
  | (t, i) :: rest => if t.isBuiltinType then builtinRun i rest else last

/-- The index of the parenthesis that closes `depth` open ones. -/
def operandEnd : (budget depth : Nat) → List (Token × Nat) → Except Refusal Nat
  | _, _, [] => .error .missingType
  | 0, _, _ :: _ => .error .extentTooLong
  | budget + 1, depth, (t, i) :: rest =>
    match t.mark? with
    | some .parenOpen => operandEnd budget (depth + 1) rest
    | some .parenClose => if depth ≤ 1 then .ok i else operandEnd budget (depth - 1) rest
    | some .semicolon | some .braceOpen | some .braceClose => .error .missingType
    | _ => operandEnd budget depth rest

/-- The brackets that are open in a template argument list. -/
structure Depths where
  angles : Nat
  parens : Nat := 0
  squares : Nat := 0
  deriving DecidableEq, Repr

/-- What a token does to a template argument list. -/
inductive Arguments where
  /-- The list goes on. -/
  | more (depths : Depths)
  /-- The token closes the list. -/
  | closed
  /-- The list cannot be closed. -/
  | refused (refusal : Refusal)
  deriving DecidableEq, Repr

/-- Takes a template argument list over one token. Angle brackets count only outside parentheses and
square brackets. -/
def Depths.after (d : Depths) (t : Token) : Arguments :=
  match t.mark? with
  | some .semicolon | some .braceOpen | some .braceClose => .refused .unbalancedTemplate
  | some .parenOpen => .more { d with parens := d.parens + 1 }
  | some .squareOpen => .more { d with squares := d.squares + 1 }
  | some .parenClose =>
    if d.parens = 0 then .refused .unbalancedTemplate else .more { d with parens := d.parens - 1 }
  | some .squareClose =>
    if d.squares = 0 then .refused .unbalancedTemplate
    else .more { d with squares := d.squares - 1 }
  | m =>
    if 0 < d.parens ∨ 0 < d.squares then .more d
    else
      match m with
      | some .less => .more { d with angles := d.angles + 1 }
      | some .greater => if d.angles ≤ 1 then .closed else .more { d with angles := d.angles - 1 }
      | some .greaterGreater =>
        if d.angles ≤ 1 then .refused .splitAngle
        else if d.angles = 2 then .closed
        else .more { d with angles := d.angles - 2 }
      | _ => .more d

/-- Where the reading of a name stands. -/
inductive NameState where
  /-- Nothing has been read. -/
  | start
  /-- A scope mark has been read, and a component has to follow. -/
  | component
  /-- The word `template` has been read, and an identifier has to follow. -/
  | templated
  /-- An identifier has been read. -/
  | identifier
  /-- A template argument list is being read. -/
  | arguments (depths : Depths)
  /-- A template argument list has been read. -/
  | argued
  deriving DecidableEq, Repr

/-- The name of a type. -/
structure Name where
  /-- The index of its last token. -/
  last : Nat
  /-- Whether it has neither scopes nor template arguments. -/
  simple : Bool
  /-- The tokens after those that have been read. -/
  rest : List (Token × Nat)
  deriving DecidableEq, Repr

/-- Reads a name on from a state. The components read so far end at the index `last?`, and they are
a name by themselves if what follows does not go on with one: in `Foo::*` the name is `Foo`. -/
def name? : (budget : Nat) → (state : NameState) → (last? : Option Nat) → (simple : Bool) →
    List (Token × Nat) → Except Refusal (Option Name)
  | _, .arguments _, _, _, [] => .error .unbalancedTemplate
  | _, .start, last?, _, [] | _, .component, last?, _, [] | _, .templated, last?, _, [] =>
    .ok (last?.map (⟨·, false, []⟩))
  | _, .identifier, last?, simple, [] | _, .argued, last?, simple, [] =>
    .ok (last?.map (⟨·, simple, []⟩))
  | budget, .identifier, last?, simple, (t, i) :: rest =>
    if t.isMark .less then
      match budget with
      | 0 => .error .extentTooLong
      | budget + 1 => name? budget (.arguments { angles := 1 }) last? false rest
    else if t.isMark .scope then
      match budget with
      | 0 => .error .extentTooLong
      | budget + 1 => name? budget .component last? false rest
    else .ok (last?.map (⟨·, simple, (t, i) :: rest⟩))
  | budget, .argued, last?, simple, (t, i) :: rest =>
    if t.isMark .scope then
      match budget with
      | 0 => .error .extentTooLong
      | budget + 1 => name? budget .component last? false rest
    else .ok (last?.map (⟨·, simple, (t, i) :: rest⟩))
  | 0, _, _, _, _ :: _ => .error .extentTooLong
  | budget + 1, .arguments depths, last?, simple, (t, i) :: rest =>
    match depths.after t with
    | .more depths => name? budget (.arguments depths) last? simple rest
    | .closed => name? budget .argued (some i) simple rest
    | .refused refusal => .error refusal
  | budget + 1, state, last?, simple, (t, i) :: rest =>
    if state = .start ∧ t.isMark .scope then name? budget .component last? false rest
    else if state ≠ .templated ∧ t.isKeyword "template" then
      name? budget .templated last? simple rest
    else if t.kind = .identifier then name? budget .identifier (some i) simple rest
    else .ok (last?.map (⟨·, false, rest⟩))

/-- Whether a declaration goes on after a lone name as if the name were what it declares. -/
def impliesInt (rest : List (Token × Nat)) : Bool :=
  rest.head?.any fun (t, _) => t.isMark .equals || t.isMark .semicolon

/-- The extent of a type that is a name read from a token on. -/
def ofName (first : Nat) : Except Refusal (Option Name) → Except Refusal TypeExtent
  | .ok (some name) => .ok ⟨first, name.last⟩
  | .ok none => .error .missingType
  | .error refusal => .error refusal

/-- The extent of a type that is a name by itself. -/
def ofPlainName (first : Nat) : Except Refusal (Option Name) → Except Refusal TypeExtent
  | .ok (some name) =>
    if name.simple && impliesInt name.rest then .error .implicitInt else .ok ⟨first, name.last⟩
  | .ok none => .error .missingType
  | .error refusal => .error refusal

/-- The extent of a type that starts with `decltype`, which has been read. -/
def ofDecltype (first : Nat) : (budget : Nat) → List (Token × Nat) → Except Refusal TypeExtent
  | _, [] => .error .missingType
  | 0, _ :: _ => .error .extentTooLong
  | budget + 1, (t, _) :: rest =>
    if t.isMark .parenOpen then (operandEnd budget 1 rest).map (⟨first, ·⟩)
    else .error .missingType

/-- The extent of the type that starts a sequence of significant tokens. Each token that is read
costs one unit of the budget, words of fundamental types after the first apart. -/
def scan : (budget : Nat) → List (Token × Nat) → Except Refusal TypeExtent
  | _, [] => .error .missingType
  | 0, _ :: _ => .error .extentTooLong
  | budget + 1, (t, i) :: rest =>
    if t.kind = .keyword ∧ Vocabulary.isElaborator t.text then
      ofName i (name? budget .start none true rest)
    else if t.isBuiltinType then .ok ⟨i, builtinRun i rest⟩
    else if t.isKeyword "decltype" then ofDecltype i budget rest
    else ofPlainName i (name? (budget + 1) .start none true ((t, i) :: rest))

/-- The extent of the type that starts at an index and ends before another. -/
def find (budget : Nat) (tokens : List Token) (start boundary : Nat) : Except Refusal TypeExtent :=
  scan budget (significantBetween tokens start boundary)

end TypeExtent

end EastConst
