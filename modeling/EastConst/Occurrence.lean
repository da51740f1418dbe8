import EastConst.Directive
import EastConst.Nesting
import EastConst.Options

/-!
# Occurrences of qualifiers

A walk over the tokens of a source finds every `const` and `volatile` and its role. `Walk` is what
the walk remembers, `Walk.step` takes it over one token. A directive is stepped over as a whole; the
body of a macro is walked like the start of a declaration, with the open brackets around it still on
the stack.
-/

namespace EastConst

/-- A qualifier in a token sequence. -/
structure Occurrence where
  /-- The index of the qualifier. -/
  index : Nat
  qualifier : Qualifier
  role : Role
  /-- The index of the first token that its type cannot reach. -/
  boundary : Nat
  deriving DecidableEq, Repr

/-- What a walk over tokens remembers. -/
structure Walk where
  /-- The open brackets. -/
  nesting : Nesting := {}
  /-- What the next qualifier is told about the token before it. -/
  preceding : Preceding := .start
  /-- The last significant token. -/
  last : Option Token := none
  /-- How many brackets were open where the trailing return type that is being walked starts. -/
  trailingReturn : Option Nat := none
  deriving DecidableEq, Repr

namespace Walk

/-- Whether the last significant token is a given mark. -/
def lastIsMark (w : Walk) (m : Mark) : Bool :=
  w.last.any (·.isMark m)

/-- Whether the last significant token is a given reserved word. -/
def lastIsKeyword (w : Walk) (word : String) : Bool :=
  w.last.any (·.isKeyword word)

/-- Whether qualifiers are not moved here. -/
def isSuppressed (w : Walk) : Bool :=
  w.nesting.isSuppressed || w.trailingReturn.isSome

/-- The role of a qualifier here. -/
def role (w : Walk) : Role :=
  .decide w.preceding w.isSuppressed

/-- Whether a mark ends a trailing return type that started at a depth. -/
def endsTrailingReturn (start depth : Nat) : Option Mark → Bool
  | some .semicolon => true
  | some .braceOpen | some .braceClose | some .equals | some .comma | some .parenClose
  | some .squareClose => depth ≤ start
  | _ => false

/-- The walk with its trailing return type ended, if the mark that comes next ends it. -/
def endTrailingReturn (w : Walk) (m : Option Mark) : Walk :=
  match w.trailingReturn with
  | some start =>
    if endsTrailingReturn start w.nesting.depth m then { w with trailingReturn := none } else w
  | none => w

/-- Whether a `<` after a token can open an angle bracket. -/
def opensAngle (t : Token) : Bool :=
  t.kind == .identifier ||
    t.kind == .keyword && (t.text == "template".toList || Vocabulary.isCast t.text)

/-- What a qualifier is told after an angle bracket, if one was closed. -/
def afterAngle : Option Bracket → Preceding
  | some (.angle true) => .headerClose
  | some _ => .typeName
  | none => .other

/-- The walk after a punctuator, which is a mark or none. -/
def punctuate (w : Walk) (m : Option Mark) : Walk :=
  let w := w.endTrailingReturn m
  match m with
  | some .parenOpen =>
    { w with nesting := w.nesting.push (.paren (w.lastIsKeyword "decltype")), preceding := .opener }
  | some .squareOpen => { w with nesting := w.nesting.push .square, preceding := .other }
  | some .braceOpen => { w with nesting := w.nesting.dropAngles.push .brace, preceding := .opener }
  | some .parenClose => { w with nesting := w.nesting.closeParen, preceding := .parenClose }
  | some .squareClose =>
    { w with
      nesting := w.nesting.closeSquare
      preceding := if w.lastIsMark .squareClose then .attributeClose else .other }
  | some .braceClose => { w with nesting := w.nesting.closeBrace, preceding := .separator }
  | some .semicolon => { w with nesting := w.nesting.dropAngles, preceding := .separator }
  | some .comma | some .equals | some .colon | some .question => { w with preceding := .separator }
  | some .less =>
    if w.last.any opensAngle then
      { w with
        nesting := w.nesting.push (.angle (w.lastIsKeyword "template"))
        preceding := .opener }
    else { w with preceding := .other }
  | some .greater =>
    let (closed, nesting) := w.nesting.closeAngle
    { w with nesting, preceding := afterAngle closed }
  | some .greaterGreater =>
    let (inner, nesting) := w.nesting.closeAngle
    let (outer, nesting) := nesting.closeAngle
    { w with nesting, preceding := afterAngle (outer <|> inner) }
  | some .star | some .ampersand | some .ampersands => { w with preceding := .declarator }
  | some .arrow =>
    { w with
      trailingReturn :=
        if w.lastIsMark .parenClose && w.trailingReturn.isNone then some w.nesting.depth
        else w.trailingReturn
      preceding := .arrow }
  | some .hash | some .scope | none => { w with preceding := .other }

/-- What a qualifier is told after a reserved word. -/
def afterKeyword (word : List Char) : Preceding :=
  if Vocabulary.isBuiltinType word then .typeName
  else if Vocabulary.isSpecifier word || word == "operator".toList || word == "new".toList then
    .specifier
  else .other

/-- The walk after a significant token that is no qualifier. -/
def advance (options : Options) (w : Walk) (t : Token) : Walk :=
  match t.kind with
  | .punctuation => w.punctuate t.mark?
  | .identifier =>
    { w with preceding := if options.isDeclMacro t.text then .specifier else .typeName }
  | .keyword => { w with preceding := afterKeyword t.text }
  | .literal =>
    let linkage := t.text.head? == some '"' && w.lastIsKeyword "extern"
    { w with preceding := if linkage then .specifier else .other }
  | _ => { w with preceding := .other }

/-- The walk after a token. Whitespace and comments change nothing. -/
def step (options : Options) (w : Walk) (t : Token) : Walk :=
  if t.isSignificant then
    match Qualifier.ofToken? t with
    | some _ => { w with preceding := .qualifier w.role, last := some t }
    | none => { w.advance options t with last := some t }
  else w

/-- The walk after tokens outside directives. -/
def run (options : Options) (w : Walk) (tokens : List Token) : Walk :=
  tokens.foldl (step options) w

/-- The walk at the start of a macro's body. -/
def enterBody (w : Walk) : Walk :=
  { w with preceding := .start, last := none, trailingReturn := none }

/-- The walk after a directive, of which a macro's body is walked. Only the open brackets can differ
from those before it. -/
def directive (options : Options) (w : Walk) (tokens : List Token) : Walk :=
  match macroBody? tokens with
  | none => w
  | some body =>
    { w with nesting := (w.enterBody.run options body).nesting.truncate w.nesting.depth }

/-- The walk after a segment. -/
def segment (options : Options) (w : Walk) : Segment → Walk
  | .token t => w.step options t
  | .directive tokens => w.directive options tokens

end Walk

/-- The qualifiers in tokens outside directives, the first token having an index. -/
def occurrencesIn (options : Options) (boundary : Nat) :
    (w : Walk) → (index : Nat) → List Token → List Occurrence
  | _, _, [] => []
  | w, index, t :: rest =>
    let later := occurrencesIn options boundary (w.step options t) (index + 1) rest
    match Qualifier.ofToken? t with
    | some qualifier => ⟨index, qualifier, w.role, boundary⟩ :: later
    | none => later

/-- The qualifiers in the macro's body that a directive defines, the directive's first token having
an index. -/
def occurrencesInDirective (options : Options) (w : Walk) (index : Nat) (directive : List Token) :
    List Occurrence :=
  match macroBody? directive with
  | none => []
  | some body =>
    let stop := index + directive.length
    occurrencesIn options stop w.enterBody (stop - body.length) body

/-- The qualifiers in segments, the first token having an index. -/
def occurrencesInSegments (options : Options) (boundary : Nat) :
    (w : Walk) → (index : Nat) → List Segment → List Occurrence
  | _, _, [] => []
  | w, index, s :: rest =>
    let found :=
      match s with
      | .token t => occurrencesIn options boundary w index [t]
      | .directive tokens => occurrencesInDirective options w index tokens
    found ++
      occurrencesInSegments options boundary (w.segment options s) (index + s.tokens.length) rest

/-- The qualifiers in a token sequence, with their roles. -/
def occurrences (options : Options) (tokens : List Token) : List Occurrence :=
  occurrencesInSegments options (tokens.length - 1) {} 0 (segments tokens)

end EastConst
