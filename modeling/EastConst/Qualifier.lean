import EastConst.Token

/-!
# Qualifiers and their roles

A `const` or `volatile` leads a type, trails one, or is to be left alone. Its role depends on two
things only: what kind of significant token stands right before it, and whether it is in a region
where qualifiers are never moved. `Role.decide` is the whole table.
-/

namespace EastConst

/-- A qualifier that can be moved. -/
inductive Qualifier where
  | const | volatile
  deriving DecidableEq, Repr

namespace Qualifier

/-- The word of a qualifier. -/
def text : Qualifier → List Char
  | .const => ['c', 'o', 'n', 's', 't']
  | .volatile => ['v', 'o', 'l', 'a', 't', 'i', 'l', 'e']

/-- The word of a qualifier, as a string. -/
def name (q : Qualifier) : String := String.ofList q.text

/-- The qualifier with a word. -/
def ofText? (text : List Char) : Option Qualifier :=
  if text = Qualifier.const.text then some .const
  else if text = Qualifier.volatile.text then some .volatile
  else none

/-- The qualifier that a token is. -/
def ofToken? (t : Token) : Option Qualifier :=
  if t.kind = .keyword then ofText? t.text else none

end Qualifier

/-- The part that a qualifier plays where it stands. -/
inductive Role where
  /-- Stands before the type it belongs to. -/
  | leading
  /-- Stands after the type it belongs to, or qualifies a member function. -/
  | trailing
  /-- Stands where no rule says what it belongs to. -/
  | ignored
  deriving DecidableEq, Repr

/-- The name of a role. -/
def Role.name : Role → String
  | .leading => "leading-type-qualifier"
  | .trailing => "trailing-qualifier"
  | .ignored => "ignored"

/-- What a qualifier is told about the significant token before it. -/
inductive Preceding where
  /-- There is none: the start of the source or of a macro's body. -/
  | start
  /-- A parenthesis, a brace or an angle bracket that opens. -/
  | opener
  /-- A comma, semicolon, closing brace, equals sign, colon or question mark. -/
  | separator
  /-- A declaration specifier, `operator`, `new`, a configured macro, the string of `extern "C"`. -/
  | specifier
  /-- The angle bracket that closes a template header. -/
  | headerClose
  /-- The second bracket that closes an attribute. -/
  | attributeClose
  /-- A closing parenthesis. -/
  | parenClose
  /-- A name, a fundamental type, or the angle bracket that closes template arguments. -/
  | typeName
  /-- A pointer or reference mark. -/
  | declarator
  /-- Another qualifier, with its role. -/
  | qualifier (role : Role)
  /-- An arrow. -/
  | arrow
  /-- Anything else. -/
  | other
  deriving DecidableEq, Repr

/-- The name of what stands before, without the role of a qualifier. -/
def Preceding.name : Preceding → String
  | .start => "start"
  | .opener => "opener"
  | .separator => "separator"
  | .specifier => "decl-specifier"
  | .headerClose => "template-header-close"
  | .attributeClose => "attribute-close"
  | .parenClose => "close-paren"
  | .typeName => "type-name"
  | .declarator => "declarator"
  | .qualifier role => "qualifier:" ++ role.name
  | .arrow => "trailing-return"
  | .other => "other"

/-- All values of what can stand before a qualifier. -/
def Preceding.all : List Preceding :=
  [.start, .opener, .separator, .specifier, .headerClose, .attributeClose, .parenClose, .typeName,
   .declarator, .qualifier .leading, .qualifier .trailing, .qualifier .ignored, .arrow, .other]

/-- What stands before a qualifier, by its name. -/
def Preceding.ofName? (name : String) : Option Preceding :=
  Preceding.all.find? (·.name == name)

/-- The role of a qualifier after `preceding`, in a region that is `suppressed` or not. -/
def Role.decide (preceding : Preceding) (suppressed : Bool) : Role :=
  if suppressed then .ignored
  else
    match preceding with
    | .start | .opener | .separator | .specifier | .headerClose | .attributeClose => .leading
    | .parenClose | .typeName | .declarator => .trailing
    | .qualifier role => role
    | .arrow | .other => .ignored

end EastConst
