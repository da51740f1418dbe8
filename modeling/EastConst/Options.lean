import EastConst.Qualifier

/-!
# Options

What a caller can choose about the relocation of qualifiers.
-/

namespace EastConst

/-- How a moved qualifier is set off from the token after it. -/
inductive Spacing where
  /-- A space only before words, literals and comments: `char const* p`. -/
  | compact
  /-- A space before pointer marks and brackets too: `char const * p`. -/
  | padded
  deriving DecidableEq, Repr

/-- The name of a spacing. -/
def Spacing.name : Spacing → String
  | .compact => "compact"
  | .padded => "padded"

/-- The spacing with a name. -/
def Spacing.ofName? : String → Option Spacing
  | "compact" => some .compact
  | "padded" => some .padded
  | _ => none

/-- What a caller can choose. -/
structure Options where
  spacing : Spacing := .compact
  /-- Whether `volatile` is moved as `const` is. -/
  relocateVolatile : Bool := true
  /-- Names that act as declaration specifiers. -/
  declMacros : List (List Char) := []
  /-- How many significant tokens of a type are looked at. -/
  maxExtentTokens : Nat := 256
  deriving DecidableEq, Repr

/-- Whether a qualifier is to be moved. -/
def Options.relocates (options : Options) : Qualifier → Bool
  | .const => true
  | .volatile => options.relocateVolatile

/-- Whether a word is a configured macro. -/
def Options.isDeclMacro (options : Options) (word : List Char) : Bool :=
  options.declMacros.contains word

end EastConst
