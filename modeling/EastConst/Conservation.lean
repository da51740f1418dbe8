import EastConst.Qualifier
import EastConst.Token.Stream

/-!
# What is conserved

Two views of a source that a relocation must not change: the texts of its significant tokens without
their order, and its tokens in order without whitespace and qualifiers.
-/

namespace EastConst

/-- Whether a text comes before another, or is the same, in the order of a dictionary. -/
def inOrder : List Char → List Char → Bool
  | [], _ => true
  | _ :: _, [] => false
  | a :: left, b :: right => if a = b then inOrder left right else a.toNat < b.toNat

/-- The texts of the significant tokens of a source, in ascending order. -/
def significantTexts (source : List Char) : List (List Char) :=
  (((tokens source).filter Token.isSignificant).map Token.text).mergeSort inOrder

/-- The texts of the tokens of a source that are neither whitespace nor a movable qualifier, with
one space between them. The end of the input counts as a token with no text. -/
def stripped (source : List Char) : List Char :=
  let kept := (tokens source).filter fun t =>
    t.kind != .whitespace && (Qualifier.ofToken? t).isNone
  [' '].intercalate (kept.map Token.text)

end EastConst
