/-!
# Substitution

Replaces all occurrences of one text in another, from left to right and without overlaps. The empty
text occurs before every character and at the end.
-/

namespace EastConst

/-- Replaces the occurrences of a text that is not empty, the first `held` characters belonging to
an occurrence that has been replaced. -/
def substituteAfter (target replacement : List Char) : (held : Nat) → List Char → List Char
  | _, [] => []
  | held + 1, _ :: text => substituteAfter target replacement held text
  | 0, c :: text =>
    if target.isPrefixOf (c :: text) then
      replacement ++ substituteAfter target replacement (target.length - 1) text
    else c :: substituteAfter target replacement 0 text

/-- Replaces all occurrences of `target` in a text. -/
def substitute (target replacement text : List Char) : List Char :=
  if target.isEmpty then replacement ++ text.flatMap (· :: replacement)
  else substituteAfter target replacement 0 text

end EastConst
