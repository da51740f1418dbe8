/-!
# Blank characters

The characters with the Unicode property `White_Space`. A replacement for white space has to consist
of them. The set is not the lexer's: a byte order mark and a backslash may stand in a whitespace
lexeme and are not blank, and a no-break space is blank and reads as a letter.
-/

namespace EastConst

/-- The ranges of the property `White_Space`, ends included. -/
def blankRanges : List (Nat × Nat) :=
  [(0x09, 0x0D), (0x20, 0x20), (0x85, 0x85), (0xA0, 0xA0), (0x1680, 0x1680), (0x2000, 0x200A),
   (0x2028, 0x2029), (0x202F, 0x202F), (0x205F, 0x205F), (0x3000, 0x3000)]

/-- Whether a character is white space in Unicode. -/
def isBlank (c : Char) : Bool :=
  blankRanges.any fun (first, last) => first ≤ c.toNat && c.toNat ≤ last

end EastConst
