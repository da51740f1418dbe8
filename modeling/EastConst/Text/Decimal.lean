/-!
# Decimal numbers

Reads decimal numbers as floating-point values, and writes a floating-point value with the fewest
digits that read back as it, without an exponent.
-/

namespace EastConst.Decimal

/-- The floating-point value nearest to `digits * 10 ^ exponent`. -/
def toFloat (digits : Nat) (exponent : Int) : Float :=
  if digits = 0 then 0
  else
    -- The order of magnitude decides whether the value is out of range.
    let magnitude : Int := Int.ofNat (Nat.toDigits 10 digits).length + exponent
    if 310 < magnitude then 1 / 0
    else if magnitude < -330 then 0
    else if 0 ≤ exponent then Float.ofScientific digits false exponent.toNat
    else Float.ofScientific digits true (-exponent).toNat

/-- The number that digits spell. -/
def ofDigits (digits : List Char) : Nat :=
  Nat.ofDigitChars 10 digits 0

/-- An optional sign at the start of a text, and what follows it. -/
def sign (text : List Char) : Bool × List Char :=
  match text with
  | '+' :: rest => (false, rest)
  | '-' :: rest => (true, rest)
  | text => (false, text)

/-- The integer that a text spells: an optional sign and digits. -/
def int? (text : List Char) : Option Int :=
  let (negative, digits) := sign text
  if digits.isEmpty || !digits.all Char.isDigit then none
  else some (if negative then -Int.ofNat (ofDigits digits) else Int.ofNat (ofDigits digits))

/-- Whether an integer fits 64 bits with a sign. -/
def fitsWord (n : Int) : Bool :=
  -9223372036854775808 ≤ n && n ≤ 9223372036854775807

/-- The exponent that ends a number: nothing, or a mark and an integer. -/
def exponent? (text : List Char) : Option Int :=
  match text with
  | [] => some 0
  | c :: rest => if c == 'e' || c == 'E' then int? rest else none

/-- The magnitude that a text without a sign spells. There has to be a digit before or after the
point. -/
def magnitude? (text : List Char) : Option Float :=
  let whole := text.takeWhile Char.isDigit
  let rest := text.drop whole.length
  let (fraction, rest) :=
    match rest with
    | '.' :: rest =>
      let fraction := rest.takeWhile Char.isDigit
      (fraction, rest.drop fraction.length)
    | rest => ([], rest)
  if whole.isEmpty && fraction.isEmpty then none
  else (exponent? rest).map fun e => toFloat (ofDigits (whole ++ fraction)) (e - fraction.length)

/-- The floating-point value that a text spells, with or without a sign, point and exponent. -/
def float? (text : List Char) : Option Float :=
  let (negative, rest) := sign text
  let magnitude : Option Float :=
    match (String.ofList rest).toLower with
    | "inf" | "infinity" => some (1 / 0)
    | "nan" => some (0 / 0)
    | _ => magnitude? rest
  magnitude.map fun x => if negative then -x else x

/-- A finite value that is not zero, as `m * 2 ^ q`. -/
def parts (x : Float) : Nat × Int :=
  let bits := x.toBits.toNat
  -- The lower 52 bits are the fraction, and the next 11 the exponent.
  let one := 0x10000000000000
  let fraction := bits % one
  let exponent := bits / one % 0x800
  if exponent = 0 then (fraction, -1074) else (one + fraction, Int.ofNat exponent - 1075)

/-- The value `m * 2 ^ q` in units of `10 ^ exponent`, as a fraction. -/
def inUnits (m : Nat) (q exponent : Int) : Nat × Nat :=
  (m * Nat.pow 2 q.toNat * Nat.pow 10 (-exponent).toNat,
    Nat.pow 2 (-q).toNat * Nat.pow 10 exponent.toNat)

/-- The decimals with a given exponent next to a value that read back as it, the nearer one
first. -/
def candidates (x : Float) (m : Nat) (q exponent : Int) : List Nat :=
  let (above, below) := inUnits m q exponent
  let floor := above / below
  let ordered := if 2 * (above % below) ≤ below then [floor, floor + 1] else [floor + 1, floor]
  ordered.filter fun digits => 0 < digits && (toFloat digits exponent).toBits == x.toBits

/-- The greatest exponent in a range for which some decimal reads back as a value. -/
def shortestFrom (x : Float) (m : Nat) (q : Int) : (count : Nat) → (exponent : Int) → Nat × Int
  | 0, _ => (0, 0)
  | count + 1, exponent =>
    match candidates x m q exponent with
    | digits :: _ => (digits, exponent)
    | [] => shortestFrom x m q count (exponent - 1)

/-- The shortest decimal `digits * 10 ^ exponent` that reads back as a positive finite value. -/
def shortest (x : Float) : Nat × Int :=
  let (m, q) := parts x
  shortestFrom x m q 640 309

/-- A decimal written without an exponent. -/
def positional (digits : Nat) (exponent : Int) : String :=
  let text := Nat.toDigits 10 digits
  if 0 ≤ exponent then String.ofList (text ++ List.replicate exponent.toNat '0')
  else
    let places := (-exponent).toNat
    let filled := List.replicate (places + 1 - text.length) '0' ++ text
    let whole := filled.take (filled.length - places)
    String.ofList (whole ++ '.' :: filled.drop (filled.length - places))

/-- A floating-point value with the fewest digits that read back as it. -/
def ofFloat (x : Float) : String :=
  if x.isNaN then "NaN"
  else
    let sign := if x.toBits.toNat < 0x8000000000000000 then "" else "-"
    let magnitude := x.abs
    if magnitude.isInf then sign ++ "inf"
    else if magnitude == 0 then sign ++ "0"
    else
      let (digits, exponent) := shortest magnitude
      sign ++ positional digits exponent

end EastConst.Decimal
