import EastConst.Settings.Value
import EastConst.Text.Decimal

/-!
# TOML scalars

Strings, numbers, truth values and dates. Each reader takes a text and gives what it has read with
the text that follows, or `none` if the text does not start with a valid scalar of its kind.
-/

namespace EastConst.Settings.Toml

/-! ## Characters -/

/-- Whether a character is a blank on a line. -/
def isBlank (c : Char) : Bool := c == ' ' || c == '\t'

/-- Whether a character may stand in a comment or a string. -/
def isText (c : Char) : Bool :=
  c == '\t' || (0x20 ≤ c.toNat && c.toNat != 0x7F)

/-- A line break at the start of a text. -/
def newline? : List Char → Option (List Char)
  | '\n' :: rest => some rest
  | '\r' :: '\n' :: rest => some rest
  | _ => none

/-- The value of a digit, which may be a letter. What is no digit has the value 36. -/
def digitValue (c : Char) : Nat :=
  if c.isDigit then c.toNat - '0'.toNat
  else if c.isLower then c.toNat - 'a'.toNat + 10
  else if c.isUpper then c.toNat - 'A'.toNat + 10
  else 36

/-- Whether a character is a digit in a base. -/
def isDigitIn (base : Nat) (c : Char) : Bool := digitValue c < base

/-- The number that digits spell in a base. -/
def ofDigits (base : Nat) (digits : List Char) : Nat :=
  digits.foldl (fun n c => n * base + digitValue c) 0

/-! ## Strings -/

/-- The character with a code that is written with a number of hexadecimal digits. -/
def codePoint? (count : Nat) (text : List Char) : Option (Char × List Char) :=
  let digits := text.take count
  let code := ofDigits 16 digits
  if digits.length = count ∧ digits.all (isDigitIn 16) ∧ code.isValidChar then
    some (Char.ofNat code, text.drop count)
  else none

/-- The character that an escape stands for, after its backslash. -/
def escape? : List Char → Option (Char × List Char)
  | 'b' :: rest => some ('\x08', rest)
  | 't' :: rest => some ('\t', rest)
  | 'n' :: rest => some ('\n', rest)
  | 'f' :: rest => some ('\x0C', rest)
  | 'r' :: rest => some ('\r', rest)
  | '"' :: rest => some ('"', rest)
  | '\\' :: rest => some ('\\', rest)
  | 'u' :: rest => codePoint? 4 rest
  | 'U' :: rest => codePoint? 8 rest
  | _ => none

/-- What has been read, with a character before it. -/
def prepend (c : Char) (read : Option (List Char × List Char)) : Option (List Char × List Char) :=
  read.map fun (text, rest) => (c :: text, rest)

/-- A string on one line, after its opening quote. Escapes are read if `escapes` says so. -/
def lineBody (quote : Char) (escapes : Bool) :
    (fuel : Nat) → List Char → Option (List Char × List Char)
  | 0, _ => none
  | _ + 1, [] => none
  | fuel + 1, c :: text =>
    if c == quote then some ([], text)
    else if escapes && c == '\\' then do
      let (escaped, rest) ← escape? text
      prepend escaped (lineBody quote escapes fuel rest)
    else if isText c then prepend c (lineBody quote escapes fuel text)
    else none

/-- The text after blanks and line breaks. -/
def skipGaps : List Char → List Char
  | [] => []
  | '\r' :: '\n' :: text => skipGaps text
  | c :: text => if isBlank c || c == '\n' then skipGaps text else c :: text

/-- The text after blanks and a line break that a backslash continues, and after all blanks and line
breaks that follow. -/
def continuation? (text : List Char) : Option (List Char) :=
  (newline? (text.dropWhile isBlank)).map skipGaps

/-- A string over several lines, after its opening quotes. A run of three quotes or more ends it,
and up to two of them that come first belong to it. -/
def blockBody (quote : Char) (escapes : Bool) :
    (fuel : Nat) → List Char → Option (List Char × List Char)
  | 0, _ => none
  | _ + 1, [] => none
  | fuel + 1, c :: text =>
    if c == quote then
      let run := ((c :: text).takeWhile (· == quote)).length
      if 3 ≤ run then
        let kept := min (run - 3) 2
        some (List.replicate kept quote, (c :: text).drop (kept + 3))
      else prepend c (blockBody quote escapes fuel text)
    else if escapes && c == '\\' then
      match continuation? text with
      | some rest => blockBody quote escapes fuel rest
      | none => do
        let (escaped, rest) ← escape? text
        prepend escaped (blockBody quote escapes fuel rest)
    else
      match newline? (c :: text) with
      | some rest => prepend '\n' (blockBody quote escapes fuel rest)
      | none => if isText c then prepend c (blockBody quote escapes fuel text) else none

/-- A string at the start of a text. A line break right after the opening of a string over several
lines does not belong to it. -/
def string? (text : List Char) : Option (String × List Char) :=
  let read :=
    match text with
    | '"' :: '"' :: '"' :: body => blockBody '"' true (body.length + 1) ((newline? body).getD body)
    | '\'' :: '\'' :: '\'' :: body =>
      blockBody '\'' false (body.length + 1) ((newline? body).getD body)
    | '"' :: body => lineBody '"' true (body.length + 1) body
    | '\'' :: body => lineBody '\'' false (body.length + 1) body
    | _ => none
  read.map fun (s, rest) => (String.ofList s, rest)

/-! ## Numbers -/

/-- Digits at the start of a text, with single underscores between them. The underscores are left
out. -/
def digitGroup (isDigit : Char → Bool) : List Char → List Char × List Char
  | '_' :: c :: text =>
    if isDigit c then
      let (digits, rest) := digitGroup isDigit text
      (c :: digits, rest)
    else ([], '_' :: c :: text)
  | c :: text =>
    if isDigit c then
      let (digits, rest) := digitGroup isDigit text
      (c :: digits, rest)
    else ([], c :: text)
  | [] => ([], [])

/-- One digit or more, with single underscores between them. -/
def digits? (isDigit : Char → Bool) : List Char → Option (List Char × List Char)
  | [] => none
  | c :: text =>
    if isDigit c then
      let (digits, rest) := digitGroup isDigit text
      some (c :: digits, rest)
    else none

/-- The digits of a decimal integer without a sign. None but a single one starts with zero. -/
def wholeDigits? : List Char → Option (List Char × List Char)
  | '0' :: rest => some (['0'], rest)
  | text => digits? Char.isDigit text

/-- An integer at the start of a text. -/
def integer? (text : List Char) : Option (Int × List Char) :=
  let based (base : Nat) (text : List Char) := do
    let (digits, rest) ← digits? (isDigitIn base) text
    let n := Int.ofNat (ofDigits base digits)
    if Decimal.fitsWord n then some (n, rest) else none
  match text with
  | '0' :: 'x' :: rest => based 16 rest
  | '0' :: 'o' :: rest => based 8 rest
  | '0' :: 'b' :: rest => based 2 rest
  | text => do
    let (negative, rest) := Decimal.sign text
    let (digits, rest) ← wholeDigits? rest
    let magnitude := Int.ofNat (Decimal.ofDigits digits)
    let n := if negative then -magnitude else magnitude
    if Decimal.fitsWord n then some (n, rest) else none

/-- The exponent of a floating-point number at the start of a text. -/
def exponent? : List Char → Option (Int × List Char)
  | c :: text =>
    if c == 'e' || c == 'E' then do
      let (negative, rest) := Decimal.sign text
      let (digits, rest) ← digits? Char.isDigit rest
      let n := Int.ofNat (Decimal.ofDigits digits)
      some (if negative then -n else n, rest)
    else none
  | [] => none

/-- A floating-point number at the start of a text. It has a point or an exponent, or is one of the
special values. -/
def float? (text : List Char) : Option (Float × List Char) :=
  let (negative, magnitude) := Decimal.sign text
  let signed (x : Float) : Float := if negative then -x else x
  match magnitude with
  | 'i' :: 'n' :: 'f' :: rest => some (signed (1 / 0), rest)
  | 'n' :: 'a' :: 'n' :: rest => some (signed (0 / 0), rest)
  | _ => do
    let (whole, rest) ← wholeDigits? magnitude
    let (fraction, exponent, rest) ←
      match rest with
      | '.' :: rest => do
        let (fraction, rest) ← digits? Char.isDigit rest
        match rest.head? with
        | some 'e' | some 'E' => do
          let (exponent, rest) ← exponent? rest
          some (fraction, exponent, rest)
        | _ => some (fraction, 0, rest)
      | rest => do
        let (exponent, rest) ← exponent? rest
        some ([], exponent, rest)
    let x := signed (Decimal.toFloat (Decimal.ofDigits (whole ++ fraction))
      (exponent - fraction.length))
    if x == 1 / 0 then none else some (x, rest)

/-! ## Dates and times -/

/-- A number of a given count of digits, in a range. -/
def field? (count low high : Nat) (text : List Char) : Option (Nat × List Char) :=
  let digits := text.take count
  let n := Decimal.ofDigits digits
  if digits.length = count ∧ digits.all Char.isDigit ∧ low ≤ n ∧ n ≤ high then
    some (n, text.drop count)
  else none

/-- A given character at the start of a text. -/
def skip? (c : Char) : List Char → Option (List Char)
  | d :: rest => if d == c then some rest else none
  | [] => none

/-- A number, filled with zeros on the left. -/
def filled (width n : Nat) : String :=
  let digits := Nat.toDigits 10 n
  String.ofList (List.replicate (width - digits.length) '0' ++ digits)

/-- The number of days in a month. -/
def daysIn (year month : Nat) : Nat :=
  if month = 2 then
    if year % 4 = 0 ∧ (year % 100 ≠ 0 ∨ year % 400 = 0) then 29 else 28
  else if month = 4 ∨ month = 6 ∨ month = 9 ∨ month = 11 then 30
  else 31

/-- A date, written again. -/
def date? (text : List Char) : Option (String × List Char) := do
  let (year, text) ← field? 4 0 9999 text
  let text ← skip? '-' text
  let (month, text) ← field? 2 1 12 text
  let text ← skip? '-' text
  let (day, text) ← field? 2 1 (daysIn year month) text
  some (filled 4 year ++ "-" ++ filled 2 month ++ "-" ++ filled 2 day, text)

/-- A time of day, written again. Of the fraction of a second nine places count. -/
def time? (text : List Char) : Option (String × List Char) := do
  let (hour, text) ← field? 2 0 23 text
  let text ← skip? ':' text
  let (minute, text) ← field? 2 0 59 text
  let text ← skip? ':' text
  let (second, text) ← field? 2 0 60 text
  let clock := filled 2 hour ++ ":" ++ filled 2 minute ++ ":" ++ filled 2 second
  match text with
  | '.' :: rest =>
    let digits := rest.takeWhile Char.isDigit
    if digits.isEmpty then none
    else
      let kept := ((digits.take 9).reverse.dropWhile (· == '0')).reverse
      let fraction := if kept.isEmpty then "" else "." ++ String.ofList kept
      some (clock ++ fraction, rest.drop digits.length)
  | text => some (clock, text)

/-- An offset from universal time, written again. -/
def zone? (text : List Char) : Option (String × List Char) :=
  match text with
  | 'Z' :: rest | 'z' :: rest => some ("Z", rest)
  | c :: rest =>
    if c == '+' || c == '-' then do
      let (hours, rest) ← field? 2 0 23 rest
      let rest ← skip? ':' rest
      let (minutes, rest) ← field? 2 0 59 rest
      let mark := if c == '-' && 0 < hours + minutes then "-" else "+"
      some (mark ++ filled 2 hours ++ ":" ++ filled 2 minutes, rest)
    else none
  | [] => none

/-- A time with a mark before it, as it follows a date, and the offset after it. -/
def timeOfDay? : List Char → Option (String × List Char)
  | c :: text =>
    if c == 'T' || c == 't' || c == ' ' then do
      let (time, rest) ← time? text
      let (zone, rest) := (zone? rest).getD ("", rest)
      some ("T" ++ time ++ zone, rest)
    else none
  | [] => none

/-- A date, a time, or both, written again. -/
def moment? (text : List Char) : Option (String × List Char) :=
  match date? text with
  | some (date, rest) =>
    let (time, rest) := (timeOfDay? rest).getD ("", rest)
    some (date ++ time, rest)
  | none => time? text

/-! ## Scalars -/

/-- Whether a text starts like a date or a time. -/
def startsMoment (text : List Char) : Bool :=
  ((text.take 4).all Char.isDigit && text[4]? == some '-') ||
    ((text.take 2).all Char.isDigit && text[2]? == some ':')

/-- A number, a date or a time at the start of a text. -/
def number? (text : List Char) : Option (Value × List Char) :=
  if startsMoment text then (moment? text).map fun (s, rest) => (.string s, rest)
  else
    match float? text with
    | some (x, rest) => some (.float x, rest)
    | none => (integer? text).map fun (n, rest) => (.int n, rest)

/-- A scalar at the start of a text. -/
def scalar? (text : List Char) : Option (Value × List Char) :=
  match text with
  | '"' :: _ | '\'' :: _ => (string? text).map fun (s, rest) => (.string s, rest)
  | 't' :: 'r' :: 'u' :: 'e' :: rest => some (.bool true, rest)
  | 'f' :: 'a' :: 'l' :: 's' :: 'e' :: rest => some (.bool false, rest)
  | _ => number? text

end EastConst.Settings.Toml
