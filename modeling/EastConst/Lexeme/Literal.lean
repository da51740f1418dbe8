import EastConst.Lexeme
import EastConst.Text.Utf8

/-!
# Literals

Strings and characters with their escapes, raw strings with their delimiters, and preprocessing
numbers. The lengths here start after the opening quote.
-/

namespace EastConst.Lexeme

namespace Quoted

/-- The length of a quoted literal after its opening quote, and whether it is closed. A backslash
takes the next character with it, or both characters of the line break `\r\n`. Any other line break
ends the literal and stays outside it. -/
def bodyLength (quote : Char) : List Char → Nat × Bool
  | [] => (0, false)
  | '\\' :: '\r' :: '\n' :: text => let (n, closed) := bodyLength quote text; (n + 3, closed)
  | '\\' :: _ :: text => let (n, closed) := bodyLength quote text; (n + 2, closed)
  | '\r' :: '\n' :: _ => (0, false)
  | '\n' :: _ => (0, false)
  | c :: text =>
    if c = quote then (1, true)
    else let (n, closed) := bodyLength quote text; (n + 1, closed)

end Quoted

namespace Raw

/-- The longest delimiter, in bytes. -/
def maxDelimiter : Nat := 16

/-- Whether a character may stand in a delimiter. -/
def isDelimiter (c : Char) : Bool :=
  !([' ', ')', '\\', '\t', '\n', '\r', '"'].contains c)

/-- The length of a text up to the end of the first occurrence of `closing` in it. -/
def lengthThrough? (closing : List Char) : List Char → Option Nat
  | [] => none
  | c :: text =>
    if closing.isPrefixOf (c :: text) then some closing.length
    else (lengthThrough? closing text).map (· + 1)

/-- The length of a raw string after its opening quote, and whether it is closed. Without a proper
delimiter the literal is the opening alone; without its closing it takes the rest of the text. -/
def bodyLength (text : List Char) : Nat × Bool :=
  let delimiter := text.takeWhile (· != '(')
  match text.drop delimiter.length with
  | [] => (0, false)
  | opening :: body =>
    if Utf8.byteLength delimiter ≤ maxDelimiter && delimiter.all isDelimiter then
      match lengthThrough? (')' :: delimiter ++ ['"']) body with
      | some n => (delimiter.length + 1 + n, true)
      | none => (delimiter.length + (opening :: body).length, false)
    else (0, false)

end Raw

namespace Number

/-- Whether a character may stand after a digit separator. -/
def isDigitLike (c : Char) : Bool :=
  c.isAlphanum || c == '_'

/-- Whether a sign may follow a character. -/
def isExponent (c : Char) : Bool :=
  c == 'e' || c == 'E' || c == 'p' || c == 'P'

/-- Whether a character is a sign. -/
def isSign (c : Char) : Bool :=
  c == '+' || c == '-'

/-- The length of what continues a number after its first digit. -/
def tailLength : List Char → Nat
  | [] => 0
  | [c] => if isDigitLike c || c == '.' then 1 else 0
  | c :: d :: text =>
    if c == '\'' then if isDigitLike d then tailLength text + 2 else 0
    else if isExponent c && isSign d then tailLength text + 2
    else if isDigitLike c || c == '.' then tailLength (d :: text) + 1
    else 0

/-- The length of the number at the start of a text, zero if there is none. -/
def length : List Char → Nat
  | '.' :: d :: text => if d.isDigit then tailLength text + 2 else 0
  | d :: text => if d.isDigit then tailLength text + 1 else 0
  | [] => 0

end Number

/-- The words that may stand right before an opening quote. -/
def encodings : List (List Char) :=
  [[], ['u', '8'], ['u'], ['U'], ['L']]

/-- The literal that starts with `word` and a quote right after it, `rest` being the text after the
word. -/
def literal? (word rest : List Char) : Option Extent :=
  match rest with
  | '"' :: body =>
    if encodings.contains word then
      let (n, closed) := Quoted.bodyLength '"' body
      some ⟨.string, word.length + 1 + n, closed⟩
    else if encodings.any (· ++ ['R'] == word) then
      let (n, closed) := Raw.bodyLength body
      some ⟨.rawString, word.length + 1 + n, closed⟩
    else none
  | '\'' :: body =>
    if encodings.contains word then
      let (n, closed) := Quoted.bodyLength '\'' body
      some ⟨.character, word.length + 1 + n, closed⟩
    else none
  | _ => none

end EastConst.Lexeme
