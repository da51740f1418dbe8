import EastConst.Lexeme
import EastConst.Vocabulary

/-!
# Tokens

A token is a lexeme seen by the grammar of declarations: reserved words are told apart from names,
and all literals are alike. Whitespace and comments are tokens too, so the texts of the tokens of a
source are the source. A token carries no position: where it stands follows from the tokens before
it.

The grammar looks at few punctuators by name. They are the values of `Mark`.
-/

namespace EastConst

/-- The kinds of tokens. -/
inductive Token.Kind where
  | keyword | identifier | punctuation | literal | whitespace | comment | endOfInput
  deriving DecidableEq, Repr

/-- The name of a kind. -/
def Token.Kind.name : Token.Kind → String
  | .keyword => "keyword"
  | .identifier => "identifier"
  | .punctuation => "punctuation"
  | .literal => "literal"
  | .whitespace => "whitespace"
  | .comment => "comment"
  | .endOfInput => "end-of-input"

/-- A lexeme seen by the grammar of declarations. -/
structure Token where
  kind : Token.Kind
  text : List Char
  deriving DecidableEq, Repr

/-- The punctuators that the grammar of declarations looks at. -/
inductive Mark where
  | hash
  | parenOpen | parenClose
  | squareOpen | squareClose
  | braceOpen | braceClose
  | less | greater | greaterGreater
  | semicolon | comma | equals | colon | question
  | star | ampersand | ampersands
  | arrow | scope
  deriving DecidableEq, Repr

/-- The mark with a spelling. -/
def Mark.ofText? : List Char → Option Mark
  | ['#'] => some .hash
  | ['('] => some .parenOpen
  | [')'] => some .parenClose
  | ['['] => some .squareOpen
  | [']'] => some .squareClose
  | ['\x7b'] => some .braceOpen
  | ['\x7d'] => some .braceClose
  | ['<'] => some .less
  | ['>'] => some .greater
  | ['>', '>'] => some .greaterGreater
  | [';'] => some .semicolon
  | [','] => some .comma
  | ['='] => some .equals
  | [':'] => some .colon
  | ['?'] => some .question
  | ['*'] => some .star
  | ['&'] => some .ampersand
  | ['&', '&'] => some .ampersands
  | ['-', '>'] => some .arrow
  | [':', ':'] => some .scope
  | _ => none

namespace Token

/-- The token that ends every source. -/
def endOfInput : Token := ⟨.endOfInput, []⟩

/-- The kind of token that a lexeme is. -/
def kindOf (lexeme : Lexeme) : Kind :=
  match lexeme.kind with
  | .whitespace => .whitespace
  | .lineComment | .blockComment => .comment
  | .string | .character | .rawString | .number => .literal
  | .word => if Vocabulary.isKeyword lexeme.text then .keyword else .identifier
  | .punctuator | .stray => .punctuation

/-- The token of a lexeme. -/
def ofLexeme (lexeme : Lexeme) : Token :=
  ⟨kindOf lexeme, lexeme.text⟩

/-- Whether a token is whitespace or a comment, which the grammar looks through. -/
def isTrivia (t : Token) : Bool :=
  t.kind == .whitespace || t.kind == .comment

/-- Whether a token counts for the grammar. -/
def isSignificant (t : Token) : Bool :=
  !t.isTrivia && t.kind != .endOfInput

/-- Whether a token is a word, reserved or not. -/
def isWord (t : Token) : Bool :=
  t.kind == .keyword || t.kind == .identifier

/-- Whether a token is a given reserved word. -/
def isKeyword (t : Token) (word : String) : Bool :=
  t.kind == .keyword && t.text == word.toList

/-- The mark that a token is. -/
def mark? (t : Token) : Option Mark :=
  if t.kind = .punctuation then Mark.ofText? t.text else none

/-- Whether a token is a given mark. -/
def isMark (t : Token) (m : Mark) : Bool :=
  t.mark? == some m

/-- Whether a token is white space on one line. -/
def isHorizontalSpace (t : Token) : Bool :=
  t.kind == .whitespace && !t.text.contains '\n'

/-- Whether a token is a word of a fundamental type. -/
def isBuiltinType (t : Token) : Bool :=
  t.isWord && Vocabulary.isBuiltinType t.text

end Token

end EastConst
