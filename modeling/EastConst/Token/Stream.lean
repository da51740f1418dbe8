import EastConst.Diagnostic
import EastConst.Lexeme.Scan
import EastConst.Text.Quoted
import EastConst.Text.Utf8
import EastConst.Token

/-!
# The tokens of a source

`tokens` reads a whole source. `Stream` reads it token by token and collects the diagnostics of the
lexemes that are not closed. `placed` gives each token its place in bytes.
-/

namespace EastConst

/-- The tokens of a source, the last of them the end of the input. -/
def tokens (source : List Char) : List Token :=
  (Lexeme.lexemes source).map Token.ofLexeme ++ [Token.endOfInput]

/-- Code and name of a construct that can be left open. -/
def Lexeme.Kind.construct? : Lexeme.Kind → Option (String × String)
  | .blockComment => some ("unterminated-comment", "block comment")
  | .string => some ("unterminated-string", "string literal")
  | .character => some ("unterminated-char", "character literal")
  | .rawString => some ("unterminated-raw-string", "raw string literal")
  | _ => none

/-- The diagnostic of a lexeme that is not closed. -/
def Lexeme.diagnostic? (lexeme : Lexeme) (offset : Nat) : Option Diagnostic :=
  if lexeme.closed then none
  else lexeme.kind.construct?.map fun (code, name) =>
    .warning offset code ("Unterminated " ++ name ++ ", closed implicitly")

/-- The diagnostics of lexemes, the first of which stands at a byte offset. -/
def lexicalDiagnosticsFrom : (offset : Nat) → List Lexeme → List Diagnostic
  | _, [] => []
  | offset, lexeme :: rest =>
    (lexeme.diagnostic? offset).toList ++
      lexicalDiagnosticsFrom (offset + Utf8.byteLength lexeme.text) rest

/-- The diagnostics of the lexemes of a source that are not closed. -/
def lexicalDiagnostics (source : List Char) : List Diagnostic :=
  lexicalDiagnosticsFrom 0 (Lexeme.lexemes source)

/-- A token and the byte offset where it starts. -/
structure Token.Placed where
  token : Token
  start : Nat
  deriving DecidableEq, Repr

/-- The byte offset where a token ends. -/
def Token.Placed.stop (p : Token.Placed) : Nat :=
  p.start + Utf8.byteLength p.token.text

/-- A token on one line: kind, text and place. -/
def Token.Placed.display (p : Token.Placed) : String :=
  p.token.kind.name ++ "(" ++ String.ofList (quoted p.token.text) ++ ")@" ++ toString p.start ++
    ".." ++ toString p.stop

/-- Gives each token its place, the first one standing at a byte offset. -/
def placedFrom : (offset : Nat) → List Token → List Token.Placed
  | _, [] => []
  | offset, t :: rest => ⟨t, offset⟩ :: placedFrom (offset + Utf8.byteLength t.text) rest

/-- Gives each token its place. -/
def placed (tokens : List Token) : List Token.Placed :=
  placedFrom 0 tokens

/-- The byte offset where the token at an index starts. -/
def offsetAt (tokens : List Token) (index : Nat) : Nat :=
  Utf8.byteLength ((tokens.take index).flatMap Token.text)

/-- A source that is being read. -/
structure Stream where
  /-- What is still to be read. -/
  rest : List Char
  /-- The byte offset of the rest. -/
  offset : Nat
  /-- Whether the end of the input has been given out. -/
  ended : Bool
  /-- The diagnostics of the tokens given out so far. -/
  diagnostics : List Diagnostic

namespace Stream

/-- A source before its first token. -/
def ofSource (source : List Char) : Stream :=
  ⟨source, 0, false, []⟩

/-- The next token, if the end of the input has not been given out. -/
def next (s : Stream) : Option Token.Placed × Stream :=
  if s.ended then (none, s)
  else
    match s.rest with
    | [] => (some ⟨Token.endOfInput, s.offset⟩, { s with ended := true })
    | _ :: _ =>
      let extent := Lexeme.recognise s.rest
      let lexeme := extent.lexeme s.rest
      let placed : Token.Placed := ⟨Token.ofLexeme lexeme, s.offset⟩
      (some placed,
        { rest := s.rest.drop extent.length
          offset := placed.stop
          ended := false
          diagnostics := s.diagnostics ++ (lexeme.diagnostic? s.offset).toList })

/-- All tokens that are left. -/
def drain (s : Stream) : List Token.Placed × Stream :=
  if s.ended then ([], s)
  else
    (placedFrom s.offset (tokens s.rest),
      { rest := []
        offset := s.offset + Utf8.byteLength s.rest
        ended := true
        diagnostics :=
          s.diagnostics ++ lexicalDiagnosticsFrom s.offset (Lexeme.lexemes s.rest) })

end Stream

/-! ## The tokens of a source are the source -/

@[simp]
theorem Token.ofLexeme_text (lexeme : Lexeme) : (Token.ofLexeme lexeme).text = lexeme.text := rfl

theorem tokens_flatten (source : List Char) : (tokens source).flatMap Token.text = source := by
  simp [tokens, List.flatMap_map, Token.endOfInput, Lexeme.lexemes_flatten]

end EastConst
