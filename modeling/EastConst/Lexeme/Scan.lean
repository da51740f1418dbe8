import EastConst.Lexeme
import EastConst.Lexeme.Space
import EastConst.Lexeme.Comment
import EastConst.Lexeme.Literal
import EastConst.Lexeme.Punctuator

/-!
# Reading lexemes

`recognise` finds the lexeme at the start of a text, always the longest one, and `lexemes` cuts a
whole text. No character is dropped: a lexeme is given by its length, so it and the rest of the text
are the text again (`lexemes_flatten`).
-/

namespace EastConst.Lexeme

/-- Whether a character may stand in a word. Every character outside ASCII is a letter, the byte
order mark apart. -/
def isWordChar (c : Char) : Bool :=
  c.isAlphanum || c == '_' || c == '$' || (0x80 ≤ c.toNat && c != '\uFEFF')

/-- A word, a literal with a word right before its quote, or neither. -/
def wordOrLiteral? (text : List Char) : Option Extent :=
  let word := text.takeWhile isWordChar
  match literal? word (text.drop word.length) with
  | some extent => some extent
  | none => if word.isEmpty then none else some { kind := .word, length := word.length }

/-- A comment, a punctuator or a stray character. -/
def symbol (text : List Char) : Extent :=
  match text with
  | '/' :: '/' :: body => { kind := .lineComment, length := 2 + Comment.lineLength body }
  | '/' :: '*' :: body =>
    let (n, closed) := Comment.blockLength body
    { kind := .blockComment, length := 2 + n, closed }
  | _ =>
    let n := Punctuator.length text
    if n = 0 then { kind := .stray, length := 1 } else { kind := .punctuator, length := n }

/-- The lexeme at the start of a text. -/
def recognise (text : List Char) : Extent :=
  if Space.length text ≠ 0 then { kind := .whitespace, length := Space.length text }
  else if Number.length text ≠ 0 then { kind := .number, length := Number.length text }
  else (wordOrLiteral? text).getD (symbol text)

/-- The lexemes of a text whose first `held` characters belong to a lexeme that has been read. -/
def lexemesAfter : (held : Nat) → List Char → List Lexeme
  | _, [] => []
  | held + 1, _ :: text => lexemesAfter held text
  | 0, c :: text =>
    let extent := recognise (c :: text)
    extent.lexeme (c :: text) :: lexemesAfter (extent.length - 1) text

/-- The lexemes of a text, in order. -/
def lexemes (text : List Char) : List Lexeme :=
  lexemesAfter 0 text

/-! ## Every character is in one lexeme -/

theorem literal?_length_pos {word rest : List Char} {extent : Extent}
    (h : literal? word rest = some extent) : 0 < extent.length := by
  unfold literal? at h
  split at h
  · split at h
    · cases h; simp only; omega
    · split at h
      · cases h; simp only; omega
      · cases h
  · split at h
    · cases h; simp only; omega
    · cases h
  · cases h

theorem wordOrLiteral?_length_pos {text : List Char} {extent : Extent}
    (h : wordOrLiteral? text = some extent) : 0 < extent.length := by
  unfold wordOrLiteral? at h
  dsimp only at h
  split at h
  · cases h
    exact literal?_length_pos ‹_›
  · split at h
    · cases h
    · cases h
      rename_i hword
      exact List.length_pos_iff.2 (by simpa using hword)

theorem symbol_length_pos (text : List Char) : 0 < (symbol text).length := by
  unfold symbol
  split
  · simp only; omega
  · simp only; omega
  · dsimp only
    split
    · exact Nat.one_pos
    · exact Nat.pos_of_ne_zero ‹_›

/-- A lexeme has at least one character. -/
theorem recognise_length_pos (text : List Char) : 0 < (recognise text).length := by
  unfold recognise
  split
  · exact Nat.pos_of_ne_zero ‹_›
  · split
    · exact Nat.pos_of_ne_zero ‹_›
    · cases h : wordOrLiteral? text with
      | none => exact symbol_length_pos text
      | some extent => exact wordOrLiteral?_length_pos h

theorem lexemesAfter_eq_lexemes_drop (held : Nat) (text : List Char) :
    lexemesAfter held text = lexemes (text.drop held) := by
  induction text generalizing held with
  | nil => cases held <;> simp [lexemes, lexemesAfter]
  | cons c text ih =>
    cases held with
    | zero => rfl
    | succ held => simpa [lexemesAfter] using ih held

@[simp]
theorem lexemes_nil : lexemes [] = [] := rfl

/-- A text is cut after its first lexeme and the rest is read afresh. -/
theorem lexemes_cons (c : Char) (text : List Char) :
    lexemes (c :: text) =
      (recognise (c :: text)).lexeme (c :: text) ::
        lexemes ((c :: text).drop (recognise (c :: text)).length) := by
  have hpos := recognise_length_pos (c :: text)
  obtain ⟨n, hn⟩ : ∃ n, (recognise (c :: text)).length = n + 1 :=
    ⟨_, (Nat.sub_add_cancel hpos).symm⟩
  conv => lhs; rw [lexemes, lexemesAfter]
  simp [lexemesAfter_eq_lexemes_drop, hn]

/-- The lexemes of a text are the text. -/
theorem lexemes_flatten (text : List Char) : (lexemes text).flatMap Lexeme.text = text := by
  induction hlen : text.length using Nat.strongRecOn generalizing text with
  | _ n ih =>
    cases text with
    | nil => rfl
    | cons c text =>
      have hpos := recognise_length_pos (c :: text)
      rw [lexemes_cons, List.flatMap_cons, ih _ _ _ rfl]
      · exact List.take_append_drop _ _
      · simp only [List.length_drop, List.length_cons] at hlen ⊢
        omega

end EastConst.Lexeme
