import EastConst.Proofs.Lexeme.Solid
import EastConst.Proofs.Occurrence
import EastConst.Token.Stream

/-!
# The tokens of a source and the text after them

Each token of a source is a lexeme that reads before the rest of the source (`exists_lexeme`), and
its kind says how it starts. By itself it is the same lexeme (`Lexeme.lexemes_text`).
-/

namespace EastConst

namespace Lexeme

variable {l r : List Char} {kind : Kind} {closed : Bool}

/-- What is not whitespace starts with no blank, and with a backslash only if it is one. -/
theorem Reads.head_of_solid (h : Reads l r kind closed) (hk : kind ≠ .whitespace) :
    ∃ c u, l = c :: u ∧ Space.isSpace c = false ∧
      (c = '\\' → u = [] ∧ kind = .stray ∧ breaksLine r = false) := by
  obtain ⟨c, u, rfl⟩ := List.exists_cons_of_ne_nil h.ne_nil
  have hspace : Space.length (c :: u ++ r) = 0 := by
    rcases recognise_cases h with ⟨-, he⟩ | ⟨hs, -⟩ | ⟨hs, -⟩ | ⟨hs, -⟩
    · exact absurd (congrArg Extent.kind he) hk
    · exact hs
    · exact hs
    · exact hs
  obtain ⟨hs, hb⟩ := Space.runLength_cons_eq_zero_iff.1 (Space.length_eq_zero_iff.1 hspace)
  refine ⟨c, u, rfl, hs, ?_⟩
  rintro rfl
  have hstray : Reads ['\\'] (u ++ r) .stray true :=
    reads_stray_iff.2 ⟨rfl, '\\', rfl, by decide, hb⟩
  have he := h.symm.trans hstray
  simp only [List.length_cons, Extent.mk.injEq] at he
  obtain rfl : u = [] := List.length_eq_zero_iff.1 (by simpa using he.2.1)
  exact ⟨rfl, he.1, hb rfl⟩

theorem Reads.head_of_word (h : Reads l r .word closed) :
    ∃ c u, l = c :: u ∧ isWordChar c = true := by
  obtain ⟨-, hne, hw, -⟩ := reads_word_iff.1 h
  obtain ⟨c, u, rfl⟩ := List.exists_cons_of_ne_nil hne
  exact ⟨c, u, rfl, hw.1 c List.mem_cons_self⟩

theorem Reads.head_of_comment (h : Reads l r kind closed)
    (hk : kind = .lineComment ∨ kind = .blockComment) : ∃ u, l = '/' :: u := by
  rcases hk with rfl | rfl
  · obtain ⟨-, b, rfl, -⟩ := reads_lineComment_iff.1 h
    exact ⟨_, rfl⟩
  · obtain ⟨b, rfl, -⟩ := reads_blockComment_iff.1 h
    exact ⟨_, rfl⟩

/-- A punctuator or a stray starts with no word character. -/
theorem Reads.head_of_symbol (h : Reads l r kind closed) (hk : kind = .punctuator ∨ kind = .stray) :
    ∃ c u, l = c :: u ∧ isWordChar c = false := by
  rcases hk with rfl | rfl
  · obtain ⟨-, hp, -⟩ := reads_punctuator_iff.1 h
    obtain ⟨c, u, rfl, -, -, -, hw, -⟩ := Punctuator.spellings_head hp
    exact ⟨c, u, rfl, hw⟩
  · obtain ⟨-, c, rfl, hc, -⟩ := reads_stray_iff.1 h
    exact ⟨c, [], rfl, (isStray_iff.1 hc).2.1⟩

end Lexeme

/-! ## Kinds of tokens and kinds of lexemes -/

namespace Token

theorem kindOf_ne_endOfInput (l : Lexeme) : kindOf l ≠ .endOfInput := by
  unfold kindOf
  split <;> try split
  all_goals simp

theorem kindOf_eq_whitespace {l : Lexeme} : kindOf l = .whitespace ↔ l.kind = .whitespace := by
  unfold kindOf
  split <;> try split
  all_goals simp_all

theorem kindOf_eq_comment {l : Lexeme} :
    kindOf l = .comment ↔ l.kind = .lineComment ∨ l.kind = .blockComment := by
  unfold kindOf
  split <;> try split
  all_goals simp_all

theorem kindOf_eq_punctuation {l : Lexeme} :
    kindOf l = .punctuation ↔ l.kind = .punctuator ∨ l.kind = .stray := by
  unfold kindOf
  split <;> try split
  all_goals simp_all

theorem isWord_ofLexeme {l : Lexeme} : (ofLexeme l).isWord = true ↔ l.kind = .word := by
  unfold isWord ofLexeme kindOf
  dsimp only
  split <;> try split
  all_goals simp_all

end Token

/-! ## The text from a token on -/

/-- The text of tokens from an index on. -/
def textFrom (tokens : List Token) (index : Nat) : List Char :=
  (tokens.drop index).flatMap Token.text

theorem textFrom_cons {tokens : List Token} {i : Nat} {t : Token} (h : tokens[i]? = some t) :
    textFrom tokens i = t.text ++ textFrom tokens (i + 1) := by
  obtain ⟨hlt, rfl⟩ := List.getElem?_eq_some_iff.1 h
  rw [textFrom, List.drop_eq_getElem_cons hlt, List.flatMap_cons, textFrom]

/-- The tokens before the end of the input are the lexemes. -/
theorem beforeEnd_tokens (source : List Char) :
    beforeEnd (tokens source) = (Lexeme.lexemes source).map Token.ofLexeme := by
  unfold beforeEnd tokens
  rw [List.takeWhile_append_of_pos]
  · simp [Token.endOfInput]
  · intro t ht
    obtain ⟨l, -, rfl⟩ := List.mem_map.1 ht
    simp [Token.ofLexeme, Token.kindOf_ne_endOfInput]

theorem tokens_terminated (source : List Char) : Terminated (tokens source) := by
  rw [Terminated, beforeEnd_tokens]
  rfl

theorem getElem?_of_lexemes {source : List Char} {i : Nat} {l : Lexeme}
    (h : (Lexeme.lexemes source)[i]? = some l) :
    (tokens source)[i]? = some (Token.ofLexeme l) ∧ i < (tokens source).length - 1 := by
  obtain ⟨hi, rfl⟩ := List.getElem?_eq_some_iff.1 h
  rw [tokens, List.getElem?_append_left (by simpa using hi)]
  simp [hi]

/-- A token of a source is a lexeme that reads before the text after it. -/
theorem exists_lexeme {source : List Char} {i : Nat} {t : Token}
    (ht : (tokens source)[i]? = some t) (hend : t.kind ≠ .endOfInput) :
    ∃ l : Lexeme, (Lexeme.lexemes source)[i]? = some l ∧ t = Token.ofLexeme l ∧
      Lexeme.Reads l.text (textFrom (tokens source) (i + 1)) l.kind l.closed := by
  have hi : i < (Lexeme.lexemes source).length := by
    refine Decidable.byContradiction fun hle => hend ?_
    rw [tokens, List.getElem?_append_right (by simpa using hle)] at ht
    obtain ⟨_, rfl⟩ := List.getElem?_eq_some_iff.1 ht
    simp [Token.endOfInput]
  have hsplit : Lexeme.lexemes source = (Lexeme.lexemes source).take i ++
      (Lexeme.lexemes source)[i] :: (Lexeme.lexemes source).drop (i + 1) := by
    rw [← List.drop_eq_getElem_cons hi, List.take_append_drop]
  refine ⟨(Lexeme.lexemes source)[i], List.getElem?_eq_getElem hi, ?_, ?_⟩
  · rw [tokens, List.getElem?_append_left (by simpa using hi)] at ht
    simpa [hi] using ht.symm
  · have htext : textFrom (tokens source) (i + 1) =
        ((Lexeme.lexemes source).drop (i + 1)).flatMap Lexeme.text := by
      rw [textFrom, tokens, List.drop_append_of_le_length (by simp; omega)]
      simp [Token.endOfInput, ← List.map_drop, List.flatMap_map]
    rw [htext]
    exact Lexeme.reads_of_lexemes hsplit

/-! ## Tokens by themselves -/

/-- The text of a lexeme reads as that lexeme alone. -/
theorem Lexeme.lexemes_text {source : List Char} {l : Lexeme} (h : l ∈ lexemes source) :
    lexemes l.text = [l] := by
  obtain ⟨pre, post, hsplit⟩ := List.append_of_mem h
  have hlexemes := (reads_of_lexemes hsplit).alone.lexemes
  rwa [List.append_nil, lexemes_nil] at hlexemes

/-- Tokens need nothing around them. A lexeme of a source, closed or not, is the one lexeme of its
own text, and a token is, before the end of the input, the one token of its own text. -/
theorem tokens_self_delimiting (source : List Char) :
    (∀ l ∈ Lexeme.lexemes source, Lexeme.lexemes l.text = [l]) ∧
      ∀ t ∈ tokens source, t.kind ≠ .endOfInput → tokens t.text = [t, Token.endOfInput] := by
  refine ⟨fun l => Lexeme.lexemes_text, fun t ht hend => ?_⟩
  obtain ⟨i, hi⟩ := List.mem_iff_getElem?.1 ht
  obtain ⟨l, hl, rfl, -⟩ := exists_lexeme hi hend
  rw [tokens, Token.ofLexeme_text, Lexeme.lexemes_text (List.mem_of_getElem? hl)]
  rfl

/-- A literal that is not closed, and whitespace that ends with a backslash. -/
theorem tokens_self_delimiting_open :
    ⟨.literal, "u8\"a".toList⟩ ∈ tokens "b \\u8\"a\r\n".toList ∧
      tokens "u8\"a".toList = [⟨.literal, "u8\"a".toList⟩, Token.endOfInput] ∧
      tokens " \\".toList = [⟨.whitespace, " \\".toList⟩, Token.endOfInput] := by
  have hliteral : ⟨.literal, "u8\"a".toList⟩ ∈ tokens "b \\u8\"a\r\n".toList := by decide +kernel
  have hspace : ⟨.whitespace, " \\".toList⟩ ∈ tokens "b \\u8\"a\r\n".toList := by decide +kernel
  have halone := (tokens_self_delimiting "b \\u8\"a\r\n".toList).2
  exact ⟨hliteral, halone _ hliteral (by decide), halone _ hspace (by decide)⟩

end EastConst
