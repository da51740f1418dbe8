import EastConst.Proofs.Token.Cover
import EastConst.Relocation

/-!
# Where diagnostics stand

Merging diagnostics drops none and adds none (`merge_perm`). Those of the lexemes of a source each
stand at a lexeme that is not closed (`mem_lexicalDiagnostics`), and tokens that are apart have
offsets that are apart (`offsetAt_lt`).
-/

namespace EastConst

namespace Diagnostic

theorem insert_perm (d : Diagnostic) (ds : List Diagnostic) : (insert d ds).Perm (d :: ds) := by
  fun_induction insert d ds with
  | case1 => exact .refl _
  | case2 e rest _ ih => exact (ih.cons e).trans (.swap d e rest)
  | case3 e rest => exact .refl _

/-- Merging loses no diagnostic and adds none. -/
theorem merge_perm (ordered added : List Diagnostic) :
    (merge ordered added).Perm (ordered ++ added) := by
  unfold merge
  induction added generalizing ordered with
  | nil => rw [List.foldl_nil, List.append_nil]
  | cons d added ih =>
    rw [List.foldl_cons]
    apply (ih _).trans
    apply ((insert_perm d ordered).append_right added).trans
    exact List.perm_middle.symm

end Diagnostic

/-- Only a lexeme that is not closed is reported, at the offset where it starts. -/
theorem Lexeme.diagnostic?_eq_some {l : Lexeme} {offset : Nat} {d : Diagnostic}
    (h : l.diagnostic? offset = some d) :
    d.offset = offset ∧ l.closed = false ∧ l.kind.construct?.isSome := by
  unfold Lexeme.diagnostic? at h
  split at h
  · cases h
  · rename_i hopen
    obtain ⟨⟨code, name⟩, hconstruct, rfl⟩ := Option.map_eq_some_iff.1 h
    exact ⟨rfl, Bool.eq_false_iff.2 hopen, by rw [hconstruct]; rfl⟩

/-- A diagnostic of a lexeme stands at the bytes of the lexemes before it. -/
theorem mem_lexicalDiagnosticsFrom {offset : Nat} {ls : List Lexeme} {d : Diagnostic}
    (h : d ∈ lexicalDiagnosticsFrom offset ls) :
    ∃ (i : Nat) (l : Lexeme), ls[i]? = some l ∧
      l.diagnostic? (offset + Utf8.byteLength ((ls.take i).flatMap Lexeme.text)) = some d := by
  induction ls generalizing offset with
  | nil => cases h
  | cons l ls ih =>
    rw [lexicalDiagnosticsFrom, List.mem_append, Option.mem_toList] at h
    rcases h with h | h
    · exact ⟨0, l, rfl, h⟩
    · obtain ⟨i, l', hl', hd⟩ := ih h
      refine ⟨i + 1, l', hl', ?_⟩
      rw [List.take_succ_cons, List.flatMap_cons, Utf8.byteLength_append, ← Nat.add_assoc]
      exact hd

section

variable {source : List Char} {i j : Nat}

/-- The offset of a token is the number of bytes of the lexemes before it. -/
theorem offsetAt_tokens (source : List Char) (h : i ≤ (Lexeme.lexemes source).length) :
    offsetAt (tokens source) i =
      Utf8.byteLength (((Lexeme.lexemes source).take i).flatMap Lexeme.text) := by
  rw [offsetAt, tokens, List.take_append_of_le_length (by simpa using h), ← List.map_take,
    List.flatMap_map]
  rfl

/-- A diagnostic of the lexemes of a source stands at one of them, which is not closed. -/
theorem mem_lexicalDiagnostics {d : Diagnostic} (h : d ∈ lexicalDiagnostics source) :
    ∃ (i : Nat) (l : Lexeme), (Lexeme.lexemes source)[i]? = some l ∧
      l.diagnostic? (offsetAt (tokens source) i) = some d := by
  obtain ⟨i, l, hl, hd⟩ := mem_lexicalDiagnosticsFrom h
  have hi := (List.getElem?_eq_some_iff.1 hl).1
  refine ⟨i, l, hl, ?_⟩
  rwa [offsetAt_tokens source (Nat.le_of_lt hi), ← Nat.zero_add (Utf8.byteLength _)]

theorem byteLength_pos {text : List Char} (h : text ≠ []) : 0 < Utf8.byteLength text := by
  obtain ⟨c, rest, rfl⟩ := List.exists_cons_of_ne_nil h
  rw [Utf8.byteLength_cons]
  have := Char.utf8Size_pos c
  omega

/-- Tokens start one after another. -/
theorem offsetAt_lt (source : List Char) (h : i < j) (hj : j < (tokens source).length) :
    offsetAt (tokens source) i < offsetAt (tokens source) j := by
  induction j with
  | zero => cases h
  | succ j ih =>
    have hlt : j < (Lexeme.lexemes source).length := by simpa [tokens] using hj
    have hl := List.getElem?_eq_getElem hlt
    have hpos := byteLength_pos (mem_lexemes_text_ne_nil (List.getElem_mem hlt))
    rw [offsetAt_succ (getElem?_of_lexemes hl).1, Token.ofLexeme_text]
    rcases Nat.lt_succ_iff_lt_or_eq.1 h with hij | rfl
    · have := ih hij (by omega)
      omega
    · omega

/-- No diagnostic of a lexeme is at a reserved word. -/
theorem offset_ne_of_keyword {d : Diagnostic} {t : Token} (hd : d ∈ lexicalDiagnostics source)
    (ht : (tokens source)[i]? = some t) (hk : t.kind = .keyword) :
    d.offset ≠ offsetAt (tokens source) i := by
  intro hoffset
  obtain ⟨j, l, hl, hdiag⟩ := mem_lexicalDiagnostics hd
  obtain ⟨hoffset', -, hconstruct⟩ := Lexeme.diagnostic?_eq_some hdiag
  obtain ⟨hl', hj⟩ := getElem?_of_lexemes hl
  have hi := (List.getElem?_eq_some_iff.1 ht).1
  rcases Nat.lt_trichotomy i j with hij | rfl | hij
  · have := offsetAt_lt source hij (by omega)
    omega
  · -- a word is no construct that can be left open
    obtain rfl := Option.some.inj (ht.symm.trans hl')
    have hword : l.kind = .word := Token.isWord_ofLexeme.1 (by simp [Token.isWord, hk])
    rw [hword] at hconstruct
    cases hconstruct
  · have := offsetAt_lt source hij hi
    omega

end

end EastConst
