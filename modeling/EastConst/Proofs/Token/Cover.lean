import EastConst.Proofs.Text.Boundary
import EastConst.Proofs.Token.Reading

/-!
# Tokens cover their source

The tokens of a source lie one behind another over its bytes, each over its own text and cut between
characters (`Covers`). A stream gives out these tokens, one with each step, and then no more
(`Stream.next_skip`).
-/

namespace EastConst

namespace Utf8

/-- The bytes of a text from one offset to another. -/
def slice (text : List Char) (start stop : Nat) : List UInt8 :=
  ((encode text).take stop).drop start

/-- The bytes of a part of a text are the part, encoded. -/
theorem slice_append (before text after : List Char) :
    slice (before ++ text ++ after) (byteLength before) (byteLength before + byteLength text) =
      encode text := by
  rw [slice, encode_append, encode_append, ← length_encode before, ← length_encode text,
    ← List.length_append, List.take_left, List.drop_left]

end Utf8

/-! ## Places -/

theorem placedFrom_getElem? (offset i : Nat) (ts : List Token) :
    (placedFrom offset ts)[i]? = ts[i]?.map (⟨·, offset + offsetAt ts i⟩) := by
  induction ts generalizing offset i with
  | nil => rfl
  | cons t ts ih =>
    cases i with
    | zero => simp [placedFrom, offsetAt]
    | succ i => simp [placedFrom, ih, offsetAt, Nat.add_assoc]

theorem placed_eq_some {ts : List Token} {i : Nat} {p : Token.Placed}
    (h : (placed ts)[i]? = some p) : ts[i]? = some p.token ∧ p.start = offsetAt ts i := by
  rw [placed, placedFrom_getElem?] at h
  obtain ⟨t, ht, rfl⟩ := Option.map_eq_some_iff.1 h
  exact ⟨ht, Nat.zero_add _⟩

theorem offsetAt_succ {ts : List Token} {i : Nat} {t : Token} (h : ts[i]? = some t) :
    offsetAt ts (i + 1) = offsetAt ts i + Utf8.byteLength t.text := by
  simp [offsetAt, List.take_add_one, h]

/-- Tokens behind others are placed behind their bytes. -/
theorem placed_append (ts ts' : List Token) (offset : Nat) :
    placedFrom offset (ts ++ ts') =
      placedFrom offset ts ++
        placedFrom (offset + Utf8.byteLength (ts.flatMap Token.text)) ts' := by
  induction ts generalizing offset with
  | nil => simp [placedFrom]
  | cons t ts ih => simp [placedFrom, ih, Nat.add_assoc]

theorem placedFrom_map_token (offset : Nat) (ts : List Token) :
    (placedFrom offset ts).map (·.token) = ts := by
  induction ts generalizing offset with
  | nil => rfl
  | cons t ts ih => simp [placedFrom, ih]

/-- A token stands in its source between the texts of the tokens before and after it. -/
theorem source_eq_of_placed {source : List Char} {i : Nat} {p : Token.Placed}
    (h : (placed (tokens source))[i]? = some p) :
    ∃ before after, source = before ++ p.token.text ++ after ∧
      Utf8.byteLength before = p.start := by
  obtain ⟨ht, hstart⟩ := placed_eq_some h
  refine ⟨((tokens source).take i).flatMap Token.text, textFrom (tokens source) (i + 1),
    ?_, hstart.symm⟩
  rw [List.append_assoc, ← textFrom_cons ht, textFrom, ← List.flatMap_append, List.take_append_drop,
    tokens_flatten]

/-! ## Streams -/

namespace Stream

/-- A stream after a number of steps. -/
def skip : Nat → Stream → Stream
  | 0, s => s
  | n + 1, s => skip n s.next.2

/-- A stream that has ended gives no token any more. -/
theorem next_skip_of_ended {s : Stream} (h : s.ended = true) (n : Nat) :
    (s.skip n).next.1 = none := by
  induction n with
  | zero => simp [skip, next, h]
  | succ n ih =>
    have hnext : s.next.2 = s := by simp [next, h]
    rw [skip, hnext, ih]

/-- Step by step, a stream gives out the tokens of what it has not read. -/
theorem next_skip {s : Stream} (h : s.ended = false) (n : Nat) :
    (s.skip n).next.1 = (placedFrom s.offset (tokens s.rest))[n]? := by
  induction n generalizing s with
  | zero =>
    cases hrest : s.rest with
    | nil => simp [skip, next, h, hrest, tokens, placedFrom]
    | cons c text => simp [skip, next, h, hrest, tokens, Lexeme.lexemes_cons, placedFrom]
  | succ n ih =>
    rw [skip]
    cases hrest : s.rest with
    | nil =>
      have hended : s.next.2.ended = true := by simp [next, h, hrest]
      rw [next_skip_of_ended hended]
      simp [tokens, placedFrom]
    | cons c text =>
      have hopen : s.next.2.ended = false := by simp [next, h, hrest]
      rw [ih hopen]
      simp [next, h, hrest, tokens, Lexeme.lexemes_cons, placedFrom, Token.Placed.stop]

end Stream

/-! ## Covering -/

/-- Whether placed tokens lie over a source without gap and overlap. -/
structure Covers (source : List Char) (ps : List Token.Placed) : Prop where
  texts : ps.flatMap (·.token.text) = source
  first : ps.head?.map (·.start) = some 0
  adjacent : ∀ i p q, ps[i]? = some p → ps[i + 1]? = some q → q.start = p.stop
  slices : ∀ p ∈ ps, Utf8.slice source p.start p.stop = Utf8.encode p.token.text
  boundaries : ∀ p ∈ ps, Utf8.isBoundary source p.stop = true
  solid : ∀ p ∈ ps.dropLast, p.token.text ≠ [] ∧ p.token.kind ≠ .endOfInput
  ending : ∃ p, ps.getLast? = some p ∧ p.token.kind = .endOfInput ∧
    p.start = Utf8.byteLength source ∧ p.stop = Utf8.byteLength source

theorem mem_lexemes_text_ne_nil {source : List Char} {l : Lexeme} (h : l ∈ Lexeme.lexemes source) :
    l.text ≠ [] := by
  obtain ⟨pre, post, hsplit⟩ := List.append_of_mem h
  exact (Lexeme.reads_of_lexemes hsplit).ne_nil

theorem placed_tokens (source : List Char) :
    placed (tokens source) =
      placedFrom 0 ((Lexeme.lexemes source).map Token.ofLexeme) ++
        [⟨Token.endOfInput, Utf8.byteLength source⟩] := by
  rw [placed, tokens, placed_append, List.flatMap_map]
  simp only [Token.ofLexeme_text, Lexeme.lexemes_flatten, Nat.zero_add, placedFrom]

/-- The tokens of a source cover its bytes, with no gap and no overlap. -/
theorem placed_tokens_covers (source : List Char) : Covers source (placed (tokens source)) := by
  refine ⟨?_, ?_, ?_, ?_, ?_, ?_, ?_⟩
  · have hmap := congrArg (List.flatMap Token.text) (placedFrom_map_token 0 (tokens source))
    rwa [List.flatMap_map, tokens_flatten] at hmap
  · rw [List.head?_eq_getElem?, placed, placedFrom_getElem?]
    simp [tokens, offsetAt]
  · intro i p q hp hq
    obtain ⟨ht, hstart⟩ := placed_eq_some hp
    obtain ⟨-, hstart'⟩ := placed_eq_some hq
    rw [hstart', Token.Placed.stop, hstart, offsetAt_succ ht]
  · intro p hp
    obtain ⟨i, hi⟩ := List.mem_iff_getElem?.1 hp
    obtain ⟨before, after, hsource, hbefore⟩ := source_eq_of_placed hi
    conv => lhs; rw [hsource]
    rw [Token.Placed.stop, ← hbefore, Utf8.slice_append]
  · intro p hp
    obtain ⟨i, hi⟩ := List.mem_iff_getElem?.1 hp
    obtain ⟨before, after, hsource, hbefore⟩ := source_eq_of_placed hi
    refine Utf8.isBoundary_iff.2 ⟨before ++ p.token.text, after, hsource, ?_⟩
    rw [Utf8.byteLength_append, hbefore, Token.Placed.stop]
  · intro p hp
    rw [placed_tokens, List.dropLast_concat] at hp
    have htoken := List.mem_map_of_mem (f := (·.token)) hp
    rw [placedFrom_map_token] at htoken
    obtain ⟨l, hl, hlp⟩ := List.mem_map.1 htoken
    rw [← hlp]
    exact ⟨mem_lexemes_text_ne_nil hl, Token.kindOf_ne_endOfInput l⟩
  · rw [placed_tokens, List.getLast?_concat]
    exact ⟨_, rfl, rfl, rfl, rfl⟩

/-- A stream over a source gives out tokens that cover the source, and nothing after them. What each
step reads is not empty and does not reach beyond the end. -/
theorem stream_covers_source (source : List Char) :
    Covers source (placed (tokens source)) ∧
      (∀ n, ((Stream.ofSource source).skip n).next.1 = (placed (tokens source))[n]?) ∧
      ∀ n, ((Stream.ofSource source).skip n).rest ≠ [] →
        0 < (Lexeme.recognise ((Stream.ofSource source).skip n).rest).length ∧
          (Lexeme.recognise ((Stream.ofSource source).skip n).rest).length ≤
            ((Stream.ofSource source).skip n).rest.length := by
  refine ⟨placed_tokens_covers source, fun n => Stream.next_skip rfl n, fun n hne => ⟨?_, ?_⟩⟩
  · exact Lexeme.recognise_length_pos _
  · exact Lexeme.recognise_length_le hne

end EastConst
