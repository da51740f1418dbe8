import Mathlib.Data.List.Forall2
import EastConst.Proofs.Plan.Accounting

/-!
# Diagnostics are exact

The diagnostics of a source come from its lexemes, as they are read, and from the groups of
qualifiers that stay. Lexemes that are not closed and diagnostics of the first origin are in
one-to-one correspondence (`forall₂_openLexemes`), and so are groups without a type and those of the
second (`forall₂_refusedGroups`). No two of all these diagnostics have an offset in common, so their
offsets strictly increase once they are merged (`Diagnostic.merge_pairwise`).

A literal that is not closed has the end of its line after it (`next_of_open`), and such a comment
the end of the input (`drop_of_open`).
-/

namespace EastConst

/-! ## Merging -/

namespace Diagnostic

theorem insert_pairwise {d : Diagnostic} {ds : List Diagnostic}
    (h : ds.Pairwise (·.offset < ·.offset))
    (hd : ∀ e ∈ ds, e.offset ≠ d.offset) : (insert d ds).Pairwise (·.offset < ·.offset) := by
  fun_induction insert d ds with
  | case1 => exact List.pairwise_singleton _ d
  | case2 e rest hle ih =>
    rw [List.pairwise_cons] at h
    rw [List.forall_mem_cons] at hd
    refine List.pairwise_cons.2 ⟨fun f hf => ?_, ih h.2 hd.2⟩
    rcases List.mem_cons.1 ((insert_perm d rest).mem_iff.1 hf) with rfl | hf
    · exact Nat.lt_of_le_of_ne hle hd.1
    · exact h.1 f hf
  | case3 e rest hlt =>
    refine List.pairwise_cons.2 ⟨fun f hf => ?_, h⟩
    rcases List.mem_cons.1 hf with rfl | hf
    · exact Nat.lt_of_not_le hlt
    · exact Nat.lt_trans (Nat.lt_of_not_le hlt) ((List.pairwise_cons.1 h).1 f hf)

/-- Diagnostics that are apart increase strictly once they are merged. -/
theorem merge_pairwise {ordered added : List Diagnostic}
    (h : ordered.Pairwise (·.offset < ·.offset))
    (hapart : (ordered ++ added).Pairwise (·.offset ≠ ·.offset)) :
    (merge ordered added).Pairwise (·.offset < ·.offset) := by
  unfold merge
  induction added generalizing ordered with
  | nil => exact h
  | cons d added ih =>
    have hperm : (insert d ordered ++ added).Perm (ordered ++ d :: added) :=
      ((insert_perm d ordered).append_right added).trans List.perm_middle.symm
    rw [List.foldl_cons]
    apply ih
    · apply insert_pairwise h
      intro e he
      exact (List.pairwise_append.1 hapart).2.2 e he d List.mem_cons_self
    · exact (hperm.pairwise_iff Ne.symm).2 hapart

end Diagnostic

/-! ## One diagnostic each -/

/-- A partial function that is defined exactly where a test holds pairs what passes the test with
its values. -/
theorem forall₂_filter_filterMap {α β : Type} {R : α → β → Prop} {p : α → Bool}
    {f : α → Option β} {xs : List α}
    (hsome : ∀ x ∈ xs, p x = true → ∃ y, f x = some y ∧ R x y)
    (hnone : ∀ x ∈ xs, p x = false → f x = none) :
    List.Forall₂ R (xs.filter p) (xs.filterMap f) := by
  induction xs with
  | nil => exact .nil
  | cons x xs ih =>
    rw [List.forall_mem_cons] at hsome hnone
    have hrest := ih hsome.2 hnone.2
    cases hp : p x with
    | true =>
      obtain ⟨y, hy, hR⟩ := hsome.1 hp
      rw [List.filter_cons_of_pos hp, List.filterMap_cons_some hy]
      exact .cons hR hrest
    | false =>
      rw [List.filter_cons_of_neg (Bool.eq_false_iff.1 hp), List.filterMap_cons_none (hnone.1 hp)]
      exact hrest

/-- The lexemes of a source that are not closed, with their indices. -/
def openLexemes (source : List Char) : List (Lexeme × Nat) :=
  (Lexeme.lexemes source).zipIdx.filter fun p => !p.1.closed

/-- The groups of qualifiers whose types have no extent. -/
def untypedGroups (options : Options) (tokens : List Token) : List Group :=
  (groups options tokens).filter fun g => !(g.extent options tokens).isOk

/-- Whether a diagnostic says that a lexeme is not closed: it stands where the lexeme starts, and
has the code of its construct. -/
def ReportsOpen (source : List Char) (p : Lexeme × Nat) (d : Diagnostic) : Prop :=
  ∃ code name, p.1.kind.construct? = some (code, name) ∧
    d = .warning (offsetAt (tokens source) p.2) code
      ("Unterminated " ++ name ++ ", closed implicitly")

/-- Whether a diagnostic says why a group stays: it stands where the first qualifier of the group
starts. -/
def ReportsUntyped (options : Options) (tokens : List Token) (g : Group) (d : Diagnostic) : Prop :=
  ∃ refusal first, g.extent options tokens = .error refusal ∧ first ∈ g.members ∧
    (∀ i ∈ g.members, first ≤ i) ∧
    d = .warning (offsetAt tokens first) refusal.code refusal.message

/-- Only constructs are left open. -/
theorem Lexeme.Reads.construct?_of_open {l r : List Char} {kind : Kind} (h : Reads l r kind false) :
    ∃ code name, kind.construct? = some (code, name) := by
  cases kind with
  | whitespace => cases (reads_whitespace_iff.1 h).1
  | lineComment => cases (reads_lineComment_iff.1 h).1
  | word => cases (reads_word_iff.1 h).1
  | number => cases (reads_number_iff.1 h).1
  | punctuator => cases (reads_punctuator_iff.1 h).1
  | stray => cases (reads_stray_iff.1 h).1
  | blockComment | string | character | rawString => exact ⟨_, _, rfl⟩

section

variable {options : Options} {source : List Char}

/-- The open lexemes are those of the source that are not closed, with their indices. -/
theorem mem_openLexemes {l : Lexeme} {i : Nat} :
    (l, i) ∈ openLexemes source ↔ (Lexeme.lexemes source)[i]? = some l ∧ l.closed = false := by
  simp [openLexemes, List.mem_zipIdx_iff_getElem?]

theorem reads_of_openLexemes {l : Lexeme} {i : Nat} (h : (l, i) ∈ openLexemes source) :
    i + 1 < (tokens source).length ∧
    Lexeme.Reads l.text (textFrom (tokens source) (i + 1)) l.kind false := by
  obtain ⟨hl, hopen⟩ := mem_openLexemes.1 h
  obtain ⟨ht, hi⟩ := getElem?_of_lexemes hl
  obtain ⟨l', hl', -, hreads⟩ := exists_lexeme ht (Token.kindOf_ne_endOfInput l)
  obtain rfl := Option.some.inj (hl.symm.trans hl')
  exact ⟨by omega, hopen ▸ hreads⟩

/-- The diagnostics of the lexemes to come, with each offset counted from the start of the
source. -/
theorem lexicalDiagnosticsFrom_eq (done todo : List Lexeme) :
    lexicalDiagnosticsFrom (Utf8.byteLength (done.flatMap Lexeme.text)) todo =
      (todo.zipIdx done.length).filterMap fun p =>
        p.1.diagnostic? (Utf8.byteLength (((done ++ todo).take p.2).flatMap Lexeme.text)) := by
  induction todo generalizing done with
  | nil => rfl
  | cons l todo ih =>
    have hrest := ih (done ++ [l])
    rw [List.flatMap_append, List.flatMap_singleton, Utf8.byteLength_append, List.length_append,
      List.length_singleton, List.append_assoc, List.singleton_append] at hrest
    rw [lexicalDiagnosticsFrom, hrest, List.zipIdx_cons, List.filterMap_cons]
    simp only [List.take_left]
    cases l.diagnostic? (Utf8.byteLength (done.flatMap Lexeme.text)) <;> rfl

/-- The diagnostics of lexemes, each from the index of its lexeme. -/
theorem lexicalDiagnostics_eq (source : List Char) : lexicalDiagnostics source =
    (Lexeme.lexemes source).zipIdx.filterMap fun p =>
      p.1.diagnostic? (offsetAt (tokens source) p.2) := by
  have hfrom := lexicalDiagnosticsFrom_eq [] (Lexeme.lexemes source)
  apply hfrom.trans
  apply List.filterMap_congr
  rintro ⟨l, i⟩ hp
  have hi := (List.getElem?_eq_some_iff.1 (List.mem_zipIdx_iff_getElem?.1 hp)).1
  rw [offsetAt_tokens source (Nat.le_of_lt hi)]
  rfl

/-- Lexemes that are not closed and their diagnostics correspond one to one, in order. -/
theorem forall₂_openLexemes (source : List Char) :
    List.Forall₂ (ReportsOpen source) (openLexemes source) (lexicalDiagnostics source) := by
  rw [lexicalDiagnostics_eq]
  apply forall₂_filter_filterMap
  · rintro ⟨l, i⟩ hp hopen
    have hmem : (l, i) ∈ openLexemes source := List.mem_filter.2 ⟨hp, hopen⟩
    have hclosed := (mem_openLexemes.1 hmem).2
    obtain ⟨code, name, hconstruct⟩ := (reads_of_openLexemes hmem).2.construct?_of_open
    exact ⟨_, by simp [Lexeme.diagnostic?, hclosed, hconstruct], code, name, hconstruct, rfl⟩
  · rintro ⟨l, i⟩ - hopen
    have hclosed : l.closed = true := by simpa using hopen
    simp [Lexeme.diagnostic?, hclosed]

/-- Groups without a type and their diagnostics correspond one to one, in order. -/
theorem forall₂_refusedGroups (options : Options) (source : List Char) :
    List.Forall₂ (ReportsUntyped options (tokens source)) (untypedGroups options (tokens source))
      ((refusedGroups options (tokens source)).map (·.diagnostic (tokens source))) := by
  rw [refusedGroups, List.map_filterMap]
  apply forall₂_filter_filterMap
  · intro g hg hrefused
    cases hext : g.extent options (tokens source) with
    | ok extent =>
      rw [hext] at hrefused
      cases hrefused
    | error refusal =>
      have hmem : ⟨g, refusal⟩ ∈ refusedGroups options (tokens source) :=
        mem_refusedGroups_iff.2 ⟨hg, hext⟩
      obtain ⟨first, hfirst, hleast, hoffset⟩ := exists_first_of_refused hmem
      refine ⟨_, rfl, refusal, first, hext, hfirst, hleast, ?_⟩
      rw [← hoffset]
      rfl
  · intro g _ hrefused
    cases hext : g.extent options (tokens source) with
    | ok extent => rfl
    | error refusal =>
      rw [hext] at hrefused
      cases hrefused

/-! ## Order -/

theorem lexicalDiagnostics_pairwise (source : List Char) :
    (lexicalDiagnostics source).Pairwise (·.offset < ·.offset) := by
  have hindex : (Lexeme.lexemes source).zipIdx.Pairwise (·.2 < ·.2) := by
    rw [← List.pairwise_map (f := Prod.snd), List.zipIdx_map_snd]
    exact List.pairwise_lt_range'
  rw [lexicalDiagnostics_eq, List.pairwise_filterMap]
  refine hindex.imp_of_mem ?_
  rintro ⟨l, i⟩ ⟨l', j⟩ - hp' hij d hd d' hd'
  have hj := (getElem?_of_lexemes (List.mem_zipIdx_iff_getElem?.1 hp')).2
  rw [(Lexeme.diagnostic?_eq_some hd).1, (Lexeme.diagnostic?_eq_some hd').1]
  exact offsetAt_lt source hij (by omega)

/-- A lexeme that is not closed never starts where a refused group does, which is at a word. -/
theorem offset_ne_of_refused {d : Diagnostic} {refused : RefusedGroup}
    (hd : d ∈ lexicalDiagnostics source) (h : refused ∈ refusedGroups options (tokens source)) :
    d.offset ≠ (refused.diagnostic (tokens source)).offset := by
  obtain ⟨first, hfirst, -, hoffset⟩ := exists_first_of_refused h
  obtain ⟨t, ht, hk⟩ := exists_keyword_of_refused h hfirst
  rw [hoffset]
  exact offset_ne_of_keyword hd ht hk

/-- The offsets of the diagnostics of a source strictly increase. -/
theorem diagnostics_pairwise (options : Options) (source : List Char) :
    (diagnostics options source).Pairwise (·.offset < ·.offset) := by
  have hlexical := lexicalDiagnostics_pairwise source
  have hrefused : ((refusedGroups options (tokens source)).map
      (·.diagnostic (tokens source))).Pairwise
      (·.offset < ·.offset) :=
    List.pairwise_map.2 (refusedGroups_pairwise options source)
  apply Diagnostic.merge_pairwise hlexical
  refine List.pairwise_append.2 ⟨hlexical.imp Nat.ne_of_lt, hrefused.imp Nat.ne_of_lt, ?_⟩
  intro d hd e he
  obtain ⟨refused, hmem, rfl⟩ := List.mem_map.1 he
  exact offset_ne_of_refused hd hmem

theorem exists_placed {tokens : List Token} {i : Nat} {t : Token} (h : tokens[i]? = some t) :
    ∃ p ∈ placed tokens, p.start = offsetAt tokens i := by
  refine ⟨⟨t, 0 + offsetAt tokens i⟩, List.mem_of_getElem? (i := i) ?_, Nat.zero_add _⟩
  rw [placed, placedFrom_getElem?, h]
  rfl

/-- Every diagnostic stands where a token starts. -/
theorem exists_placed_of_mem {d : Diagnostic} (h : d ∈ diagnostics options source) :
    ∃ p ∈ placed (tokens source), p.start = d.offset := by
  rcases List.mem_append.1 ((Diagnostic.merge_perm _ _).mem_iff.1 h) with hd | hd
  · obtain ⟨i, l, hl, hdiag⟩ := mem_lexicalDiagnostics hd
    rw [(Lexeme.diagnostic?_eq_some hdiag).1]
    exact exists_placed (getElem?_of_lexemes hl).1
  · obtain ⟨refused, hmem, rfl⟩ := List.mem_map.1 hd
    obtain ⟨first, hfirst, -, hoffset⟩ := exists_first_of_refused hmem
    obtain ⟨t, ht, -⟩ := exists_keyword_of_refused hmem hfirst
    rw [hoffset]
    exact exists_placed ht

end

/-! ## What follows an open lexeme -/

theorem Lexeme.begins_of_lineBreak? {text : List Char} (hne : text ≠ [])
    (h : (lineBreak? text).isSome) :
    ['\n'] <+: text ∨ ['\r', '\n'] <+: text := by
  unfold lineBreak? at h
  split at h
  · exact absurd rfl hne
  · exact .inl ⟨_, rfl⟩
  · exact .inr ⟨_, rfl⟩
  · cases h

section

variable {source : List Char} {l : Lexeme} {i : Nat}

theorem eq_endOfInput_of_kind {t : Token} (ht : (tokens source)[i]? = some t)
    (hk : t.kind = .endOfInput) :
    t = Token.endOfInput := by
  rcases List.mem_append.1 (List.mem_of_getElem? ht) with h | h
  · obtain ⟨l, -, rfl⟩ := List.mem_map.1 h
    exact absurd hk (Token.kindOf_ne_endOfInput l)
  · exact List.mem_singleton.1 h

/-- A token where a line ends is the end of the input or starts with the line break. -/
theorem token_of_lineBreak? {t : Token} (ht : (tokens source)[i]? = some t)
    (hb : (Lexeme.lineBreak? (textFrom (tokens source) i)).isSome) :
    t = Token.endOfInput ∨ t.kind = .whitespace ∧
      (['\n'] <+: t.text ∨ ['\r', '\n'] <+: t.text) := by
  by_cases hend : t.kind = .endOfInput
  · exact .inl (eq_endOfInput_of_kind ht hend)
  obtain ⟨l, -, rfl, hreads⟩ := exists_lexeme ht hend
  have hk : (Token.ofLexeme l).kind = .whitespace := by
    refine Decidable.byContradiction fun hne => ?_
    obtain ⟨c, u, htext, hspace, -⟩ := hreads.head_of_solid (mt Token.kindOf_eq_whitespace.2 hne)
    rw [textFrom_cons ht, Token.ofLexeme_text, htext] at hb
    rcases Lexeme.begins_of_lineBreak? (by simp) hb with ⟨v, hv⟩ | ⟨v, hv⟩
    · rw [← (List.cons.inj hv).1] at hspace
      cases hspace
    · rw [← (List.cons.inj hv).1] at hspace
      cases hspace
  refine .inr ⟨hk, ?_⟩
  obtain ⟨b, hb⟩ := Option.isSome_iff_exists.1 hb
  obtain ⟨a, u, htext, hbreak⟩ := lineBreak?_text ht hk hb
  rw [htext]
  exact Lexeme.begins_of_lineBreak? (by simp) (by rw [hbreak]; rfl)

/-- A string or character literal that is not closed ends with its line. -/
theorem next_of_open (h : (l, i) ∈ openLexemes source)
    (hk : l.kind = .string ∨ l.kind = .character) :
    ∃ t, (tokens source)[i + 1]? = some t ∧
      (t = Token.endOfInput ∨ t.kind = .whitespace ∧
        (['\n'] <+: t.text ∨ ['\r', '\n'] <+: t.text)) := by
  obtain ⟨hi, hreads⟩ := reads_of_openLexemes h
  have hline : l.kind.isLineBound false = true := by rcases hk with hk | hk <;> rw [hk] <;> rfl
  have ht := List.getElem?_eq_getElem hi
  exact ⟨_, ht, token_of_lineBreak? ht (hreads.of_stopsLike hline).1⟩

/-- A block comment that is not closed ends with the input. -/
theorem drop_of_open (h : (l, i) ∈ openLexemes source) (hk : l.kind = .blockComment) :
    (tokens source).drop (i + 1) = [Token.endOfInput] := by
  obtain ⟨hi, hreads⟩ := reads_of_openLexemes h
  rw [hk] at hreads
  have hnil := hreads.blockComment_open
  have hlength : (tokens source).length = (Lexeme.lexemes source).length + 1 := by simp [tokens]
  have hlast : (Lexeme.lexemes source).length = i + 1 := by
    refine Nat.le_antisymm (Nat.le_of_not_lt fun hlt => ?_) (by omega)
    have hl := List.getElem?_eq_getElem hlt
    rw [textFrom_cons (getElem?_of_lexemes hl).1] at hnil
    exact mem_lexemes_text_ne_nil (List.mem_of_getElem? hl) (List.append_eq_nil_iff.1 hnil).1
  exact List.drop_left' (by rw [List.length_map, hlast])

end

/-! ## The diagnostics of a relocated source -/

/-- Whether diagnostics say all that there is to say about a source, and nothing twice. -/
structure ReportsExactly (options : Options) (source : List Char)
    (ds : List Diagnostic) : Prop where
  ordered : ds.Pairwise (·.offset < ·.offset)
  /-- Each stands where a token starts. -/
  placed : ∀ d ∈ ds, ∃ p ∈ placed (tokens source), p.start = d.offset
  /-- There is one for each lexeme that is not closed, one for each group that stays, and no
  other. -/
  each : ∃ lexical refused, ds.Perm (lexical ++ refused) ∧
    List.Forall₂ (ReportsOpen source) (openLexemes source) lexical ∧
    List.Forall₂ (ReportsUntyped options (tokens source))
      (untypedGroups options (tokens source)) refused

/-- Whether lexemes that are not closed are where they cannot go on. -/
structure OpenLexemesEnd (source : List Char) : Prop where
  literal : ∀ l i, (l, i) ∈ openLexemes source → l.kind = .string ∨ l.kind = .character →
    ∃ t, (tokens source)[i + 1]? = some t ∧
      (t = Token.endOfInput ∨ t.kind = .whitespace ∧ (['\n'] <+: t.text ∨ ['\r', '\n'] <+: t.text))
  comment : ∀ l i, (l, i) ∈ openLexemes source → l.kind = .blockComment →
    (tokens source).drop (i + 1) = [Token.endOfInput]

theorem diagnostics_of_relocate {options : Options} {source : List Char} {r : Relocated}
    (h : relocate options source = .ok r) : r.diagnostics = diagnostics options source := by
  simp only [relocate, Plan.apply] at h
  split at h
  · cases h
  · cases h
    rfl

/-- The diagnostics of a relocated source are exact, and lexemes stay open only where their line or
the input ends. -/
theorem relocated_diagnostics_exact {options : Options} {source : List Char} {r : Relocated}
    (h : relocate options source = .ok r) :
    ReportsExactly options source r.diagnostics ∧ OpenLexemesEnd source := by
  rw [diagnostics_of_relocate h]
  refine ⟨⟨diagnostics_pairwise options source, fun d => exists_placed_of_mem, ?_⟩, ⟨?_, ?_⟩⟩
  · exact ⟨_, _, Diagnostic.merge_perm _ _, forall₂_openLexemes source,
      forall₂_refusedGroups options source⟩
  · exact fun l i => next_of_open
  · exact fun l i => drop_of_open

/-- A literal without an end, a qualifier without a type and a comment without an end, one after
another. -/
theorem relocated_diagnostics_exact_of_three :
    (diagnostics {} "'a\r\nf(const);/*".toList).map (fun d => (d.offset, d.code)) =
        [(0, some "unterminated-char"), (6, some "missing-type"),
         (13, some "unterminated-comment")] ∧
      ReportsExactly {} "'a\r\nf(const);/*".toList (diagnostics {} "'a\r\nf(const);/*".toList) ∧
      OpenLexemesEnd "'a\r\nf(const);/*".toList := by
  have hrelocate : relocate {} "'a\r\nf(const);/*".toList =
      .ok ⟨"'a\r\nf(const);/*".toList, diagnostics {} "'a\r\nf(const);/*".toList⟩ := by
    decide +kernel
  exact ⟨by decide +kernel, relocated_diagnostics_exact hrelocate⟩

end EastConst
