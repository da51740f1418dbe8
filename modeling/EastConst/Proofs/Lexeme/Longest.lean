import EastConst.Proofs.Lexeme.Rules

/-!
# The longest match

A lexeme starts with the longest beginning of the text that any rule matches, and has the kind of
that rule. What a rule does not say comes after it: the rest of a comment or literal, and the
backslash that goes with a run of blanks (`Kind.extension`). `Kind.matchLength` says how much of a
text is the match. A lexeme is its match and the extension (`Reads.exists_match`), and no rule
matches more (`length_le_matchLength`).
-/

namespace EastConst.Lexeme

/-- What a lexeme takes after the part that its rule matches, and whether that closes it. A
backslash that continues no line goes with the blanks before it; words, numbers, punctuators and
stray characters are their match. -/
def Kind.extension : Kind → List Char → Nat × Bool
  | .whitespace, rest => (if startsStray rest then 1 else 0, true)
  | .lineComment, rest => (Comment.lineLength rest, true)
  | .blockComment, rest => Comment.blockLength rest
  | .string, rest => Quoted.bodyLength '"' rest
  | .character, rest => Quoted.bodyLength '\'' rest
  | .rawString, rest => Raw.bodyLength rest
  | .word, _ | .number, _ | .punctuator, _ | .stray, _ => (0, true)

/-- How much of a text is matched by the rule of the lexeme that it starts with. -/
def Kind.matchLength : Kind → List Char → Nat
  | .whitespace, text => Space.runLength text
  | .lineComment, _ | .blockComment, _ => 2
  | .string, text | .character, text | .rawString, text => (text.takeWhile isWordChar).length + 1
  | .word, text => (text.takeWhile isWordChar).length
  | .number, text => Number.length text
  | .punctuator, text => Punctuator.length text
  | .stray, _ => 1

/-! ## A lexeme is a match and its extension -/

section

variable {l r : List Char} {kind : Kind} {closed : Bool}

theorem takeWhile_isWordChar {word rest : List Char} (hw : ∀ c ∈ word, isWordChar c = true)
    (hr : ∀ c ∈ rest.head?, isWordChar c = false) : (word ++ rest).takeWhile isWordChar = word := by
  rw [List.takeWhile_append_of_pos hw]
  cases rest with
  | nil => simp
  | cons c rest => simp [hr c rfl]

/-- The opening of a literal is the word that the text starts with, and the quote after it. -/
theorem length_opening {word : List Char} {quote : Char} (hw : IsWord word)
    (hq : isWordChar quote = false) (body : List Char) :
    (word ++ [quote]).length = ((word ++ [quote] ++ body).takeWhile isWordChar).length + 1 := by
  have htake : (word ++ ([quote] ++ body)).takeWhile isWordChar = word :=
    takeWhile_isWordChar hw.1 (by simpa using hq)
  rw [List.append_assoc, htake, List.length_append]
  rfl

/-- A lexeme that starts with a match of the rule of its kind and goes on with the extension of the
match. -/
structure Opens (kind : Kind) (matched rest l : List Char) (closed : Bool) : Prop where
  mem : matched ∈ kind.language
  length : matched.length = kind.matchLength (matched ++ rest)
  text : l = matched ++ rest.take (kind.extension rest).1
  closed : closed = (kind.extension rest).2

/-- A lexeme is a match of its rule and what the rule goes on to take. -/
theorem Reads.exists_match (h : Reads l r kind closed) :
    ∃ matched rest, l ++ r = matched ++ rest ∧ Opens kind matched rest l closed := by
  cases kind with
  | whitespace =>
    obtain ⟨rfl, w, hne, hrun, ⟨rfl, hr, hhead⟩ | ⟨rfl, hr⟩⟩ := reads_whitespace_iff.1 h
    · refine ⟨l, r, rfl, mem_whitespace_iff.2 ⟨hne, hrun⟩, ?_, ?_, rfl⟩
      · rw [Kind.matchLength, Space.runLength_append hrun, hr, Nat.add_zero]
      · simp [Kind.extension, startsStray, hhead]
    · refine ⟨w, '\\' :: r, by simp, mem_whitespace_iff.2 ⟨hne, hrun⟩, ?_, ?_, rfl⟩
      · rw [Kind.matchLength, Space.runLength_append hrun,
          Space.runLength_cons_eq_zero_iff.2 ⟨by decide, fun _ => hr⟩, Nat.add_zero]
      · simp [Kind.extension, startsStray, hr]
  | lineComment =>
    obtain ⟨rfl, b, rfl, hb⟩ := reads_lineComment_iff.1 h
    exact ⟨['/', '/'], b ++ r, rfl, rfl, rfl, by simp [Kind.extension, hb], rfl⟩
  | blockComment =>
    obtain ⟨b, rfl, hb⟩ := reads_blockComment_iff.1 h
    exact ⟨['/', '*'], b ++ r, rfl, rfl, rfl, by simp [Kind.extension, hb],
      by simp [Kind.extension, hb]⟩
  | string =>
    obtain ⟨word, hword, b, rfl, hb⟩ := reads_string_iff.1 h
    refine ⟨word ++ ['"'], b ++ r, by simp, mem_string_iff.2 ⟨word, hword, rfl⟩, ?_, ?_, ?_⟩
    · exact length_opening (isWord_of_mem_encodings hword).1 (by decide) _
    · simp [Kind.extension, hb]
    · simp [Kind.extension, hb]
  | character =>
    obtain ⟨word, hword, b, rfl, hb⟩ := reads_character_iff.1 h
    refine ⟨word ++ ['\''], b ++ r, by simp, mem_character_iff.2 ⟨word, hword, rfl⟩, ?_, ?_, ?_⟩
    · exact length_opening (isWord_of_mem_encodings hword).1 (by decide) _
    · simp [Kind.extension, hb]
    · simp [Kind.extension, hb]
  | rawString =>
    obtain ⟨word, hword, b, rfl, hb⟩ := reads_rawString_iff.1 h
    refine ⟨word ++ ['R', '"'], b ++ r, by simp, mem_rawString_iff.2 ⟨word, hword, rfl⟩, ?_, ?_, ?_⟩
    · rw [List.append_cons word]
      exact length_opening (isWord_of_mem_encodings hword).2 (by decide) _
    · simp [Kind.extension, hb]
    · simp [Kind.extension, hb]
  | word =>
    obtain ⟨rfl, hne, hw, hr, -⟩ := reads_word_iff.1 h
    refine ⟨l, r, rfl, mem_word_iff.2 ⟨hne, hw⟩, ?_, by simp [Kind.extension], rfl⟩
    rw [Kind.matchLength, takeWhile_isWordChar hw.1 hr]
  | number =>
    obtain ⟨rfl, hne, hlen⟩ := reads_number_iff.1 h
    obtain ⟨-, -, halone⟩ := reads_number_iff.1 h.alone
    rw [List.append_nil] at halone
    exact ⟨l, r, rfl, mem_number_iff.2 ⟨hne, halone⟩, hlen.symm, by simp [Kind.extension], rfl⟩
  | punctuator =>
    obtain ⟨rfl, hl, hmax, -⟩ := reads_punctuator_iff.1 h
    refine ⟨l, r, rfl, hl, ?_, by simp [Kind.extension], rfl⟩
    apply Nat.le_antisymm
    · exact Punctuator.length_le_iff.1 (Nat.le_refl _) l hl (List.prefix_append l r)
    · exact Punctuator.length_le_iff.2 hmax
  | stray =>
    obtain ⟨rfl, c, rfl, hc, -⟩ := reads_stray_iff.1 h
    exact ⟨[c], r, rfl, mem_stray_iff.2 ⟨c, rfl, hc⟩, rfl, by simp [Kind.extension], rfl⟩

end

/-! ## No rule matches more -/

section

variable {p text : List Char}

/-- A number that has come to its end goes on at most. -/
theorem Number.length_le_tailLength_append {b : List Char} (h : tailLength b = b.length)
    (text : List Char) :
    b.length ≤ tailLength (b ++ text) := by
  fun_induction tailLength b with
  | case1 => exact Nat.zero_le _
  | case2 c hc =>
    cases text with
    | nil => simp [tailLength, hc]
    | cons d text =>
      -- the character may be an exponent that finds its sign here
      simp only [List.singleton_append, tailLength, ne_quote hc, hc, List.length_singleton,
        Bool.false_eq_true, if_false, if_true]
      split <;> exact Nat.le_add_left 1 _
  | case3 c hc => simp at h
  | case4 c d rest hc hd ih =>
    have := ih (by simpa using h)
    simp only [List.cons_append, tailLength, hc, hd, if_true, List.length_cons]
    omega
  | case5 c d rest hc hd => simp at h
  | case6 c d rest hc hes ih =>
    have := ih (by simpa using h)
    simp only [List.cons_append, tailLength, hc, hes, Bool.false_eq_true, if_false, if_true,
      List.length_cons]
    omega
  | case7 c d rest hq hes hc ih =>
    have := ih (by simpa using h)
    simp only [List.cons_append, tailLength, hq, hes, hc, Bool.false_eq_true, if_false, if_true,
      List.length_cons] at this ⊢
    omega
  | case8 => simp at h

theorem Number.length_le_length_append {l : List Char} (h : length l = l.length)
    (text : List Char) :
    l.length ≤ length (l ++ text) := by
  unfold length at h
  split at h
  · rename_i d b
    split at h
    · rename_i hd
      have := length_le_tailLength_append (b := b) (by simpa using h) text
      simp only [List.cons_append, length, hd, if_true, List.length_cons]
      omega
    · simp at h
  · rename_i d b _
    split at h
    · rename_i hd
      have := length_le_tailLength_append (b := b) (by simpa using h) text
      rw [List.cons_append, length_of_isDigit hd, List.length_cons]
      omega
    · simp at h
  · exact Nat.zero_le _

/-- Of a literal, its rule matches the encoding word and the quote. -/
theorem matchLength_literal {word body : List Char} {quote : Char} (hw : IsWord word)
    (hq : isWordChar quote = false) (h : literal? word (quote :: body) ≠ none) :
    (word ++ [quote]).length =
      (recognise (word ++ [quote] ++ body)).kind.matchLength (word ++ [quote] ++ body) := by
  obtain ⟨e, he⟩ := Option.ne_none_iff_exists'.1 h
  have hrec : recognise (word ++ [quote] ++ body) = e := by
    rw [← List.append_cons]
    exact recognise_of_literal? hw he
  rw [hrec, length_opening hw hq body]
  rcases literal?_eq_some he with ⟨_, _, _, rfl⟩ | ⟨_, _, _, rfl⟩ | ⟨_, _, _, rfl⟩ <;> rfl

theorem length_le_matchLength_of_isWord (hne : p ≠ []) (hp : IsWord p) (rest : List Char) :
    p.length ≤ (recognise (p ++ rest)).kind.matchLength (p ++ rest) := by
  obtain ⟨c, u, rfl⟩ := List.exists_cons_of_ne_nil hne
  have hc := hp.1 c List.mem_cons_self
  obtain ⟨hs, hb, hpoint, -⟩ := isSpace_of_isWordChar hc
  have hle : (c :: u).length ≤ ((c :: u ++ rest).takeWhile isWordChar).length := by
    rw [List.takeWhile_append_of_pos hp.1, List.length_append]
    exact Nat.le_add_right _ _
  rw [List.cons_append] at hle ⊢
  rw [recognise_cons hs hb (hp.2 c rfl) hpoint]
  cases he : wordOrLiteral? (c :: (u ++ rest)) with
  | none =>
    simp only [wordOrLiteral?, List.takeWhile_cons_of_pos hc, List.isEmpty_cons] at he
    split at he <;> cases he
  | some e =>
    rw [Option.getD_some]
    rcases wordOrLiteral?_kind he with h | h | h | h <;> rw [h, Kind.matchLength] <;> omega

theorem length_le_matchLength_of_spelling (hp : p ∈ Punctuator.spellings) (rest : List Char) :
    p.length ≤ (recognise (p ++ rest)).kind.matchLength (p ++ rest) := by
  obtain ⟨c, u, rfl, hs, hb, hd, hw, hq, hq', -⟩ := Punctuator.spellings_head hp
  have hspace : Space.length (c :: u ++ rest) = 0 :=
    Space.length_eq_zero_iff.2 (Space.runLength_cons_eq_zero_iff.2 ⟨hs, fun h => absurd h hb⟩)
  by_cases hnumber : Number.length (c :: u ++ rest) = 0
  · have hle := Punctuator.length_le_iff.1 (Nat.le_refl _) _ hp (List.prefix_append (c :: u) rest)
    have hsymbol : recognise (c :: u ++ rest) = symbol (c :: u ++ rest) :=
      recognise_symbol hspace hnumber hw ⟨hq, hq'⟩
    -- where a comment opens, only the slash is a punctuator
    have hslash {x : Char} {body : List Char} (hx : x = '/' ∨ x = '*')
        (heq : c :: u ++ rest = '/' :: x :: body) :
        (c :: u).length ≤ 2 := by
      cases u with
      | nil => exact Nat.le_succ 1
      | cons d u =>
        obtain ⟨rfl, rfl, -⟩ : c = '/' ∧ d = x ∧ u ++ rest = body := by simpa using heq
        have := (Punctuator.spellings_second hp).1 rfl
        rcases hx with rfl | rfl
        · exact absurd rfl this.1
        · exact absurd rfl this.2
    rw [hsymbol]
    generalize c :: u ++ rest = t at *
    unfold symbol
    split
    · exact hslash (.inl rfl) rfl
    · exact hslash (.inr rfl) rfl
    · dsimp only
      rw [if_neg (by simp at hle; omega)]
      exact hle
  · obtain ⟨c', u', heq, hc⟩ := Number.length_ne_zero hnumber
    obtain ⟨rfl, -⟩ := List.cons.inj heq
    obtain rfl : c = '.' := hc.resolve_left (by simp [hd])
    have hnil : u = [] := by
      cases u with
      | nil => rfl
      | cons d u =>
        refine absurd ((Number.length_point _).2 fun x hx => ?_) hnumber
        obtain rfl : d = x := by simpa using hx
        exact (Punctuator.spellings_second hp).2
    rw [recognise, if_neg (by simpa using hspace), if_pos hnumber, hnil]
    exact Nat.pos_of_ne_zero (hnil ▸ hnumber)

theorem matchLength_pos (hne : text ≠ []) : 0 < (recognise text).kind.matchLength text := by
  have hreads : Reads (text.take (recognise text).length) (text.drop (recognise text).length)
      (recognise text).kind (recognise text).closed := by
    rw [Reads, List.take_append_drop, List.length_take_of_le (recognise_length_le hne)]
  obtain ⟨matched, rest, heq, hopens⟩ := hreads.exists_match
  rw [List.take_append_drop] at heq
  obtain ⟨_, halone⟩ := reads_of_mem_language hopens.mem
  rw [heq] at hopens ⊢
  rw [← hopens.length]
  exact List.length_pos_iff.2 halone.ne_nil

/-- No rule matches more of a text than the rule that is chosen. -/
theorem length_le_matchLength {other : Kind} (hp : p ∈ other.language) (hpre : p <+: text) :
    p.length ≤ (recognise text).kind.matchLength text := by
  obtain ⟨rest, rfl⟩ := hpre
  cases other with
  | whitespace =>
    obtain ⟨hne, hrun⟩ := mem_whitespace_iff.1 hp
    have hlen := Space.runLength_append hrun rest
    have hpos := List.length_pos_iff.2 hne
    have hspace : Space.length (p ++ rest) ≠ 0 := fun h => by
      rw [Space.length_eq_zero_iff] at h
      omega
    rw [recognise, if_pos hspace, Kind.matchLength, hlen]
    exact Nat.le_add_right _ _
  | lineComment =>
    obtain rfl := mem_single.1 hp
    rw [List.cons_append, recognise_slash]
    exact Nat.le_refl _
  | blockComment =>
    obtain rfl := mem_single.1 hp
    rw [List.cons_append, recognise_slash]
    exact Nat.le_refl _
  | string =>
    obtain ⟨word, hword, rfl⟩ := mem_string_iff.1 hp
    refine Nat.le_of_eq (matchLength_literal (isWord_of_mem_encodings hword).1
      (by decide) fun h => ?_)
    exact ((literal?_eq_none_iff.1 h).1 rfl).1 hword
  | character =>
    obtain ⟨word, hword, rfl⟩ := mem_character_iff.1 hp
    refine Nat.le_of_eq (matchLength_literal (isWord_of_mem_encodings hword).1
      (by decide) fun h => ?_)
    exact (literal?_eq_none_iff.1 h).2 rfl hword
  | rawString =>
    obtain ⟨word, hword, rfl⟩ := mem_rawString_iff.1 hp
    rw [List.append_cons word]
    refine Nat.le_of_eq (matchLength_literal (isWord_of_mem_encodings hword).2
      (by decide) fun h => ?_)
    exact ((literal?_eq_none_iff.1 h).1 rfl).2 word hword rfl
  | word =>
    obtain ⟨hne, hword⟩ := mem_word_iff.1 hp
    exact length_le_matchLength_of_isWord hne hword rest
  | number =>
    obtain ⟨hne, hlen⟩ := mem_number_iff.1 hp
    have hle := Number.length_le_length_append hlen rest
    have hpos := List.length_pos_iff.2 hne
    have hnumber : Number.length (p ++ rest) ≠ 0 := by omega
    obtain ⟨c, u, hcu, hc⟩ := Number.length_ne_zero hnumber
    have hspace : Space.length (p ++ rest) = 0 := by
      rw [hcu]
      exact Space.length_of_isDigit hc
    rw [recognise, if_neg (by simpa using hspace), if_pos hnumber]
    exact hle
  | punctuator => exact length_le_matchLength_of_spelling hp rest
  | stray =>
    obtain ⟨c, rfl, -⟩ := mem_stray_iff.1 hp
    exact matchLength_pos (by simp)

end

/-- A beginning of a text that the rule of a kind matches, no other rule does, and no rule matches a
longer one. -/
structure LongestMatch (kind : Kind) (matched rest : List Char) : Prop where
  mem : matched ∈ kind.language
  longest : ∀ (other : Kind) (p : List Char), p ∈ other.language → p <+: matched ++ rest →
    p.length ≤ matched.length
  only : ∀ other : Kind, matched ∈ other.language → other = kind

/-- Wherever a lexeme starts in a source, it starts with the longest match of all rules on the rest
of the source and has the kind of the rule that matches. What it has beyond the match is the
extension of the match: of a comment or literal what follows its opening, of whitespace a backslash
that continues no line, and nothing of any other kind. -/
theorem lexeme_longest_match {source : List Char} {done todo : List Lexeme} {l : Lexeme}
    (h : lexemes source = done ++ l :: todo) :
    ∃ matched rest, source = done.flatMap Lexeme.text ++ (matched ++ rest) ∧
      LongestMatch l.kind matched rest ∧
      l.text = matched ++ rest.take (l.kind.extension rest).1 ∧
      l.closed = (l.kind.extension rest).2 := by
  have hreads := reads_of_lexemes h
  obtain ⟨matched, rest, heq, hopens⟩ := hreads.exists_match
  have hsource : source = done.flatMap Lexeme.text ++ (matched ++ rest) := by
    rw [← heq, ← lexemes_flatten source, h, List.flatMap_append, List.flatMap_cons]
  have hkind : (recognise (matched ++ rest)).kind = l.kind := by
    rw [← heq]
    exact congrArg Extent.kind hreads
  refine ⟨matched, rest, hsource,
    ⟨hopens.mem, fun other p hp hpre => ?_, fun other => ?_⟩, hopens.text, hopens.closed⟩
  · rw [hopens.length, ← hkind]
    exact length_le_matchLength hp hpre
  · exact kind_unique_of_mem hopens.mem

/-- A digit separator takes one character, so that no sign belongs to the exponent after it. -/
theorem lexeme_longest_match_separator :
    ∃ matched rest, ['1', '\'', 'e', '+', ' ', '\\', 'x'] = matched ++ rest ∧
      LongestMatch .number matched rest ∧
      matched = ['1', '\'', 'e'] := by
  have hlexemes : lexemes ['#', '1', '\'', 'e', '+', ' ', '\\', 'x'] =
      [⟨.punctuator, ['#'], true⟩] ++ ⟨.number, ['1', '\'', 'e'], true⟩ ::
        [⟨.punctuator, ['+'], true⟩, ⟨.whitespace, [' ', '\\'], true⟩, ⟨.word, ['x'], true⟩] := by
    decide +kernel
  obtain ⟨matched, rest, hsource, hlongest, htext, -⟩ := lexeme_longest_match hlexemes
  refine ⟨matched, rest, by simpa using hsource, hlongest, ?_⟩
  simpa [Kind.extension] using htext.symm

end EastConst.Lexeme
