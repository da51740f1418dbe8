import EastConst.Proofs.Lexeme.Lookahead

/-!
# How lexemes end

A lexeme that is not whitespace ends with no blank, unless its line or the text ends with it: words,
numbers and symbols have no blanks at all, and what is closed ends with its closing mark. What is
open, and a line comment, may end with a blank, but then a line break follows
(`Reads.last_of_solid`).
-/

namespace EastConst.Lexeme

/-! ## Closing marks -/

theorem getLast?_cons_of_some {c d : Char} {u : List Char} (h : u.getLast? = some d) :
    (c :: u).getLast? = some d := by
  rw [List.getLast?_cons, h]
  rfl

/-- A block comment that is closed ends with a slash. -/
theorem Comment.last_of_closed {t : List Char} {n : Nat} (h : blockLength t = (n, true)) :
    (t.take n).getLast? = some '/' := by
  fun_induction blockLength t generalizing n with
  | case1 tail =>
    obtain rfl : 2 = n := by simpa using h
    rfl
  | case2 c text hne m closed hm ih =>
    simp only [Prod.mk.injEq] at h
    obtain ⟨rfl, rfl⟩ := h
    exact getLast?_cons_of_some (ih hm)
  | case3 => simp at h

/-- A literal that is closed ends with its quote. -/
theorem Quoted.last_of_closed {quote : Char} {t : List Char} {n : Nat}
    (h : bodyLength quote t = (n, true)) : (t.take n).getLast? = some quote := by
  fun_induction bodyLength quote t generalizing n with
  | case1 => simp at h
  | case2 text m closed hm ih =>
    simp only [Prod.mk.injEq] at h
    obtain ⟨rfl, rfl⟩ := h
    exact getLast?_cons_of_some (getLast?_cons_of_some (getLast?_cons_of_some (ih hm)))
  | case3 c text hne m closed hm ih =>
    simp only [Prod.mk.injEq] at h
    obtain ⟨rfl, rfl⟩ := h
    exact getLast?_cons_of_some (getLast?_cons_of_some (ih hm))
  | case4 => simp at h
  | case5 => simp at h
  | case6 text =>
    obtain rfl : 1 = n := by simpa using h
    rfl
  | case7 c text h1 h2 h3 h4 hne m closed hm ih =>
    simp only [Prod.mk.injEq] at h
    obtain ⟨rfl, rfl⟩ := h
    exact getLast?_cons_of_some (ih hm)

theorem Raw.suffix_of_lengthThrough? {closing t : List Char} {n : Nat}
    (h : lengthThrough? closing t = some n) : closing <:+ t.take n := by
  induction t generalizing n with
  | nil => cases h
  | cons c t ih =>
    rw [lengthThrough?] at h
    split at h
    · rename_i hp
      obtain rfl := Option.some.inj h
      exact ⟨[], List.prefix_iff_eq_take.1 (List.isPrefixOf_iff_prefix.1 hp)⟩
    · obtain ⟨m, hm, rfl⟩ := Option.map_eq_some_iff.1 h
      exact (ih hm).trans (List.suffix_cons _ _)

/-- A raw string that is closed ends with a quote. -/
theorem Raw.last_of_closed {t : List Char} {n : Nat} (h : bodyLength t = (n, true)) :
    (t.take n).getLast? = some '"' := by
  unfold bodyLength at h
  dsimp only at h
  split at h
  · simp at h
  · rename_i opening body hdrop
    split at h
    · split at h
      · rename_i m hm
        simp only [Prod.mk.injEq, and_true] at h
        subst h
        obtain ⟨lead, hlead⟩ := suffix_of_lengthThrough? hm
        rw [Nat.add_assoc, List.take_add, hdrop, Nat.add_comm 1, List.take_succ_cons, ← hlead,
          List.append_cons, ← List.append_assoc,
          List.cons_append, ← List.cons_append, ← List.append_assoc, List.getLast?_concat]
      · simp at h
    · simp at h

/-! ## Lexemes without blanks -/

theorem Number.isSpace_of_isDigitLike {c : Char} (h : isDigitLike c = true) :
    Space.isSpace c = false := by
  refine (isSpace_of_isWordChar ?_).1
  rw [isDigitLike, Bool.or_eq_true] at h
  rcases h with h | h <;> simp [isWordChar, h]

theorem Number.isSpace_of_isSign {c : Char} (h : isSign c = true) : Space.isSpace c = false := by
  rw [isSign, Bool.or_eq_true, beq_iff_eq, beq_iff_eq] at h
  rcases h with rfl | rfl <;> rfl

theorem Number.isSpace_of_tail (t : List Char) :
    ∀ c ∈ t.take (tailLength t), Space.isSpace c = false := by
  have hdigit {c : Char} (h : (isDigitLike c || c == '.') = true) : Space.isSpace c = false := by
    rw [Bool.or_eq_true, beq_iff_eq] at h
    rcases h with h | rfl
    · exact isSpace_of_isDigitLike h
    · rfl
  fun_induction tailLength t with
  | case1 => simp
  | case2 c h => simpa using hdigit h
  | case3 c h => simp
  | case4 c d text hc hd ih =>
    obtain rfl := beq_iff_eq.1 hc
    simp only [List.take_succ_cons, List.forall_mem_cons]
    exact ⟨rfl, isSpace_of_isDigitLike hd, ih⟩
  | case5 => simp
  | case6 c d text hc h ih =>
    rw [Bool.and_eq_true] at h
    simp only [List.take_succ_cons, List.forall_mem_cons]
    refine ⟨?_, isSpace_of_isSign h.2, ih⟩
    have he := h.1
    simp only [isExponent, Bool.or_eq_true, beq_iff_eq] at he
    rcases he with ((rfl | rfl) | rfl) | rfl <;> rfl
  | case7 c d text hc h hd ih =>
    rw [List.take_succ_cons, List.forall_mem_cons]
    exact ⟨hdigit hd, ih⟩
  | case8 => simp

/-- No character of a number is white space. -/
theorem Number.isSpace_of_mem {t : List Char} :
    ∀ c ∈ t.take (length t), Space.isSpace c = false := by
  have hdigit {c : Char} (h : c.isDigit = true) : Space.isSpace c = false :=
    (isSpace_of_isWordChar (isWordChar_of_isDigit h)).1
  unfold length
  split
  · rename_i d text
    split
    · rename_i hd
      simp only [List.take_succ_cons, List.forall_mem_cons]
      exact ⟨rfl, hdigit hd, isSpace_of_tail text⟩
    · simp
  · rename_i d text _
    split
    · rename_i hd
      rw [List.take_succ_cons, List.forall_mem_cons]
      exact ⟨hdigit hd, isSpace_of_tail text⟩
    · simp
  · simp

section

variable {l r : List Char} {kind : Kind} {closed : Bool}

/-- Words, numbers and symbols have no blanks. -/
theorem Reads.isSpace_of_mem (h : Reads l r kind closed)
    (hk : kind = .word ∨ kind = .number ∨ kind = .punctuator ∨ kind = .stray) :
    ∀ c ∈ l, Space.isSpace c = false := by
  intro c hc
  rcases hk with rfl | rfl | rfl | rfl
  · obtain ⟨-, -, hw, -⟩ := reads_word_iff.1 h
    exact (isSpace_of_isWordChar (hw.1 c hc)).1
  · obtain ⟨-, -, hn⟩ := reads_number_iff.1 h
    have hmem := Number.isSpace_of_mem (t := l ++ r)
    rw [hn, List.take_left] at hmem
    exact hmem c hc
  · obtain ⟨-, hp, -⟩ := reads_punctuator_iff.1 h
    exact Bool.eq_false_iff.2 fun hs => Punctuator.not_blank_of_mem hp c hc (.inl hs)
  · obtain ⟨-, d, rfl, hd, -⟩ := reads_stray_iff.1 h
    obtain rfl := List.mem_singleton.1 hc
    exact (isStray_iff.1 hd).1

/-- What is closed by a mark ends with the mark. -/
theorem isSpace_last_append {opening body : List Char} {mark : Char}
    (hmark : Space.isSpace mark = false)
    (hbody : body.getLast? = some mark) :
    ∀ c ∈ (opening ++ body).getLast?, Space.isSpace c = false := by
  intro c hc
  rw [List.getLast?_append, hbody] at hc
  obtain rfl := Option.some.inj hc
  exact hmark

/-- A quoted literal ends at the end of its line, or with a character that is no white space. -/
theorem Quoted.last_or_break {opening b : List Char} {quote : Char}
    (hquote : Space.isSpace quote = false) (hb : bodyLength quote (b ++ r) = (b.length, closed)) :
    (lineBreak? r).isSome = true ∨ ∀ c ∈ (opening ++ b).getLast?, Space.isSpace c = false := by
  cases closed with
  | true =>
    have hlast := last_of_closed hb
    rw [List.take_left] at hlast
    exact .inr (isSpace_last_append hquote hlast)
  | false =>
    have hbreak := (bodyLength_open hb).2.1
    rw [List.drop_left] at hbreak
    exact .inl hbreak

/-- What is not whitespace ends with no blank, or ends its line. -/
theorem Reads.last_of_solid (h : Reads l r kind closed) (hk : kind ≠ .whitespace) :
    (lineBreak? r).isSome = true ∨ ∀ c ∈ l.getLast?, Space.isSpace c = false := by
  have hplain (hk : kind = .word ∨ kind = .number ∨ kind = .punctuator ∨ kind = .stray) :
      ∀ c ∈ l.getLast?, Space.isSpace c = false :=
    fun c hc => h.isSpace_of_mem hk c (List.mem_of_getLast? hc)
  cases kind with
  | whitespace => exact absurd rfl hk
  | word => exact .inr (hplain (by simp))
  | number => exact .inr (hplain (by simp))
  | punctuator => exact .inr (hplain (by simp))
  | stray => exact .inr (hplain (by simp))
  | lineComment =>
    obtain ⟨-, b, rfl, hb⟩ := reads_lineComment_iff.1 h
    have hbreak := (Comment.lineLength_take_append (b ++ r)).2.1
    rw [hb, List.drop_left] at hbreak
    exact .inl hbreak
  | blockComment =>
    obtain ⟨b, rfl, hb⟩ := reads_blockComment_iff.1 h
    cases closed with
    | true =>
      have hlast := Comment.last_of_closed hb
      rw [List.take_left] at hlast
      exact .inr (isSpace_last_append rfl hlast)
    | false =>
      have hlen := Comment.blockLength_open hb
      obtain rfl : r = [] := List.eq_nil_of_length_eq_zero (by simpa using hlen)
      exact .inl rfl
  | string =>
    obtain ⟨word, -, b, rfl, hb⟩ := reads_string_iff.1 h
    exact Quoted.last_or_break rfl hb
  | character =>
    obtain ⟨word, -, b, rfl, hb⟩ := reads_character_iff.1 h
    exact Quoted.last_or_break rfl hb
  | rawString =>
    obtain ⟨word, -, b, rfl, hb⟩ := reads_rawString_iff.1 h
    cases closed with
    | true =>
      have hlast := Raw.last_of_closed hb
      rw [List.take_left] at hlast
      exact .inr (isSpace_last_append rfl hlast)
    | false =>
      rcases Raw.bodyLength_open hb with hzero | hall
      · obtain rfl := List.eq_nil_of_length_eq_zero hzero
        refine .inr ?_
        rw [List.append_nil, show word ++ ['R', '"'] = word ++ ['R'] ++ ['"'] by simp]
        exact isSpace_last_append rfl rfl
      · obtain rfl : r = [] := List.eq_nil_of_length_eq_zero (by simpa using hall)
        exact .inl rfl

end

end EastConst.Lexeme
