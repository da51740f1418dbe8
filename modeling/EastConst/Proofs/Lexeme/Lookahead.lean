import EastConst.Proofs.Lexeme.Reading

/-!
# Lexemes in another text

When does a lexeme that was read before one text stay the same before another? A literal or block
comment that is closed always does (`Reads.of_closed`). What has to stop at the end of its line
needs the same line break after it (`Reads.of_stopsLike`). Words, numbers, punctuators and strays
see at most two characters ahead: `HaltsLike r r'` says that none of them goes on into `r'` that
stopped before `r` (`Reads.of_haltsLike`). A plan joins two lexemes only where the first one still
has its length (`Reads.of_length`).
-/

namespace EastConst.Lexeme

/-- Whether lexemes of a kind end where what follows cannot belong to them. -/
def Kind.isOpenEnded : Kind → Bool
  | .word | .number | .punctuator | .stray => true
  | _ => false

/-- Whether a lexeme of a kind stops at the end of its line. -/
def Kind.isLineBound (kind : Kind) (closed : Bool) : Bool :=
  kind == .lineComment || (kind == .string || kind == .character) && !closed

/-- A lexeme that halts before `r` halts before `r'`. -/
inductive HaltsLike : List Char → List Char → Prop
  | nil {r : List Char} : HaltsLike r []
  | blank {r s : List Char} {c : Char} (h : Space.isSpace c = true ∨ c = '\\') :
    HaltsLike r (c :: s)
  | same {s s' : List Char} {c : Char} (hq : c ≠ '\'') (hp : c ≠ '.') : HaltsLike (c :: s) (c :: s')
  | point {s s' : List Char} (h : s'.head? = some '.' → s.head? = some '.') :
    HaltsLike ('.' :: s) ('.' :: s')
  | quote {s s' : List Char}
    (h : (∀ d ∈ s.head?, Number.isDigitLike d = false) →
      ∀ d ∈ s'.head?, Number.isDigitLike d = false) :
    HaltsLike ('\'' :: s) ('\'' :: s')

/-- A text that halts like another begins as it does, or with a blank. -/
theorem HaltsLike.head? {r r' : List Char} (h : HaltsLike r r') :
    r'.head? = r.head? ∨ ∀ c ∈ r'.head?, Space.isSpace c = true ∨ c = '\\' := by
  cases h with
  | nil => exact .inr (by simp)
  | blank h => exact .inr (by simpa using h)
  | same => exact .inl rfl
  | point => exact .inl rfl
  | quote => exact .inl rfl

section

variable {l r r' : List Char} {kind : Kind} {closed : Bool}

/-! ## Lexemes that are closed -/

/-- A closed literal or block comment is the same before any text. -/
theorem Reads.of_closed (h : Reads l r kind true)
    (hk : kind = .string ∨ kind = .character ∨ kind = .rawString ∨ kind = .blockComment)
    (r' : List Char) : Reads l r' kind true := by
  rcases hk with rfl | rfl | rfl | rfl
  · obtain ⟨word, hw, b, rfl, hb⟩ := reads_string_iff.1 h
    have := (Quoted.bodyLength_closed (by decide) hb).2.2 r'
    rw [List.take_left] at this
    exact reads_string_iff.2 ⟨word, hw, b, rfl, this⟩
  · obtain ⟨word, hw, b, rfl, hb⟩ := reads_character_iff.1 h
    have := (Quoted.bodyLength_closed (by decide) hb).2.2 r'
    rw [List.take_left] at this
    exact reads_character_iff.2 ⟨word, hw, b, rfl, this⟩
  · obtain ⟨word, hw, b, rfl, hb⟩ := reads_rawString_iff.1 h
    have := (Raw.bodyLength_closed hb).2 r'
    rw [List.take_left] at this
    exact reads_rawString_iff.2 ⟨word, hw, b, rfl, this⟩
  · obtain ⟨b, rfl, hb⟩ := reads_blockComment_iff.1 h
    have := (Comment.blockLength_closed hb).2 r'
    rw [List.take_left] at this
    exact reads_blockComment_iff.2 ⟨b, rfl, this⟩

/-! ## Lexemes that stop at the end of a line -/

/-- What stops at the end of its line is followed by a line break or the end of the text, and is the
same before any other text that stops it. -/
theorem Reads.of_stopsLike (h : Reads l r kind closed) (hk : kind.isLineBound closed = true) :
    (lineBreak? r).isSome ∧ ∀ r', StopsLike r r' → Reads l r' kind closed := by
  simp only [Kind.isLineBound, Bool.or_eq_true, Bool.and_eq_true, beq_iff_eq,
    Bool.not_eq_true'] at hk
  rcases hk with rfl | ⟨rfl | rfl, rfl⟩
  · obtain ⟨rfl, b, rfl, hb⟩ := reads_lineComment_iff.1 h
    have hline := Comment.lineLength_take_append (b ++ r)
    rw [hb, List.take_left, List.drop_left] at hline
    exact ⟨hline.2.1, fun r' hr => reads_lineComment_iff.2 ⟨rfl, b, rfl, hline.2.2 r' hr⟩⟩
  · obtain ⟨word, hw, b, rfl, hb⟩ := reads_string_iff.1 h
    have hline := Quoted.bodyLength_open hb
    rw [List.take_left, List.drop_left] at hline
    exact ⟨hline.2.1, fun r' hr => reads_string_iff.2 ⟨word, hw, b, rfl, hline.2.2 r' hr⟩⟩
  · obtain ⟨word, hw, b, rfl, hb⟩ := reads_character_iff.1 h
    have hline := Quoted.bodyLength_open hb
    rw [List.take_left, List.drop_left] at hline
    exact ⟨hline.2.1, fun r' hr => reads_character_iff.2 ⟨word, hw, b, rfl, hline.2.2 r' hr⟩⟩

/-! ## Lexemes that run to the end of the text -/

/-- An open block comment runs to the end of the text. -/
theorem Reads.blockComment_open (h : Reads l r .blockComment false) : r = [] := by
  obtain ⟨b, rfl, hb⟩ := reads_blockComment_iff.1 h
  simpa using Comment.blockLength_open hb

/-- An open raw string runs to the end of the text, unless it is its opening alone. -/
theorem Reads.rawString_open (h : Reads l r .rawString false) :
    r = [] ∨ ∃ word ∈ encodings, l = word ++ ['R', '"'] ∧ Raw.bodyLength r = (0, false) := by
  obtain ⟨word, hw, b, rfl, hb⟩ := reads_rawString_iff.1 h
  rcases Raw.bodyLength_open hb with h0 | hall
  · obtain rfl : b = [] := List.length_eq_zero_iff.1 h0
    exact .inr ⟨word, hw, by simp, hb⟩
  · exact .inl (by simpa using hall)

/-! ## Words, numbers, punctuators and strays -/

/-- A word opens no literal exactly if no quote follows it that it is an encoding for. -/
theorem literal?_eq_none_iff {word rest : List Char} :
    literal? word rest = none ↔
      (rest.head? = some '"' → word ∉ encodings ∧ ∀ w ∈ encodings, w ++ ['R'] ≠ word) ∧
      (rest.head? = some '\'' → word ∉ encodings) := by
  unfold literal?
  split
  · by_cases hw : word ∈ encodings
    · simp [hw]
    · by_cases hR : ∃ w ∈ encodings, w ++ ['R'] = word
      · simp [hw, hR]
      · simp [hw, hR]
        simpa using hR
  · simp
  · rename_i h1 h2
    cases rest with
    | nil => simp
    | cons c s =>
      have hc : c ≠ '"' ∧ c ≠ '\'' := ⟨fun h => h1 s (h ▸ rfl), fun h => h2 s (h ▸ rfl)⟩
      simp [hc]

theorem isWordChar_of_blank {c : Char} (h : Space.isSpace c = true ∨ c = '\\') :
    isWordChar c = false := by
  refine Bool.eq_false_iff.2 fun hw => ?_
  obtain ⟨hs, hb, -⟩ := isSpace_of_isWordChar hw
  rcases h with h | h
  · simp [hs] at h
  · exact hb h

/-- A word stays a word before a text that halts like the one after it. -/
theorem Reads.word_of_haltsLike (h : Reads l r .word closed) (hr : HaltsLike r r') :
    Reads l r' .word closed := by
  obtain ⟨rfl, hne, hw, hhead, hlit⟩ := reads_word_iff.1 h
  rw [literal?_eq_none_iff] at hlit
  rcases hr.head? with heq | hblank
  · rw [← heq] at hhead hlit
    exact reads_word_iff.2 ⟨rfl, hne, hw, hhead, literal?_eq_none_iff.2 hlit⟩
  · refine reads_word_iff.2 ⟨rfl, hne, hw, fun c hc => isWordChar_of_blank (hblank c hc),
      literal?_eq_none_iff.2 ⟨fun hq => ?_, fun hq => ?_⟩⟩
    · exact absurd (hblank _ hq) (by decide)
    · exact absurd (hblank _ hq) (by decide)

namespace Number

theorem isWordChar_of_isDigitLike {c : Char} (h : isDigitLike c = true) : isWordChar c = true := by
  simp only [isDigitLike, Bool.or_eq_true] at h
  rcases h with h | h <;> simp [isWordChar, h]

theorem isDigitLike_of_isExponent {c : Char} (h : isExponent c = true) : isDigitLike c = true := by
  simp only [isExponent, Bool.or_eq_true, beq_iff_eq] at h
  rcases h with ((rfl | rfl) | rfl) | rfl <;> decide

/-- A number goes on with a character like a digit, a point, or a separator before such a
character. -/
theorem tailLength_eq_zero_iff {t : List Char} :
    tailLength t = 0 ↔ ∀ c ∈ t.head?, isDigitLike c = false ∧ c ≠ '.' ∧
      (c = '\'' → ∀ d ∈ t.tail.head?, isDigitLike d = false) := by
  cases t with
  | nil => simp [tailLength]
  | cons c t =>
    by_cases hc : isDigitLike c = true ∨ c = '.'
    · have hq : c ≠ '\'' := by
        rintro rfl; revert hc; decide
      have hgo : (isDigitLike c || c == '.') = true := by simpa using hc
      have hpos : tailLength (c :: t) ≠ 0 := by
        cases t with
        | nil => simp [tailLength, hgo]
        | cons d t =>
          simp only [tailLength, beq_iff_eq, if_neg hq, hgo, if_true]
          split <;> simp
      refine ⟨fun h => absurd h hpos, fun h => ?_⟩
      obtain ⟨h1, h2, -⟩ := h c rfl
      rcases hc with hc | hc
      · simp [hc] at h1
      · exact absurd hc h2
    · obtain ⟨hd, hp⟩ := not_or.1 hc
      have he : isExponent c = false :=
        Bool.eq_false_iff.2 fun he => hd (isDigitLike_of_isExponent he)
      cases t with
      | nil => simp [tailLength, hd, hp]
      | cons d t =>
        by_cases hq : c = '\''
        · have hd' : isDigitLike '\'' = false := by decide
          simp [tailLength, hq, hd']
        · simp [tailLength, hd, hp, he, hq]

/-- Where a number stops, the text goes on with none. -/
theorem tailLength_rest {r : List Char} :
    ∀ {b : List Char}, tailLength (b ++ r) = b.length → tailLength r = 0
  | [], h => by simpa using h
  | [c], h => by
    cases r with
    | nil => rfl
    | cons d t =>
      simp only [List.singleton_append, tailLength, List.length_singleton] at h
      split at h
      · split at h <;> omega
      · split at h
        · omega
        · split at h
          · omega
          · omega
  | c :: d :: b, h => by
    simp only [List.cons_append, tailLength, List.length_cons] at h
    split at h
    · split at h
      · exact tailLength_rest (Nat.add_right_cancel h)
      · cases h
    · split at h
      · exact tailLength_rest (Nat.add_right_cancel h)
      · split at h
        · exact tailLength_rest (b := d :: b) (by simpa using h)
        · cases h

/-- A number that has stopped before a text stops before one that halts like it. -/
theorem tailLength_of_haltsLike (h : tailLength r = 0) (hr : HaltsLike r r') :
    tailLength r' = 0 ∧ (signAhead r' → signAhead r) := by
  have hdigit {c : Char} (hc : Space.isSpace c = true ∨ c = '\\') :
      isDigitLike c = false ∧ c ≠ '.' ∧ c ≠ '\'' ∧ isSign c = false := by
    have hw := isWordChar_of_blank hc
    refine ⟨Bool.eq_false_iff.2 fun hd => ?_, ?_, ?_, Bool.eq_false_iff.2 fun hs => ?_⟩
    · simp [isWordChar_of_isDigitLike hd] at hw
    · rintro rfl; revert hc; decide
    · rintro rfl; revert hc; decide
    · simp only [isSign, Bool.or_eq_true, beq_iff_eq] at hs
      rcases hs with rfl | rfl <;> revert hc <;> decide
  rw [tailLength_eq_zero_iff] at h ⊢
  cases hr with
  | nil => simp [signAhead]
  | blank hc =>
    obtain ⟨hd, hp, hq, hs⟩ := hdigit hc
    simp [signAhead, hd, hp, hq, hs]
  | same hq hp =>
    obtain ⟨hd, -⟩ := h _ rfl
    simp [signAhead, hd, hp, hq]
  | point => exact absurd rfl (h _ rfl).2.1
  | quote himp =>
    obtain ⟨hd, hp, hnext⟩ := h _ rfl
    refine ⟨?_, fun hs => hs⟩
    intro c hc
    obtain rfl : '\'' = c := by simpa using hc
    exact ⟨hd, hp, fun _ => himp (hnext rfl)⟩

/-- A number is a start and what continues it. -/
theorem length_append {l r : List Char} (hne : l ≠ []) (h : length (l ++ r) = l.length) :
    ∃ b, tailLength (b ++ r) = b.length ∧
      ∀ s, tailLength (b ++ s) = b.length → length (l ++ s) = l.length := by
  have hpos : length (l ++ r) ≠ 0 := by rw [h]; simpa using hne
  obtain ⟨c, l, rfl⟩ := List.exists_cons_of_ne_nil hne
  obtain ⟨c', u, heq, hc⟩ := length_ne_zero hpos
  obtain rfl : c = c' := (List.cons.inj heq).1
  rcases hc with hd | rfl
  · rw [List.cons_append, length_of_isDigit hd] at h
    refine ⟨l, by simpa using h, fun s hs => ?_⟩
    rw [List.cons_append, length_of_isDigit hd, hs, List.length_cons]
  · cases l with
    | nil =>
      cases r with
      | nil => exact absurd rfl hpos
      | cons d r =>
        simp only [List.singleton_append, length, List.length_singleton] at h
        split at h <;> omega
    | cons d b =>
      have hd : d.isDigit = true := by
        refine Decidable.byContradiction fun hd => hpos ?_
        simp [length, hd]
      simp only [List.cons_append, length, hd, if_true, List.length_cons] at h ⊢
      exact ⟨b, by omega, fun s hs => by omega⟩

end Number

theorem Reads.number_of_haltsLike (h : Reads l r .number closed) (hr : HaltsLike r r') :
    Reads l r' .number closed := by
  obtain ⟨rfl, hne, hlen⟩ := reads_number_iff.1 h
  obtain ⟨b, hb, hs⟩ := Number.length_append hne hlen
  obtain ⟨hstop, hsign⟩ := Number.tailLength_of_haltsLike (Number.tailLength_rest hb) hr
  exact reads_number_iff.2 ⟨rfl, hne, hs r' (Number.tailLength_append hstop hsign hb)⟩

/-- A spelling that goes on from another goes on from it by a spelling of one more character, but
for the three points. -/
theorem Punctuator.spellings_extend {c : Char} {q : List Char} (hl : l ∈ spellings)
    (hp : l ++ c :: q ∈ spellings) :
    l ++ [c] ∈ spellings ∨ l = ['.'] ∧ c :: q = ['.', '.'] := by
  have hall : ∀ p ∈ spellings, ∀ n ∈ List.range p.length, p.take n ∈ spellings →
      p.take (n + 1) ∈ spellings ∨ p.take n = ['.'] ∧ p.drop n = ['.', '.'] := by
    decide +kernel
  have := hall _ hp l.length (by simp) (by simpa using hl)
  rwa [List.take_length_add_append, List.take_left, List.drop_left] at this

theorem Punctuator.not_blank_of_mem {p : List Char} (hp : p ∈ spellings) :
    ∀ c ∈ p, ¬ (Space.isSpace c = true ∨ c = '\\') := by
  have hall : ∀ p ∈ spellings, (p.all fun c => ¬ (Space.isSpace c = true ∨ c = '\\')) = true := by
    decide
  intro c hc
  exact of_decide_eq_true (List.all_eq_true.1 (hall p hp) c hc)

theorem Reads.punctuator_of_haltsLike (h : Reads l r .punctuator closed) (hr : HaltsLike r r') :
    Reads l r' .punctuator closed := by
  obtain ⟨rfl, hl, hmax, hslash, hpoint⟩ := reads_punctuator_iff.1 h
  refine reads_punctuator_iff.2 ⟨rfl, hl, fun p hp hpre => ?_, ?_, ?_⟩
  · refine Decidable.byContradiction fun hlt => ?_
    -- a longer spelling goes on into `r'`, so its next character is the first one there
    obtain ⟨q, rfl⟩ := List.prefix_of_prefix_length_le (List.prefix_append l r') hpre (by omega)
    obtain ⟨c, q, rfl⟩ : ∃ c u, q = c :: u := by
      cases q with
      | nil => simp at hlt
      | cons c u => exact ⟨c, u, rfl⟩
    have hq : c :: q <+: r' := (List.prefix_append_right_inj l).1 hpre
    have hc : ¬ (Space.isSpace c = true ∨ c = '\\') :=
      Punctuator.not_blank_of_mem hp c (by simp)
    obtain ⟨u, rfl⟩ := hq
    rcases Punctuator.spellings_extend hl hp with hmem | ⟨rfl, hpoints⟩
    · obtain ⟨s, rfl⟩ : ∃ s, r = c :: s := by
        rcases hr.head? with heq | hblank
        · exact List.head?_eq_some_iff.1 heq.symm
        · exact absurd (hblank c rfl) hc
      have := hmax _ hmem ⟨s, by simp⟩
      simp only [List.length_append, List.length_cons] at this
      omega
    · obtain ⟨rfl, rfl⟩ : c = '.' ∧ q = ['.'] := by simpa using hpoints
      cases hr with
      | blank hc' => exact hc hc'
      | same _ hne => exact hne rfl
      | point himp =>
        obtain ⟨s, rfl⟩ := List.head?_eq_some_iff.1 (himp rfl)
        have := hmax ['.', '.', '.'] (by decide) ⟨s, rfl⟩
        simp at this
  · intro hl' c hc
    rcases hr.head? with heq | hblank
    · exact hslash hl' c (heq ▸ hc)
    · have := hblank c hc
      refine ⟨?_, ?_⟩ <;> rintro rfl <;> revert this <;> decide
  · intro hl' c hc
    rcases hr.head? with heq | hblank
    · exact hpoint hl' c (heq ▸ hc)
    · refine Bool.eq_false_iff.2 fun hd => ?_
      simpa [isWordChar_of_isDigit hd] using isWordChar_of_blank (hblank c hc)

/-- Words, numbers, punctuators and strays stay the same before a text that they halt before. Only a
lone backslash sees more: it must not come to stand at the end of a line. -/
theorem Reads.of_haltsLike (h : Reads l r kind closed) (hk : kind.isOpenEnded = true)
    (hr : HaltsLike r r') (hb : l = ['\\'] → breaksLine r' = false) : Reads l r' kind closed := by
  cases kind with
  | word => exact h.word_of_haltsLike hr
  | number => exact h.number_of_haltsLike hr
  | punctuator => exact h.punctuator_of_haltsLike hr
  | stray =>
    obtain ⟨rfl, c, rfl, hc, -⟩ := reads_stray_iff.1 h
    exact reads_stray_iff.2 ⟨rfl, c, rfl, hc, fun hc' => hb (by rw [hc'])⟩
  | _ => cases hk

/-! ## Whitespace -/

namespace Space

/-- Whether a text is nothing but blanks and continuations. -/
def IsRun (w : List Char) : Prop := runLength w = w.length

instance (w : List Char) : Decidable (IsRun w) := inferInstanceAs (Decidable (_ = _))

theorem runLength_append {w : List Char} (h : IsRun w) (x : List Char) :
    runLength (w ++ x) = w.length + runLength x := by
  unfold IsRun at h
  fun_induction runLength w with
  | case1 text ih =>
    simp [runLength, ih (by simpa using h)]
    omega
  | case2 text ih =>
    simp [runLength, ih (by simpa using h)]
    omega
  | case3 c text h1 h2 hc ih =>
    have hb : c ≠ '\\' := by rintro rfl; revert hc; decide
    simp [runLength, hb, hc, ih (by simpa using h)]
    omega
  | case4 c text h1 h2 hc => simp at h
  | case5 => simp

/-- A text is its run and a text that starts with none. -/
theorem exists_run (t : List Char) :
    ∃ w y, t = w ++ y ∧ IsRun w ∧ runLength t = w.length ∧ runLength y = 0 := by
  unfold IsRun
  fun_induction runLength t with
  | case1 text ih =>
    obtain ⟨w, y, rfl, hw, hlen, hy⟩ := ih
    exact ⟨'\\' :: '\n' :: w, y, rfl, by simp [runLength, hw], by simp [hlen], hy⟩
  | case2 text ih =>
    obtain ⟨w, y, rfl, hw, hlen, hy⟩ := ih
    exact ⟨'\\' :: '\r' :: '\n' :: w, y, rfl, by simp [runLength, hw], by simp [hlen], hy⟩
  | case3 c text h1 h2 hc ih =>
    obtain ⟨w, y, rfl, hw, hlen, hy⟩ := ih
    have hb : c ≠ '\\' := by rintro rfl; revert hc; decide
    exact ⟨c :: w, y, rfl, by simp [runLength, hb, hc, hw], by simp [hlen], hy⟩
  | case4 c text h1 h2 hc => exact ⟨[], c :: text, rfl, rfl, rfl, by simp [runLength, hc]⟩
  | case5 => exact ⟨[], [], rfl, rfl, rfl, rfl⟩

end Space

/-- Whitespace is recognised exactly where its scan takes something: it comes first among the
rules. -/
theorem recognise_whitespace_iff {t : List Char} {n : Nat} :
    recognise t = ⟨.whitespace, n, closed⟩ ↔ closed = true ∧ n ≠ 0 ∧ Space.length t = n := by
  constructor
  · intro h
    rcases recognise_cases h with ⟨hne, he⟩ | ⟨-, -, he⟩ | ⟨-, -, hw⟩ | ⟨-, -, -, he⟩
    · simp only [Extent.mk.injEq, true_and] at he
      exact ⟨he.2, by omega, he.1.symm⟩
    · cases he
    · simpa using wordOrLiteral?_kind hw
    · rcases symbol_kind t with hs | hs | hs | hs <;> simp [he] at hs
  · rintro ⟨rfl, hne, rfl⟩
    rw [recognise, if_pos hne]

/-- Whitespace is a run that a lone backslash may end. -/
theorem reads_whitespace_iff :
    Reads l r .whitespace closed ↔ closed = true ∧ ∃ w, w ≠ [] ∧ Space.IsRun w ∧
      (l = w ∧ Space.runLength r = 0 ∧ r.head? ≠ some '\\' ∨
        l = w ++ ['\\'] ∧ breaksLine r = false) := by
  rw [Reads, recognise_whitespace_iff]
  constructor
  · rintro ⟨rfl, hne, hlen⟩
    obtain ⟨w, y, ht, hw, hrun, hy⟩ := Space.exists_run (l ++ r)
    rw [Space.length, hrun] at hlen
    rw [ht, List.drop_left] at hlen
    refine ⟨rfl, w, ?_, hw, ?_⟩
    · rintro rfl
      simp at hlen
      omega
    · split at hlen
      · rename_i hc
        obtain ⟨z, rfl⟩ := List.head?_eq_some_iff.1 hc.2
        obtain ⟨rfl, rfl⟩ : l = w ++ ['\\'] ∧ r = z :=
          List.append_inj (by simpa using ht) (by simpa using hlen.symm)
        exact .inr ⟨rfl, (Space.runLength_cons_eq_zero_iff.1 hy).2 rfl⟩
      · rename_i hc
        obtain ⟨rfl, rfl⟩ := List.append_inj ht hlen.symm
        exact .inl ⟨rfl, hy, fun hh => hc ⟨by simpa using hne, hh⟩⟩
  · rintro ⟨rfl, w, hne, hw, ⟨rfl, hr, hh⟩ | ⟨rfl, hr⟩⟩
    · have hrun := Space.runLength_append hw r
      rw [hr, Nat.add_zero] at hrun
      refine ⟨rfl, by simpa using hne, ?_⟩
      simp [Space.length, hrun, hh]
    · have hrun := Space.runLength_append hw ('\\' :: r)
      rw [Space.runLength_cons_eq_zero_iff.2 ⟨by decide, fun _ => hr⟩, Nat.add_zero] at hrun
      refine ⟨rfl, by simp, ?_⟩
      simp [Space.length, hrun, hne]

/-! ## Lexemes by themselves -/

/-- A lexeme is a lexeme by itself. -/
theorem Reads.alone (h : Reads l r kind closed) : Reads l [] kind closed := by
  by_cases hopen : kind.isOpenEnded = true
  · exact h.of_haltsLike hopen .nil fun _ => rfl
  by_cases hline : kind.isLineBound closed = true
  · exact (h.of_stopsLike hline).2 [] (.inl rfl)
  cases kind with
  | word => exact absurd rfl hopen
  | number => exact absurd rfl hopen
  | punctuator => exact absurd rfl hopen
  | stray => exact absurd rfl hopen
  | lineComment => exact absurd rfl hline
  | whitespace =>
    obtain ⟨rfl, w, hne, hw, ⟨rfl, -⟩ | ⟨rfl, -⟩⟩ := reads_whitespace_iff.1 h
    · exact reads_whitespace_iff.2 ⟨rfl, _, hne, hw, .inl ⟨rfl, rfl, by simp⟩⟩
    · exact reads_whitespace_iff.2 ⟨rfl, _, hne, hw, .inr ⟨rfl, rfl⟩⟩
  | string =>
    cases closed with
    | false => exact absurd rfl hline
    | true => exact h.of_closed (by simp) []
  | character =>
    cases closed with
    | false => exact absurd rfl hline
    | true => exact h.of_closed (by simp) []
  | blockComment =>
    cases closed with
    | false => exact h.blockComment_open ▸ h
    | true => exact h.of_closed (by simp) []
  | rawString =>
    cases closed with
    | true => exact h.of_closed (by simp) []
    | false =>
      rcases h.rawString_open with rfl | ⟨word, hw, rfl, -⟩
      · exact h
      · exact reads_rawString_iff.2 ⟨word, hw, [], by simp, rfl⟩

/-- Two readings of one lexeme have the same kind. -/
theorem Reads.unique {kind' : Kind} {closed' : Bool} (h : Reads l r kind closed)
    (h' : Reads l r' kind' closed') : kind' = kind ∧ closed' = closed := by
  have := h'.alone.symm.trans h.alone
  simpa using this

/-- What still has its length before a text is the same lexeme there. -/
theorem Reads.of_length (h : Reads l r kind closed)
    (hr : (recognise (l ++ r')).length = l.length) : Reads l r' kind closed := by
  have h' : Reads l r' (recognise (l ++ r')).kind (recognise (l ++ r')).closed := by
    rw [Reads, ← hr]
  obtain ⟨hk, hc⟩ := h.unique h'
  rwa [hk, hc] at h'

end

end EastConst.Lexeme
