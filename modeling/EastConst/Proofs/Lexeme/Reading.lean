import EastConst.Proofs.Lexeme.Bodies

/-!
# What a lexeme sees of the text after it

`Reads l r kind closed` says that `l` is the lexeme at the start of `l ++ r`. For each kind there is
a statement of what that means, and from these follows how much of `r` matters.
-/

namespace EastConst.Lexeme

/-- `l` is the lexeme that the text `l ++ r` starts with. -/
def Reads (l r : List Char) (kind : Kind) (closed : Bool) : Prop :=
  recognise (l ++ r) = ⟨kind, l.length, closed⟩

theorem Reads.ne_nil {l r : List Char} {kind : Kind} {closed : Bool} (h : Reads l r kind closed) :
    l ≠ [] := by
  rintro rfl
  have := recognise_length_pos r
  rw [Reads, List.nil_append] at h
  rw [h] at this
  exact Nat.lt_irrefl 0 this

/-- Whether a text starts with a line break. -/
def breaksLine : List Char → Bool
  | '\n' :: _ => true
  | '\r' :: '\n' :: _ => true
  | _ => false

/-! ## Spaces -/

namespace Space

theorem length_eq_zero_iff {t : List Char} : length t = 0 ↔ runLength t = 0 := by
  unfold length
  dsimp only
  split
  · rename_i h
    exact ⟨fun h' => absurd h' (Nat.succ_ne_zero _), fun h' => absurd h' h.1⟩
  · rfl

theorem runLength_cons_eq_zero_iff {c : Char} {t : List Char} :
    runLength (c :: t) = 0 ↔ isSpace c = false ∧ (c = '\\' → breaksLine t = false) := by
  unfold runLength
  split <;> simp_all [breaksLine]

end Space

/-! ## The rules in turn -/

/-- The rules in the order in which they are tried: white space, numbers, words and literals,
symbols. -/
theorem recognise_cases {t : List Char} {e : Extent} (h : recognise t = e) :
    (Space.length t ≠ 0 ∧ e = ⟨.whitespace, Space.length t, true⟩) ∨
      (Space.length t = 0 ∧ Number.length t ≠ 0 ∧ e = ⟨.number, Number.length t, true⟩) ∨
      (Space.length t = 0 ∧ Number.length t = 0 ∧ wordOrLiteral? t = some e) ∨
      (Space.length t = 0 ∧ Number.length t = 0 ∧ wordOrLiteral? t = none ∧ symbol t = e) := by
  unfold recognise at h
  split at h
  · exact .inl ⟨‹_›, h.symm⟩
  · rename_i hs
    split at h
    · exact .inr (.inl ⟨by omega, ‹_›, h.symm⟩)
    · rename_i hn
      cases hw : wordOrLiteral? t with
      | none => exact .inr (.inr (.inr ⟨by omega, by omega, rfl, by simpa [hw] using h⟩))
      | some e' => exact .inr (.inr (.inl ⟨by omega, by omega, by simpa [hw] using h⟩))

/-- A text starts with a longest run of word characters, which may be empty. -/
theorem exists_word (t : List Char) :
    ∃ word rest, t = word ++ rest ∧ (∀ c ∈ word, isWordChar c = true) ∧
      (∀ c, rest.head? = some c → isWordChar c = false) := by
  refine ⟨t.takeWhile isWordChar, t.dropWhile isWordChar, ?_, ?_, ?_⟩
  · exact List.takeWhile_append_dropWhile.symm
  · exact List.all_eq_true.1 List.all_takeWhile
  · intro c hc
    have := List.head?_dropWhile_not isWordChar t
    rw [hc] at this
    simpa using this

theorem wordOrLiteral?_append {word rest : List Char} (hw : ∀ c ∈ word, isWordChar c = true)
    (hr : ∀ c, rest.head? = some c → isWordChar c = false) :
    wordOrLiteral? (word ++ rest) = (literal? word rest).or
      (if word.isEmpty then none else some { kind := .word, length := word.length }) := by
  have hword : (word ++ rest).takeWhile isWordChar = word := by
    rw [List.takeWhile_append_of_pos hw]
    cases rest with
    | nil => simp
    | cons c rest => simp [hr c rfl]
  unfold wordOrLiteral?
  dsimp only
  rw [hword, List.drop_left]
  cases literal? word rest <;> rfl

theorem symbol_kind (t : List Char) :
    (symbol t).kind = .lineComment ∨ (symbol t).kind = .blockComment ∨
      (symbol t).kind = .punctuator ∨ (symbol t).kind = .stray := by
  unfold symbol
  split
  · exact .inl rfl
  · exact .inr (.inl rfl)
  · dsimp only
    split
    · exact .inr (.inr (.inr rfl))
    · exact .inr (.inr (.inl rfl))

/-- A text that is cut `m` characters after an opening. -/
theorem cut_after_opening (opening : List Char) {l r t : List Char} {m : Nat}
    (h : l ++ r = opening ++ t) (hl : l.length = opening.length + m) :
    ∃ b, l = opening ++ b ∧ t = b ++ r ∧ b.length = m := by
  have hpre : opening <+: l :=
    List.prefix_of_prefix_length_le (h ▸ List.prefix_append opening t) (List.prefix_append l r)
      (by omega)
  obtain ⟨b, rfl⟩ := hpre
  refine ⟨b, rfl, ?_, by simpa using hl⟩
  rw [List.append_assoc] at h
  exact (List.append_cancel_left h).symm

/-! ## Literals -/

/-- The three kinds of literal: a string, a raw string and a character, each behind a word of its
own. -/
theorem literal?_eq_some {word rest : List Char} {e : Extent} (h : literal? word rest = some e) :
    (∃ body, rest = '"' :: body ∧ word ∈ encodings ∧
      e = ⟨.string, word.length + 1 + (Quoted.bodyLength '"' body).1,
        (Quoted.bodyLength '"' body).2⟩) ∨
    (∃ body, rest = '"' :: body ∧ (∃ w ∈ encodings, word = w ++ ['R']) ∧
      e = ⟨.rawString, word.length + 1 + (Raw.bodyLength body).1, (Raw.bodyLength body).2⟩) ∨
    (∃ body, rest = '\'' :: body ∧ word ∈ encodings ∧
      e = ⟨.character, word.length + 1 + (Quoted.bodyLength '\'' body).1,
        (Quoted.bodyLength '\'' body).2⟩) := by
  unfold literal? at h
  split at h
  · rename_i body
    split at h
    · rename_i hw
      exact .inl ⟨body, rfl, by simpa using hw, by simpa using h.symm⟩
    · split at h
      · rename_i hw
        obtain ⟨w, hmem, he⟩ := List.any_eq_true.1 hw
        exact .inr (.inl ⟨body, rfl, ⟨w, hmem, by simpa using (beq_iff_eq.1 he).symm⟩,
          by simpa using h.symm⟩)
      · cases h
  · rename_i body
    split at h
    · rename_i hw
      exact .inr (.inr ⟨body, rfl, by simpa using hw, by simpa using h.symm⟩)
    · cases h
  · cases h

/-- Whether a text has only characters of words and does not start with a digit. -/
def IsWord (word : List Char) : Prop :=
  (∀ c ∈ word, isWordChar c = true) ∧ ∀ c ∈ word.head?, c.isDigit = false

-- the characters of the word are tried, not all characters
instance : DecidablePred IsWord := fun word =>
  decidable_of_iff (word.all isWordChar = true ∧ (word.head?.all fun c => !c.isDigit) = true)
    (by cases word <;> simp [IsWord])

theorem isWord_of_mem_encodings {word : List Char} (h : word ∈ encodings) :
    IsWord word ∧ IsWord (word ++ ['R']) := by
  revert word
  decide

theorem isWordChar_of_isDigit {c : Char} (h : c.isDigit = true) : isWordChar c = true := by
  simp [isWordChar, Char.isAlphanum, h]

/-- A word character is no blank, point, quote or slash. -/
theorem isSpace_of_isWordChar {c : Char} (h : isWordChar c = true) :
    Space.isSpace c = false ∧ c ≠ '\\' ∧ c ≠ '.' ∧ c ≠ '"' ∧ c ≠ '\'' ∧ c ≠ '/' := by
  refine ⟨Bool.eq_false_iff.2 fun hs => ?_, ?_, ?_, ?_, ?_, ?_⟩
  · simp only [Space.isSpace, Bool.or_eq_true, beq_iff_eq] at hs
    rcases hs with (((((rfl | rfl) | rfl) | rfl) | rfl) | rfl) | rfl <;> revert h <;> decide
  all_goals rintro rfl; revert h; decide

theorem Number.length_eq_zero {c : Char} {t : List Char} (hd : c.isDigit = false) (hc : c ≠ '.') :
    Number.length (c :: t) = 0 := by
  unfold Number.length
  split
  · simp_all
  · simp_all
  · rfl

theorem Number.length_of_isDigit {c : Char} {t : List Char} (hd : c.isDigit = true) :
    Number.length (c :: t) = Number.tailLength t + 1 := by
  unfold Number.length
  split
  · rename_i heq
    obtain ⟨rfl, -⟩ := List.cons.inj heq
    exact absurd hd (by decide)
  · rename_i heq
    obtain ⟨rfl, rfl⟩ := List.cons.inj heq
    simp [hd]
  · rename_i heq
    cases heq

/-- What starts with a character that is neither space nor digit nor point is a word, a literal or a
symbol. -/
theorem recognise_cons {c : Char} {t : List Char} (hs : Space.isSpace c = false) (hb : c ≠ '\\')
    (hd : c.isDigit = false) (hp : c ≠ '.') :
    recognise (c :: t) = (wordOrLiteral? (c :: t)).getD (symbol (c :: t)) := by
  have h0 : Space.length (c :: t) = 0 :=
    Space.length_eq_zero_iff.2 (Space.runLength_cons_eq_zero_iff.2 ⟨hs, fun h => absurd h hb⟩)
  have h1 := Number.length_eq_zero (t := t) hd hp
  simp [recognise, h0, h1]

theorem recognise_of_literal? {word rest : List Char} {e : Extent}
    (hw : IsWord word) (h : literal? word rest = some e) : recognise (word ++ rest) = e := by
  have hquote : ∃ q body, rest = q :: body ∧ (q = '"' ∨ q = '\'') := by
    rcases literal?_eq_some h with ⟨b, rfl, -⟩ | ⟨b, rfl, -⟩ | ⟨b, rfl, -⟩
    · exact ⟨_, _, rfl, .inl rfl⟩
    · exact ⟨_, _, rfl, .inl rfl⟩
    · exact ⟨_, _, rfl, .inr rfl⟩
  obtain ⟨q, body, rfl, hq⟩ := hquote
  have hqw : isWordChar q = false ∧ Space.isSpace q = false ∧ q ≠ '\\' ∧ q.isDigit = false ∧
      q ≠ '.' := by
    rcases hq with rfl | rfl <;> decide
  have hlit : wordOrLiteral? (word ++ q :: body) = some e := by
    rw [wordOrLiteral?_append hw.1 (by simp [hqw.1]), h]
    rfl
  cases word with
  | nil =>
    rw [List.nil_append] at hlit ⊢
    rw [recognise_cons hqw.2.1 hqw.2.2.1 hqw.2.2.2.1 hqw.2.2.2.2, hlit]
    rfl
  | cons c word =>
    obtain ⟨hs, hb, hp, -⟩ := isSpace_of_isWordChar (hw.1 c List.mem_cons_self)
    rw [List.cons_append] at hlit ⊢
    rw [recognise_cons hs hb (hw.2 c rfl) hp, hlit]
    rfl

theorem wordOrLiteral?_eq_some {t : List Char} {e : Extent} (h : wordOrLiteral? t = some e) :
    ∃ word rest, t = word ++ rest ∧ (∀ c ∈ word, isWordChar c = true) ∧
      (∀ c, rest.head? = some c → isWordChar c = false) ∧
      (literal? word rest = some e ∨
        literal? word rest = none ∧ word ≠ [] ∧ e = ⟨.word, word.length, true⟩) := by
  obtain ⟨word, rest, rfl, hw, hr⟩ := exists_word t
  rw [wordOrLiteral?_append hw hr] at h
  refine ⟨word, rest, rfl, hw, hr, ?_⟩
  cases hl : literal? word rest with
  | some e' => exact .inl (by simpa [hl] using h)
  | none =>
    refine .inr ⟨rfl, ?_⟩
    rw [hl, Option.none_or] at h
    split at h
    · cases h
    · rename_i hne
      exact ⟨by simpa using hne, by simpa using h.symm⟩

theorem wordOrLiteral?_kind {t : List Char} {e : Extent} (h : wordOrLiteral? t = some e) :
    e.kind = .word ∨ e.kind = .string ∨ e.kind = .character ∨ e.kind = .rawString := by
  obtain ⟨word, rest, -, -, -, hl | ⟨-, -, rfl⟩⟩ := wordOrLiteral?_eq_some h
  · rcases literal?_eq_some hl with ⟨_, _, _, rfl⟩ | ⟨_, _, _, rfl⟩ | ⟨_, _, _, rfl⟩ <;> simp
  · exact .inl rfl

/-- A literal is read off by the rule for literals. -/
theorem literal?_of_recognise {t : List Char} {e : Extent} (h : recognise t = e)
    (hk : e.kind = .string ∨ e.kind = .character ∨ e.kind = .rawString) :
    ∃ word rest, t = word ++ rest ∧ literal? word rest = some e := by
  rcases recognise_cases h with ⟨-, rfl⟩ | ⟨-, -, rfl⟩ | ⟨-, -, hw⟩ | ⟨-, -, -, rfl⟩
  · simp at hk
  · simp at hk
  · obtain ⟨word, rest, ht, -, -, hl | ⟨-, -, rfl⟩⟩ := wordOrLiteral?_eq_some hw
    · exact ⟨word, rest, ht, hl⟩
    · simp at hk
  · rcases symbol_kind t with hs | hs | hs | hs <;> simp [hs] at hk

section Literals

variable {l r : List Char} {closed : Bool}

/-- A string is read exactly where an encoding, a quote and a body as long as the scan finds it
stand. -/
theorem reads_string_iff :
    Reads l r .string closed ↔ ∃ word ∈ encodings, ∃ b, l = word ++ ['"'] ++ b ∧
      Quoted.bodyLength '"' (b ++ r) = (b.length, closed) := by
  constructor
  · intro h
    obtain ⟨word, rest, ht, hl⟩ := literal?_of_recognise h (.inl rfl)
    rcases literal?_eq_some hl with ⟨body, rfl, hw, he⟩ | ⟨_, _, _, he⟩ | ⟨_, _, _, he⟩
    · simp only [Extent.mk.injEq, true_and] at he
      obtain ⟨b, rfl, rfl, hb⟩ := cut_after_opening (word ++ ['"']) (t := body)
        (by simpa using ht) (by simpa using he.1)
      exact ⟨word, hw, b, rfl, Prod.ext hb.symm he.2.symm⟩
    · cases he
    · cases he
  · rintro ⟨word, hw, b, rfl, hb⟩
    have hl : literal? word ('"' :: (b ++ r)) =
        some ⟨.string, (word ++ ['"'] ++ b).length, closed⟩ := by
      simp [literal?, hw, hb]
      omega
    simpa [Reads] using recognise_of_literal? (isWord_of_mem_encodings hw).1 hl

theorem reads_character_iff :
    Reads l r .character closed ↔ ∃ word ∈ encodings, ∃ b, l = word ++ ['\''] ++ b ∧
      Quoted.bodyLength '\'' (b ++ r) = (b.length, closed) := by
  constructor
  · intro h
    obtain ⟨word, rest, ht, hl⟩ := literal?_of_recognise h (.inr (.inl rfl))
    rcases literal?_eq_some hl with ⟨_, _, _, he⟩ | ⟨_, _, _, he⟩ | ⟨body, rfl, hw, he⟩
    · cases he
    · cases he
    · simp only [Extent.mk.injEq, true_and] at he
      obtain ⟨b, rfl, rfl, hb⟩ := cut_after_opening (word ++ ['\'']) (t := body)
        (by simpa using ht) (by simpa using he.1)
      exact ⟨word, hw, b, rfl, Prod.ext hb.symm he.2.symm⟩
  · rintro ⟨word, hw, b, rfl, hb⟩
    have hl : literal? word ('\'' :: (b ++ r)) =
        some ⟨.character, (word ++ ['\''] ++ b).length, closed⟩ := by
      simp [literal?, hw, hb]
      omega
    simpa [Reads] using recognise_of_literal? (isWord_of_mem_encodings hw).1 hl

theorem raw_not_mem_encodings {word : List Char} (h : word ∈ encodings) :
    word ++ ['R'] ∉ encodings := by
  revert word
  decide

theorem reads_rawString_iff :
    Reads l r .rawString closed ↔ ∃ word ∈ encodings, ∃ b, l = word ++ ['R', '"'] ++ b ∧
      Raw.bodyLength (b ++ r) = (b.length, closed) := by
  constructor
  · intro h
    obtain ⟨word, rest, ht, hl⟩ := literal?_of_recognise h (.inr (.inr rfl))
    rcases literal?_eq_some hl with ⟨_, _, _, he⟩ | ⟨body, rfl, ⟨w, hw, rfl⟩, he⟩ | ⟨_, _, _, he⟩
    · cases he
    · simp only [Extent.mk.injEq, true_and] at he
      obtain ⟨b, rfl, rfl, hb⟩ := cut_after_opening (w ++ ['R', '"']) (t := body)
        (by simpa using ht) (by simpa using he.1)
      exact ⟨w, hw, b, rfl, Prod.ext hb.symm he.2.symm⟩
    · cases he
  · rintro ⟨word, hw, b, rfl, hb⟩
    have hl : literal? (word ++ ['R']) ('"' :: (b ++ r)) =
        some ⟨.rawString, (word ++ ['R', '"'] ++ b).length, closed⟩ := by
      simp [literal?, raw_not_mem_encodings hw, hw, hb]
      omega
    simpa [Reads] using recognise_of_literal? (isWord_of_mem_encodings hw).2 hl

end Literals

/-! ## Words -/

section Words

variable {l r : List Char} {closed : Bool}

/-- A word is read exactly where a run of word characters ends that opens no literal. -/
theorem reads_word_iff :
    Reads l r .word closed ↔ closed = true ∧ l ≠ [] ∧ IsWord l ∧
      (∀ c ∈ r.head?, isWordChar c = false) ∧ literal? l r = none := by
  constructor
  · intro h
    rcases recognise_cases h with ⟨-, he⟩ | ⟨-, -, he⟩ | ⟨-, hn, hw⟩ | ⟨-, -, -, he⟩
    · cases he
    · cases he
    · obtain ⟨word, rest, ht, hw, hr, hl | ⟨hl, hne, he⟩⟩ := wordOrLiteral?_eq_some hw
      · rcases literal?_eq_some hl with ⟨_, _, _, he⟩ | ⟨_, _, _, he⟩ | ⟨_, _, _, he⟩ <;> cases he
      · simp only [Extent.mk.injEq, true_and] at he
        obtain ⟨rfl, rfl⟩ := List.append_inj ht he.1
        refine ⟨he.2, hne, ⟨hw, fun c hc => ?_⟩, fun c hc => hr c hc, hl⟩
        obtain ⟨l, rfl⟩ := List.head?_eq_some_iff.1 hc
        obtain ⟨-, -, hp, -⟩ := isSpace_of_isWordChar (hw c List.mem_cons_self)
        refine Bool.eq_false_iff.2 fun hd => ?_
        rw [List.cons_append, Number.length_of_isDigit hd] at hn
        cases hn
    · rcases symbol_kind (l ++ r) with hs | hs | hs | hs <;> simp [he] at hs
  · rintro ⟨rfl, hne, hw, hr, hl⟩
    obtain ⟨c, l, rfl⟩ := List.exists_cons_of_ne_nil hne
    obtain ⟨hs, hb, hp, -⟩ := isSpace_of_isWordChar (hw.1 c List.mem_cons_self)
    rw [Reads, List.cons_append, recognise_cons hs hb (hw.2 c rfl) hp, ← List.cons_append,
      wordOrLiteral?_append hw.1 hr, hl]
    rfl

end Words

/-! ## Numbers -/

theorem Number.length_ne_zero {t : List Char} (h : Number.length t ≠ 0) :
    ∃ c u, t = c :: u ∧ (c.isDigit = true ∨ c = '.') := by
  cases t with
  | nil => simp [Number.length] at h
  | cons c u =>
    refine ⟨c, u, rfl, ?_⟩
    cases hd : c.isDigit with
    | true => exact .inl rfl
    | false => exact .inr (Decidable.byContradiction fun hc => h (Number.length_eq_zero hd hc))

theorem Space.length_of_isDigit {c : Char} {t : List Char} (h : c.isDigit = true ∨ c = '.') :
    Space.length (c :: t) = 0 := by
  refine length_eq_zero_iff.2 (runLength_cons_eq_zero_iff.2 ?_)
  rcases h with h | rfl
  · obtain ⟨hs, hb, -⟩ := isSpace_of_isWordChar (isWordChar_of_isDigit h)
    exact ⟨hs, fun hc => absurd hc hb⟩
  · exact ⟨by decide, fun hc => absurd hc (by decide)⟩

/-- A number is read exactly where its length is the one that the scan finds. -/
theorem reads_number_iff {l r : List Char} {closed : Bool} :
    Reads l r .number closed ↔ closed = true ∧ l ≠ [] ∧ Number.length (l ++ r) = l.length := by
  constructor
  · intro h
    rcases recognise_cases h with ⟨-, he⟩ | ⟨-, -, he⟩ | ⟨-, -, hw⟩ | ⟨-, -, -, he⟩
    · cases he
    · simp only [Extent.mk.injEq, true_and] at he
      exact ⟨he.2, h.ne_nil, he.1.symm⟩
    · have := wordOrLiteral?_kind hw
      simp at this
    · rcases symbol_kind (l ++ r) with hs | hs | hs | hs <;> simp [he] at hs
  · rintro ⟨rfl, hne, hn⟩
    have hpos : Number.length (l ++ r) ≠ 0 := by
      rw [hn]; exact fun h0 => hne (List.length_eq_zero_iff.1 h0)
    obtain ⟨c, u, ht, hc⟩ := Number.length_ne_zero hpos
    have hs : Space.length (l ++ r) = 0 := by rw [ht]; exact Space.length_of_isDigit hc
    rw [Reads, recognise, if_neg (by simp [hs]), if_pos hpos, hn]

/-! ## Comments, punctuators, strays -/

/-- A symbol is read off where there is no space, number, word or literal. -/
theorem symbol_of_recognise {t : List Char} {e : Extent} (h : recognise t = e)
    (hk : e.kind = .lineComment ∨ e.kind = .blockComment ∨ e.kind = .punctuator ∨ e.kind = .stray) :
    Space.length t = 0 ∧ Number.length t = 0 ∧ wordOrLiteral? t = none ∧ symbol t = e := by
  rcases recognise_cases h with ⟨-, rfl⟩ | ⟨-, -, rfl⟩ | ⟨-, -, hw⟩ | hs
  · simp at hk
  · simp at hk
  · rcases wordOrLiteral?_kind hw with h | h | h | h <;> simp [h] at hk
  · exact hs

/-- A text that starts with nothing else starts with a symbol. -/
theorem recognise_symbol {c : Char} {t : List Char} (hs : Space.length (c :: t) = 0)
    (hn : Number.length (c :: t) = 0) (hw : isWordChar c = false) (hq : c ≠ '"' ∧ c ≠ '\'') :
    recognise (c :: t) = symbol (c :: t) := by
  have hnone : wordOrLiteral? (c :: t) = none := by
    have : wordOrLiteral? ([] ++ c :: t) = _ := wordOrLiteral?_append (by simp) (by simp [hw])
    simpa [literal?, hq] using this
  simp [recognise, hs, hn, hnone]

theorem recognise_slash (t : List Char) : recognise ('/' :: t) = symbol ('/' :: t) := by
  refine recognise_symbol (Space.length_eq_zero_iff.2 ?_) (Number.length_eq_zero ?_ ?_) ?_ ?_
  · exact Space.runLength_cons_eq_zero_iff.2 ⟨by decide, fun h => absurd h (by decide)⟩
  all_goals decide

section Symbols

variable {l r : List Char} {closed : Bool}

theorem reads_lineComment_iff :
    Reads l r .lineComment closed ↔ closed = true ∧ ∃ b, l = ['/', '/'] ++ b ∧
      Comment.lineLength (b ++ r) = b.length := by
  constructor
  · intro h
    obtain ⟨-, -, -, hs⟩ := symbol_of_recognise h (.inl rfl)
    unfold symbol at hs
    split at hs
    · rename_i body heq
      simp only [Extent.mk.injEq, true_and] at hs
      obtain ⟨b, rfl, rfl, hb⟩ := cut_after_opening ['/', '/'] heq
        (by simpa using hs.1.symm)
      exact ⟨hs.2.symm, b, rfl, hb.symm⟩
    · cases hs
    · dsimp only at hs
      split at hs <;> cases hs
  · rintro ⟨rfl, b, rfl, hb⟩
    rw [Reads, List.cons_append, List.cons_append, recognise_slash]
    simp [symbol, hb]
    omega

theorem reads_blockComment_iff :
    Reads l r .blockComment closed ↔ ∃ b, l = ['/', '*'] ++ b ∧
      Comment.blockLength (b ++ r) = (b.length, closed) := by
  constructor
  · intro h
    obtain ⟨-, -, -, hs⟩ := symbol_of_recognise h (.inr (.inl rfl))
    unfold symbol at hs
    split at hs
    · cases hs
    · rename_i body heq
      simp only [Extent.mk.injEq, true_and] at hs
      obtain ⟨b, rfl, rfl, hb⟩ := cut_after_opening ['/', '*'] heq
        (by simpa using hs.1.symm)
      exact ⟨b, rfl, Prod.ext hb.symm hs.2⟩
    · dsimp only at hs
      split at hs <;> cases hs
  · rintro ⟨b, rfl, hb⟩
    rw [Reads, List.cons_append, List.cons_append, recognise_slash]
    simp [symbol, hb]
    omega

end Symbols

namespace Punctuator

theorem foldl_max_le_iff {a n : Nat} {ns : List Nat} :
    ns.foldl max a ≤ n ↔ a ≤ n ∧ ∀ m ∈ ns, m ≤ n := by
  induction ns generalizing a with
  | nil => simp
  | cons m ns ih => rw [List.foldl_cons, ih, Nat.max_le, List.forall_mem_cons, and_assoc]

theorem foldl_max_mem (ns : List Nat) (a : Nat) : ns.foldl max a = a ∨ ns.foldl max a ∈ ns := by
  induction ns generalizing a with
  | nil => exact .inl rfl
  | cons m ns ih =>
    rw [List.foldl_cons]
    rcases ih (max a m) with h | h
    · rw [h]
      rcases Nat.le_total m a with hle | hle
      · exact .inl (Nat.max_eq_left hle)
      · exact .inr (by simp [Nat.max_eq_right hle])
    · exact .inr (List.mem_cons_of_mem _ h)

/-- The punctuator at the start of a text is as long as the longest spelling there. -/
theorem length_le_iff {t : List Char} {n : Nat} :
    length t ≤ n ↔ ∀ p ∈ spellings, p <+: t → p.length ≤ n := by
  simp only [length, foldl_max_le_iff, Nat.zero_le, true_and, List.mem_map, List.mem_filter,
    List.isPrefixOf_iff_prefix]
  constructor
  · intro h p hp hpre
    exact h _ ⟨p, ⟨hp, hpre⟩, rfl⟩
  · rintro h m ⟨p, ⟨hp, hpre⟩, rfl⟩
    exact h p hp hpre

theorem exists_of_length_ne_zero {t : List Char} (h : length t ≠ 0) :
    ∃ p ∈ spellings, p <+: t ∧ p.length = length t := by
  unfold length at h ⊢
  rcases foldl_max_mem ((spellings.filter (·.isPrefixOf t)).map List.length) 0 with h0 | hm
  · exact absurd h0 h
  · obtain ⟨p, hp, hlen⟩ := List.mem_map.1 hm
    obtain ⟨hmem, hpre⟩ := List.mem_filter.1 hp
    exact ⟨p, hmem, List.isPrefixOf_iff_prefix.1 hpre, hlen⟩

/-- A punctuator starts with a character that starts no word, literal or whitespace, and that is one
by itself. -/
theorem spellings_head {p : List Char} (h : p ∈ spellings) :
    ∃ c u, p = c :: u ∧ Space.isSpace c = false ∧ c ≠ '\\' ∧ c.isDigit = false ∧
      isWordChar c = false ∧ c ≠ '"' ∧ c ≠ '\'' ∧ [c] ∈ spellings := by
  cases p with
  | nil => exact absurd h (by decide)
  | cons c u =>
    refine ⟨c, u, rfl, ?_⟩
    have hall : ∀ p ∈ spellings, (p.head?.all fun c => Space.isSpace c = false ∧ c ≠ '\\' ∧
        c.isDigit = false ∧ isWordChar c = false ∧ c ≠ '"' ∧ c ≠ '\'' ∧ [c] ∈ spellings) =
          true := by
      decide
    exact of_decide_eq_true (hall _ h)

/-- No spelling opens a comment, and none goes on with a digit. -/
theorem spellings_second {c d : Char} {u : List Char} (h : c :: d :: u ∈ spellings) :
    (c = '/' → d ≠ '/' ∧ d ≠ '*') ∧ d.isDigit = false := by
  have hall : ∀ p ∈ spellings, (p.tail.head?.all fun d =>
      (p.head? = some '/' → d ≠ '/' ∧ d ≠ '*') ∧ d.isDigit = false) = true := by
    decide
  have := of_decide_eq_true (hall _ h)
  simpa using this

end Punctuator

theorem Number.length_point (t : List Char) :
    Number.length ('.' :: t) = 0 ↔ ∀ c ∈ t.head?, c.isDigit = false := by
  cases t with
  | nil => simp [Number.length]
  | cons d t => simp [Number.length]

section Symbols

variable {l r : List Char} {closed : Bool}

/-- A punctuator is read exactly where no longer one stands, and no comment or number starts. -/
theorem reads_punctuator_iff :
    Reads l r .punctuator closed ↔ closed = true ∧ l ∈ Punctuator.spellings ∧
      (∀ p ∈ Punctuator.spellings, p <+: l ++ r → p.length ≤ l.length) ∧
      (l = ['/'] → ∀ c ∈ r.head?, c ≠ '/' ∧ c ≠ '*') ∧
      (l = ['.'] → ∀ c ∈ r.head?, c.isDigit = false) := by
  constructor
  · intro h
    obtain ⟨-, hn, -, hs⟩ := symbol_of_recognise h (.inr (.inr (.inl rfl)))
    unfold symbol at hs
    split at hs
    · cases hs
    · cases hs
    · rename_i hline hblock
      dsimp only at hs
      split at hs
      · cases hs
      · rename_i hne
        simp only [Extent.mk.injEq, true_and] at hs
        obtain ⟨p, hp, hpre, hlen⟩ := Punctuator.exists_of_length_ne_zero hne
        obtain rfl : p = l :=
          (List.prefix_of_prefix_length_le hpre (List.prefix_append l r) (by omega)).eq_of_length
            (by omega)
        refine ⟨hs.2.symm, hp, Punctuator.length_le_iff.1 (by omega), ?_, ?_⟩
        · rintro rfl c hc
          obtain ⟨r, rfl⟩ := List.head?_eq_some_iff.1 hc
          refine ⟨?_, ?_⟩
          · rintro rfl; exact hline r rfl
          · rintro rfl; exact hblock r rfl
        · rintro rfl
          exact (Number.length_point r).1 hn
  · rintro ⟨rfl, hl, hmax, hslash, hpoint⟩
    have hlen : Punctuator.length (l ++ r) = l.length :=
      Nat.le_antisymm (Punctuator.length_le_iff.2 hmax)
        (Punctuator.length_le_iff.1 (Nat.le_refl _) l hl (List.prefix_append l r))
    obtain ⟨c, u, rfl, hs, hb, hd, hw, hq, hq', -⟩ := Punctuator.spellings_head hl
    have hnum : Number.length (c :: (u ++ r)) = 0 := by
      by_cases hc : c = '.'
      · subst hc
        refine (Number.length_point _).2 fun d hd => ?_
        cases u with
        | nil => exact hpoint rfl d hd
        | cons x u =>
          obtain rfl : x = d := by simpa using hd
          exact (Punctuator.spellings_second hl).2
      · exact Number.length_eq_zero hd hc
    rw [Reads, List.cons_append, recognise_symbol (Space.length_eq_zero_iff.2
      (Space.runLength_cons_eq_zero_iff.2 ⟨hs, fun h => absurd h hb⟩)) hnum hw ⟨hq, hq'⟩]
    have hcomment : c = '/' → ∀ x ∈ (u ++ r).head?, x ≠ '/' ∧ x ≠ '*' := by
      rintro rfl x hx
      cases u with
      | nil => exact hslash rfl x hx
      | cons y u =>
        obtain rfl : y = x := by simpa using hx
        exact (Punctuator.spellings_second hl).1 rfl
    rw [List.cons_append] at hlen
    unfold symbol
    split
    · rename_i heq
      obtain ⟨rfl, hrest⟩ := List.cons.inj heq
      exact absurd rfl (hcomment rfl '/' (by rw [hrest]; rfl)).1
    · rename_i heq
      obtain ⟨rfl, hrest⟩ := List.cons.inj heq
      exact absurd rfl (hcomment rfl '*' (by rw [hrest]; rfl)).2
    · simp [hlen]

/-- Whether a character has no part in the language. -/
def isStray (c : Char) : Bool :=
  !Space.isSpace c && !isWordChar c && c != '"' && c != '\'' && !Punctuator.spellings.contains [c]

theorem isStray_iff {c : Char} :
    isStray c = true ↔ Space.isSpace c = false ∧ isWordChar c = false ∧ c ≠ '"' ∧ c ≠ '\'' ∧
      [c] ∉ Punctuator.spellings := by
  simp [isStray, and_assoc]

/-- A stray is read exactly where a stray character stands, a backslash only if it continues no
line. -/
theorem reads_stray_iff :
    Reads l r .stray closed ↔ closed = true ∧ ∃ c, l = [c] ∧ isStray c = true ∧
      (c = '\\' → breaksLine r = false) := by
  constructor
  · intro h
    obtain ⟨hspace, hn, hw, hs⟩ := symbol_of_recognise h (.inr (.inr (.inr rfl)))
    unfold symbol at hs
    split at hs
    · cases hs
    · cases hs
    · dsimp only at hs
      split at hs
      · rename_i hlen
        simp only [Extent.mk.injEq, true_and] at hs
        obtain ⟨c, rfl⟩ := List.length_eq_one_iff.1 hs.1.symm
        rw [List.singleton_append] at hspace hw hlen
        obtain ⟨hsp, hbreak⟩ :=
          Space.runLength_cons_eq_zero_iff.1 (Space.length_eq_zero_iff.1 hspace)
        obtain ⟨word, rest, ht, hword, hrest⟩ := exists_word (c :: r)
        rw [ht, wordOrLiteral?_append hword hrest] at hw
        obtain ⟨hlit, hnil⟩ := Option.or_eq_none_iff.1 hw
        obtain rfl : word = [] := by simpa using hnil
        obtain rfl : rest = c :: r := ht.symm
        refine ⟨hs.2.symm, c, rfl, isStray_iff.2 ⟨hsp, hrest c rfl, ?_, ?_, ?_⟩, hbreak⟩
        · rintro rfl; simp [literal?, encodings] at hlit
        · rintro rfl; simp [literal?, encodings] at hlit
        · intro hmem
          have := Punctuator.length_le_iff.1 (Nat.le_of_eq hlen) [c] hmem ⟨r, rfl⟩
          exact absurd this (by simp)
      · cases hs
  · rintro ⟨rfl, c, rfl, hc, hbreak⟩
    obtain ⟨hs, hw, hq, hq', hp⟩ := isStray_iff.1 hc
    have hd : c.isDigit = false := by
      cases hd : c.isDigit with
      | false => rfl
      | true => simp [isWordChar_of_isDigit hd] at hw
    have hpoint : c ≠ '.' := by rintro rfl; exact hp (by decide)
    have hlen : Punctuator.length (c :: r) = 0 := by
      refine Nat.le_zero.1 (Punctuator.length_le_iff.2 fun p hmem hpre => ?_)
      obtain ⟨c', u, rfl, -, -, -, -, -, -, hself⟩ := Punctuator.spellings_head hmem
      obtain ⟨rfl, -⟩ := List.cons_prefix_cons.1 hpre
      exact absurd hself hp
    rw [Reads, List.singleton_append, recognise_symbol (Space.length_eq_zero_iff.2
      (Space.runLength_cons_eq_zero_iff.2 ⟨hs, hbreak⟩))
        (Number.length_eq_zero hd hpoint) hw ⟨hq, hq'⟩]
    unfold symbol
    split
    · rename_i heq
      obtain ⟨rfl, -⟩ := List.cons.inj heq
      exact absurd (by decide) hp
    · rename_i heq
      obtain ⟨rfl, -⟩ := List.cons.inj heq
      exact absurd (by decide) hp
    · simp [hlen]

end Symbols

end EastConst.Lexeme
