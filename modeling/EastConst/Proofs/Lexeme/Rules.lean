import Mathlib.Computability.Language
import EastConst.Proofs.Lexeme.Solid

/-!
# The rules of lexemes

Each kind of lexemes has a rule, a regular language (`Kind.language`). The rule of a comment or
literal is about its opening only. For each rule there is a statement of what its texts are in terms
of the scanners, and a text that a rule matches is by itself a lexeme of the kind of the rule
(`reads_of_mem_language`). So no text is matched by two rules.
-/

namespace EastConst.Lexeme

open scoped Computability

/-! ## The languages -/

/-- Whether a character is in one of some ranges, ends included. -/
def inRanges (ranges : List (Char × Char)) (c : Char) : Bool :=
  ranges.any fun (first, last) => first ≤ c && c ≤ last

/-- The texts of one character of some ranges. -/
def oneOf (ranges : List (Char × Char)) : Language Char :=
  {w | ∃ c, w = [c] ∧ inRanges ranges c = true}

/-- The characters that are blank. -/
def blankChars : List (Char × Char) :=
  [(' ', ' '), ('\t', '\t'), ('\r', '\r'), ('\n', '\n'), ('\x0B', '\x0B'), ('\x0C', '\x0C'),
   ('\uFEFF', '\uFEFF')]

/-- The digits. -/
def digitChars : List (Char × Char) :=
  [('0', '9')]

/-- The letters of ASCII and the underscore. -/
def letterChars : List (Char × Char) :=
  [('A', 'Z'), ('a', 'z'), ('_', '_')]

/-- The characters that a word starts with. -/
def wordStartChars : List (Char × Char) :=
  letterChars ++ [('$', '$'), ('\u0080', '\uFEFE'), ('\uFF00', Char.ofNat 0x10FFFF)]

/-- The characters that are a lexeme each, for want of a meaning. -/
def strayChars : List (Char × Char) :=
  [('\\', '\\'), ('@', '@'), ('\x60', '\x60'), ('\x00', '\x08'), ('\x0E', '\x1F'), ('\x7F', '\x7F')]

/-- A blank or a continued line break. -/
def blank : Language Char :=
  oneOf blankChars + {['\\']} * (1 + {['\r']}) * {['\n']}

/-- An encoding or none. -/
def encoding : Language Char :=
  1 + {['u', '8']} + {['u']} + {['U']} + {['L']}

/-- What a number goes on with: a character, a digit separator with the character after it, or an
exponent with its sign. -/
def numberPart : Language Char :=
  oneOf (digitChars ++ letterChars ++ [('.', '.')]) + {['\'']} * oneOf (digitChars ++ letterChars) +
    oneOf [('e', 'e'), ('E', 'E'), ('p', 'p'), ('P', 'P')] * oneOf [('+', '+'), ('-', '-')]

/-- The rule of a kind of lexemes. -/
def Kind.language : Kind → Language Char
  | .whitespace => blank * blank∗
  | .lineComment => {['/', '/']}
  | .blockComment => {['/', '*']}
  | .string => encoding * {['"']}
  | .character => encoding * {['\'']}
  | .rawString => encoding * {['R', '"']}
  | .word => oneOf wordStartChars * (oneOf (digitChars ++ wordStartChars))∗
  | .number => (1 + {['.']}) * oneOf digitChars * numberPart∗
  | .punctuator => {p | p ∈ Punctuator.spellings}
  | .stray => oneOf strayChars

/-! ## Characters of the rules -/

section

variable {c : Char} {ranges : List (Char × Char)}

theorem inRanges_cons (first last : Char) : inRanges ((first, last) :: ranges) c =
    (decide (first ≤ c) && decide (c ≤ last) || inRanges ranges c) := rfl

theorem inRanges_cons_self (d : Char) :
    inRanges ((d, d) :: ranges) c = (c == d || inRanges ranges c) := by
  have heq : (decide (d ≤ c) && decide (c ≤ d)) = (c == d) := by
    rw [← Bool.decide_and, beq_eq_decide, decide_eq_decide]
    refine ⟨fun h => Char.le_antisymm h.2 h.1, ?_⟩
    rintro rfl
    exact ⟨Char.le_refl c, Char.le_refl c⟩
  rw [inRanges_cons, heq]

theorem inRanges_append (others : List (Char × Char)) :
    inRanges (ranges ++ others) c = (inRanges ranges c || inRanges others c) :=
  List.any_append

theorem inRanges_blankChars : inRanges blankChars c = Space.isSpace c := by
  simp only [blankChars, inRanges_cons_self, Space.isSpace, Bool.or_assoc]
  simp [inRanges]

theorem inRanges_digitChars : inRanges digitChars c = c.isDigit := by
  simp [inRanges, digitChars, Char.isDigit, Char.le_def]

theorem inRanges_letterChars : inRanges letterChars c = (c.isAlpha || c == '_') := by
  have halpha : c.isAlpha =
      (decide ('A' ≤ c ∧ c ≤ 'Z') || decide ('a' ≤ c) && decide (c ≤ 'z')) := rfl
  rw [letterChars, inRanges_cons, inRanges_cons, inRanges_cons_self, halpha, Bool.decide_and]
  simp [inRanges, Bool.or_assoc]

theorem inRanges_digitLike : inRanges (digitChars ++ letterChars) c = Number.isDigitLike c := by
  rw [inRanges_append, inRanges_digitChars, inRanges_letterChars, Number.isDigitLike,
    Char.isAlphanum, ← Bool.or_assoc, Bool.or_comm c.isDigit]

theorem inRanges_digitLike_point : inRanges (digitChars ++ letterChars ++ [('.', '.')]) c =
    (Number.isDigitLike c || c == '.') := by
  rw [inRanges_append, inRanges_digitLike, inRanges_cons_self]
  simp [inRanges]

theorem inRanges_exponent :
    inRanges [('e', 'e'), ('E', 'E'), ('p', 'p'), ('P', 'P')] c = Number.isExponent c := by
  simp only [inRanges_cons_self, Number.isExponent, Bool.or_assoc]
  simp [inRanges]

theorem inRanges_sign : inRanges [('+', '+'), ('-', '-')] c = Number.isSign c := by
  simp only [inRanges_cons_self, Number.isSign]
  simp [inRanges]

/-- Beyond ASCII every character is a letter, the byte order mark apart. -/
theorem inRanges_beyond : inRanges [('\u0080', '\uFEFE'), ('\uFF00', Char.ofNat 0x10FFFF)] c =
    (decide (0x80 ≤ c.toNat) && c != '\uFEFF') := by
  have hmark : c = '\uFEFF' ↔ c.toNat = 0xFEFF := by
    rw [← Char.toNat_inj]
    rfl
  have hvalid : c.toNat < 0x110000 := by
    rcases c.valid with h | ⟨-, h⟩
    · exact Nat.lt_trans h (by decide)
    · exact h
  rw [Bool.eq_iff_iff]
  simp [inRanges, Char.le_def, UInt32.le_iff_toNat_le, hmark]
  omega

theorem inRanges_wordChars : inRanges (digitChars ++ wordStartChars) c = isWordChar c := by
  rw [wordStartChars, ← List.append_assoc, inRanges_append, inRanges_digitLike, inRanges_cons_self,
    inRanges_beyond, isWordChar, Number.isDigitLike, ← Bool.or_assoc]

theorem inRanges_wordStartChars : inRanges wordStartChars c = (isWordChar c && !c.isDigit) := by
  have hdigit : ∀ n < 128, (Char.ofNat n).isDigit = true →
      inRanges wordStartChars (Char.ofNat n) = false := by
    decide
  rw [← inRanges_wordChars, inRanges_append, inRanges_digitChars]
  cases hd : c.isDigit with
  | false => simp
  | true =>
    have hlt : c.toNat < 128 := by
      simp [Char.isDigit, UInt32.le_iff_toNat_le] at hd
      exact Nat.lt_of_le_of_lt hd.2 (by decide)
    have hnot := hdigit _ hlt
    rw [Char.ofNat_toNat] at hnot
    simp [hnot hd]

/-- The ranges hold exactly the stray characters. -/
theorem inRanges_strayChars : inRanges strayChars c = isStray c := by
  by_cases hc : c.toNat < 128
  · have hascii : ∀ n < 128,
        inRanges strayChars (Char.ofNat n) = isStray (Char.ofNat n) := by decide +kernel
    have heq := hascii _ hc
    rwa [Char.ofNat_toNat] at heq
  · have hmeant : Space.isSpace c = true ∨ isWordChar c = true := by
      by_cases hmark : c = '\uFEFF'
      · exact .inl (by rw [hmark]; decide)
      · exact .inr (by simp [isWordChar, hmark]; omega)
    have hout : inRanges strayChars c = false := by
      have hc' : 128 ≤ c.val.toNat := Nat.le_of_not_lt hc
      simp [inRanges, strayChars, Char.le_def, UInt32.le_iff_toNat_le]
      omega
    rw [hout]
    rcases hmeant with h | h <;> simp [isStray, h]

end

/-! ## Texts of the rules -/

section

variable {w : List Char}

theorem mem_single {a : List Char} : w ∈ ({a} : Language Char) ↔ w = a := Iff.rfl

theorem mem_oneOf {ranges : List (Char × Char)} :
    w ∈ oneOf ranges ↔ ∃ c, w = [c] ∧ inRanges ranges c = true :=
  Iff.rfl

section Star

variable {part : Language Char}

theorem append_mem_kstar {a : List Char} (ha : a ∈ part) (hw : w ∈ part∗) : a ++ w ∈ part∗ := by
  obtain ⟨parts, rfl, hparts⟩ := hw
  exact ⟨a :: parts, rfl, List.forall_mem_cons.2 ⟨ha, hparts⟩⟩

/-- Induction on a repetition, part by part. -/
theorem kstar_induction (P : List Char → Prop) (nil : P [])
    (append : ∀ a b, a ∈ part → P b → P (a ++ b)) (h : w ∈ part∗) : P w := by
  obtain ⟨parts, rfl, hparts⟩ := h
  induction parts with
  | nil => exact nil
  | cons a parts ih =>
    rw [List.forall_mem_cons] at hparts
    exact append a _ hparts.1 (ih hparts.2)

/-- What repeats a part and is not empty starts with the part. -/
theorem mem_mul_kstar_iff (hpart : [] ∉ part) : w ∈ part * part∗ ↔ w ≠ [] ∧ w ∈ part∗ := by
  constructor
  · rintro ⟨a, ha, b, hb, rfl⟩
    refine ⟨?_, append_mem_kstar ha hb⟩
    intro hnil
    rw [(List.append_eq_nil_iff.1 hnil).1] at ha
    exact hpart ha
  · rintro ⟨hne, parts, rfl, hparts⟩
    cases parts with
    | nil => exact absurd rfl hne
    | cons a parts =>
      rw [List.forall_mem_cons] at hparts
      exact ⟨a, hparts.1, parts.flatten, Language.join_mem_kstar hparts.2, rfl⟩

end Star

theorem mem_blank_iff : w ∈ blank ↔ (∃ c, w = [c] ∧ Space.isSpace c = true) ∨ w = ['\\', '\n'] ∨
    w = ['\\', '\r', '\n'] := by
  simp only [blank, Language.mem_add, mem_oneOf, inRanges_blankChars, Language.mem_mul, mem_single,
    Language.mem_one]
  refine or_congr_right ⟨?_, ?_⟩
  · rintro ⟨_, ⟨_, rfl, _, rfl | rfl, rfl⟩, _, rfl, rfl⟩
    · exact .inl rfl
    · exact .inr rfl
  · rintro (rfl | rfl)
    · exact ⟨['\\'], ⟨_, rfl, [], .inl rfl, rfl⟩, _, rfl, rfl⟩
    · exact ⟨['\\', '\r'], ⟨_, rfl, _, .inr rfl, rfl⟩, _, rfl, rfl⟩

/-- Repeated blanks are the runs of whitespace that the scan accepts. -/
theorem mem_blank_kstar_iff : w ∈ blank∗ ↔ Space.IsRun w := by
  constructor
  · refine kstar_induction Space.IsRun rfl fun a b ha hb => ?_
    have hrun : Space.IsRun a := by
      rcases mem_blank_iff.1 ha with ⟨c, rfl, hc⟩ | rfl | rfl
      · unfold Space.IsRun Space.runLength
        split <;> simp_all [Space.runLength]
      · decide
      · decide
    rw [Space.IsRun, Space.runLength_append hrun, hb, List.length_append]
  · intro h
    unfold Space.IsRun at h
    fun_induction Space.runLength w with
    | case1 text ih =>
      exact append_mem_kstar (mem_blank_iff.2 (.inr (.inl rfl))) (ih (by simpa using h))
    | case2 text ih =>
      exact append_mem_kstar (mem_blank_iff.2 (.inr (.inr rfl))) (ih (by simpa using h))
    | case3 c text _ _ hc ih =>
      exact append_mem_kstar (mem_blank_iff.2 (.inl ⟨c, rfl, hc⟩)) (ih (by simpa using h))
    | case4 c text => simp at h
    | case5 => exact Language.nil_mem_kstar _

theorem mem_whitespace_iff : w ∈ Kind.language .whitespace ↔ w ≠ [] ∧ Space.IsRun w := by
  rw [Kind.language, mem_mul_kstar_iff (by simp [mem_blank_iff]), mem_blank_kstar_iff]

theorem mem_encoding_iff : w ∈ encoding ↔ w ∈ encodings := by
  simp only [encoding, Language.mem_add, mem_single, Language.mem_one]
  simp [encodings, or_assoc]

theorem mem_string_iff : w ∈ Kind.language .string ↔ ∃ word ∈ encodings, w = word ++ ['"'] := by
  simp [Kind.language, Language.mem_mul, mem_encoding_iff, mem_single, eq_comm]

theorem mem_character_iff :
    w ∈ Kind.language .character ↔ ∃ word ∈ encodings, w = word ++ ['\''] := by
  simp [Kind.language, Language.mem_mul, mem_encoding_iff, mem_single, eq_comm]

theorem mem_rawString_iff :
    w ∈ Kind.language .rawString ↔ ∃ word ∈ encodings, w = word ++ ['R', '"'] := by
  simp [Kind.language, Language.mem_mul, mem_encoding_iff, mem_single, eq_comm]

theorem mem_wordChars_kstar_iff :
    w ∈ (oneOf (digitChars ++ wordStartChars))∗ ↔ ∀ c ∈ w, isWordChar c = true := by
  constructor
  · refine kstar_induction (∀ c ∈ ·, isWordChar c = true) (by simp) fun a b ha hb => ?_
    obtain ⟨c, rfl, hc⟩ := mem_oneOf.1 ha
    rw [inRanges_wordChars] at hc
    exact List.forall_mem_cons.2 ⟨hc, hb⟩
  · intro h
    induction w with
    | nil => exact Language.nil_mem_kstar _
    | cons c w ih =>
      rw [List.forall_mem_cons] at h
      exact append_mem_kstar (mem_oneOf.2 ⟨c, rfl, inRanges_wordChars.trans h.1⟩) (ih h.2)

/-- The language of words: word characters of which the first is no digit. -/
theorem mem_word_iff : w ∈ Kind.language .word ↔ w ≠ [] ∧ IsWord w := by
  rw [Kind.language, Language.mem_mul]
  simp only [mem_oneOf, inRanges_wordStartChars, mem_wordChars_kstar_iff, Bool.and_eq_true,
    Bool.not_eq_true']
  constructor
  · rintro ⟨_, ⟨c, rfl, hc, hd⟩, b, hb, rfl⟩
    exact ⟨by simp, List.forall_mem_cons.2 ⟨hc, hb⟩, by simpa using hd⟩
  · rintro ⟨hne, hall, hhead⟩
    obtain ⟨c, b, rfl⟩ := List.exists_cons_of_ne_nil hne
    rw [List.forall_mem_cons] at hall
    exact ⟨[c], ⟨c, rfl, hall.1, hhead c rfl⟩, b, hall.2, rfl⟩

theorem mem_stray_iff : w ∈ Kind.language .stray ↔ ∃ c, w = [c] ∧ isStray c = true := by
  simp only [Kind.language, mem_oneOf, inRanges_strayChars]

/-! ### Numbers -/

/-- A number goes on by a digit-like character or a point, a quote before one, or an exponent with
its sign. -/
theorem mem_numberPart_iff : w ∈ numberPart ↔
    (∃ c, w = [c] ∧ (Number.isDigitLike c || c == '.') = true) ∨
      (∃ d, w = ['\'', d] ∧ Number.isDigitLike d = true) ∨
      ∃ e sign, w = [e, sign] ∧ Number.isExponent e = true ∧ Number.isSign sign = true := by
  simp only [numberPart, Language.mem_add, Language.mem_mul, mem_oneOf, mem_single,
    inRanges_digitLike_point, inRanges_digitLike, inRanges_exponent, inRanges_sign, or_assoc]
  refine or_congr_right (or_congr ⟨?_, ?_⟩ ⟨?_, ?_⟩)
  · rintro ⟨_, rfl, _, ⟨d, rfl, hd⟩, rfl⟩
    exact ⟨d, rfl, hd⟩
  · rintro ⟨d, rfl, hd⟩
    exact ⟨_, rfl, _, ⟨d, rfl, hd⟩, rfl⟩
  · rintro ⟨_, ⟨e, rfl, he⟩, _, ⟨sign, rfl, hs⟩, rfl⟩
    exact ⟨e, sign, rfl, he, hs⟩
  · rintro ⟨e, sign, rfl, he, hs⟩
    exact ⟨_, ⟨e, rfl, he⟩, _, ⟨sign, rfl, hs⟩, rfl⟩

theorem Number.ne_quote {c : Char} (h : (isDigitLike c || c == '.') = true) :
    (c == '\'') = false := by
  rw [Bool.or_eq_true, beq_iff_eq] at h
  apply beq_false_of_ne
  rcases h with h | rfl
  · exact (isSpace_of_isWordChar (isWordChar_of_isDigitLike h)).2.2.2.2.1
  · decide

/-- No number goes on with a sign. -/
theorem Number.tailLength_sign {c : Char} (h : isSign c = true) (text : List Char) :
    tailLength (c :: text) = 0 := by
  rw [isSign, Bool.or_eq_true, beq_iff_eq, beq_iff_eq] at h
  apply tailLength_eq_zero_iff.2
  intro d hd
  obtain rfl : c = d := by simpa using hd
  rcases h with rfl | rfl
  · exact ⟨by decide, by decide, by simp⟩
  · exact ⟨by decide, by decide, by simp⟩

/-- A character that a number goes on with, unless it is an exponent with a sign after it. -/
theorem Number.tailLength_cons {c : Char} (hc : (isDigitLike c || c == '.') = true)
    {text : List Char} (htext : ∀ d ∈ text.head?, (isExponent c && isSign d) = false) :
    tailLength (c :: text) = tailLength text + 1 := by
  cases text with
  | nil => simp only [tailLength, hc, if_pos]
  | cons d text => simp [tailLength, ne_quote hc, htext d rfl, hc]

/-- Repeated parts of a number are the texts that the scan takes to their end. -/
theorem mem_numberPart_kstar_iff : w ∈ numberPart∗ ↔ Number.tailLength w = w.length := by
  constructor
  · refine kstar_induction (fun w => Number.tailLength w = w.length) rfl fun a b ha hb => ?_
    rcases mem_numberPart_iff.1 ha with ⟨c, rfl, hc⟩ | ⟨d, rfl, hd⟩ | ⟨e, sign, rfl, he, hs⟩
    · rw [List.singleton_append, Number.tailLength_cons hc, hb, List.length_cons]
      intro d hd
      obtain ⟨t, rfl⟩ := List.head?_eq_some_iff.1 hd
      refine Bool.eq_false_iff.2 fun hes => ?_
      rw [Number.tailLength_sign (Bool.and_eq_true_iff.1 hes).2] at hb
      cases hb
    · simp [Number.tailLength, hd, hb]
    · have hne := Number.ne_quote (c := e) (by simp [Number.isDigitLike_of_isExponent he])
      simp [Number.tailLength, hne, he, hs, hb]
  · intro h
    fun_induction Number.tailLength w with
    | case1 => exact Language.nil_mem_kstar _
    | case2 c hc =>
      exact append_mem_kstar (mem_numberPart_iff.2 (.inl ⟨c, rfl, hc⟩)) (Language.nil_mem_kstar _)
    | case3 c hc => simp at h
    | case4 c d text hc hd ih =>
      obtain rfl := eq_of_beq hc
      exact append_mem_kstar (mem_numberPart_iff.2 (.inr (.inl ⟨d, rfl, hd⟩)))
        (ih (by simpa using h))
    | case5 c d text hc hd => simp at h
    | case6 c d text _ hes ih =>
      exact append_mem_kstar
        (mem_numberPart_iff.2 (.inr (.inr ⟨c, d, rfl, Bool.and_eq_true_iff.1 hes⟩)))
        (ih (by simpa using h))
    | case7 c d text _ _ hc ih =>
      exact append_mem_kstar (mem_numberPart_iff.2 (.inl ⟨c, rfl, hc⟩)) (ih (by simpa using h))
    | case8 => simp at h

/-- The language of numbers holds exactly the texts that the scan takes whole. -/
theorem mem_number_iff : w ∈ Kind.language .number ↔ w ≠ [] ∧ Number.length w = w.length := by
  rw [Kind.language]
  simp only [Language.mem_mul, Language.mem_add, Language.mem_one, mem_single, mem_oneOf,
    inRanges_digitChars, mem_numberPart_kstar_iff]
  constructor
  · rintro ⟨_, ⟨_, rfl | rfl, _, ⟨d, rfl, hd⟩, rfl⟩, b, hb, rfl⟩
    · exact ⟨by simp, by simp [Number.length_of_isDigit hd, hb]⟩
    · exact ⟨by simp, by simp [Number.length, hd, hb]⟩
  · rintro ⟨hne, h⟩
    unfold Number.length at h
    split at h
    · rename_i d text
      split at h
      · rename_i hd
        exact ⟨['.', d], ⟨['.'], .inr rfl, [d], ⟨d, rfl, hd⟩, rfl⟩, text, by simpa using h, rfl⟩
      · simp at h
    · rename_i d text _
      split at h
      · rename_i hd
        exact ⟨[d], ⟨[], .inl rfl, [d], ⟨d, rfl, hd⟩, rfl⟩, text, by simpa using h, rfl⟩
      · simp at h
    · exact absurd rfl hne

/-! ## A text of a rule by itself -/

/-- A text that a rule matches is by itself a lexeme of the kind of the rule. -/
theorem reads_of_mem_language {kind : Kind} (h : w ∈ kind.language) :
    ∃ closed, Reads w [] kind closed := by
  cases kind with
  | whitespace =>
    obtain ⟨hne, hrun⟩ := mem_whitespace_iff.1 h
    exact ⟨true, reads_whitespace_iff.2 ⟨rfl, w, hne, hrun, .inl ⟨rfl, rfl, by simp⟩⟩⟩
  | lineComment =>
    obtain rfl := mem_single.1 h
    exact ⟨true, rfl⟩
  | blockComment =>
    obtain rfl := mem_single.1 h
    exact ⟨false, rfl⟩
  | string =>
    obtain ⟨word, hword, rfl⟩ := mem_string_iff.1 h
    exact ⟨false, reads_string_iff.2 ⟨word, hword, [], by simp, rfl⟩⟩
  | character =>
    obtain ⟨word, hword, rfl⟩ := mem_character_iff.1 h
    exact ⟨false, reads_character_iff.2 ⟨word, hword, [], by simp, rfl⟩⟩
  | rawString =>
    obtain ⟨word, hword, rfl⟩ := mem_rawString_iff.1 h
    exact ⟨false, reads_rawString_iff.2 ⟨word, hword, [], by simp, rfl⟩⟩
  | word =>
    obtain ⟨hne, hword⟩ := mem_word_iff.1 h
    exact ⟨true, reads_word_iff.2 ⟨rfl, hne, hword, by simp, rfl⟩⟩
  | number =>
    obtain ⟨hne, hlen⟩ := mem_number_iff.1 h
    exact ⟨true, reads_number_iff.2 ⟨rfl, hne, by rwa [List.append_nil]⟩⟩
  | punctuator =>
    refine ⟨true, reads_punctuator_iff.2 ⟨rfl, h, fun p _ hp => ?_, by simp, by simp⟩⟩
    rw [List.append_nil] at hp
    exact hp.length_le
  | stray =>
    obtain ⟨c, rfl, hc⟩ := mem_stray_iff.1 h
    exact ⟨true, reads_stray_iff.2 ⟨rfl, c, rfl, hc, fun _ => rfl⟩⟩

/-- No text is matched by two rules. -/
theorem kind_unique_of_mem {kind kind' : Kind} (h : w ∈ kind.language) (h' : w ∈ kind'.language) :
    kind' = kind := by
  obtain ⟨_, hreads⟩ := reads_of_mem_language h
  obtain ⟨_, hreads'⟩ := reads_of_mem_language h'
  exact (hreads.unique hreads').1

end

end EastConst.Lexeme
