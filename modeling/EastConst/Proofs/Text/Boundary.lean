import EastConst.Proofs.Text.Utf8

/-!
# Boundaries between characters

Offsets count bytes, and a character takes up to four of them. A boundary of a text is an offset
between two of its characters or at an end (`isBoundary`), so boundaries are the lengths of the
beginnings of the text (`isBoundary_iff`). The bytes alone show the same: no boundary is at a byte
that goes on with a character (`isBoundary_encode`).
-/

namespace EastConst.Utf8

/-- Whether a byte offset of a text stands between two characters or at an end of the text. -/
def isBoundary : List Char → Nat → Bool
  | _, 0 => true
  | [], _ + 1 => false
  | c :: text, offset => c.utf8Size ≤ offset && isBoundary text (offset - c.utf8Size)

theorem isBoundary_iff {text : List Char} {offset : Nat} :
    isBoundary text offset = true ↔
      ∃ before after, text = before ++ after ∧ byteLength before = offset := by
  fun_induction isBoundary text offset with
  | case1 text =>
    simp only [true_iff]
    exact ⟨[], text, rfl, rfl⟩
  | case2 offset =>
    simp only [Bool.false_eq_true, false_iff]
    rintro ⟨before, after, htext, hlen⟩
    obtain ⟨rfl, -⟩ := List.append_eq_nil_iff.1 htext.symm
    simp at hlen
  | case3 c text offset hpos ih =>
    rw [Bool.and_eq_true, decide_eq_true_iff, ih]
    constructor
    · intro ⟨hle, before, after, htext, hlen⟩
      refine ⟨c :: before, after, by rw [htext, List.cons_append], ?_⟩
      rw [byteLength_cons, hlen]
      omega
    · intro ⟨before, after, htext, hlen⟩
      cases before with
      | nil => exact absurd hlen.symm hpos
      | cons d before =>
        rw [List.cons_append, List.cons.injEq] at htext
        obtain ⟨rfl, htext⟩ := htext
        rw [byteLength_cons] at hlen
        exact ⟨by omega, before, after, htext, by omega⟩

/-- Whether an offset is at no byte within a character. -/
def IsBoundary (bytes : List UInt8) (offset : Nat) : Prop :=
  offset = bytes.length ∨ ∃ b, bytes[offset]? = some b ∧ b.IsUTF8FirstByte

theorem encode_append (left right : List Char) :
    encode (left ++ right) = encode left ++ encode right :=
  List.flatMap_append

theorem length_encode (text : List Char) : (encode text).length = byteLength text := by
  induction text with
  | nil => rfl
  | cons c text ih =>
    rw [encode_cons, List.length_append, String.length_utf8EncodeChar, ih, byteLength_cons]

theorem IsBoundary.le_length {bytes : List UInt8} {offset : Nat} (h : IsBoundary bytes offset) :
    offset ≤ bytes.length := by
  rcases h with rfl | ⟨b, hb, -⟩
  · exact Nat.le_refl _
  · exact Nat.le_of_lt (List.getElem?_eq_some_iff.1 hb).1

section

variable {c : Char} {text : List Char} {offset : Nat}

theorem isBoundary_zero (text : List Char) : IsBoundary (encode text) 0 := by
  cases text with
  | nil => exact .inl rfl
  | cons c text =>
    have hpos : 0 < (String.utf8EncodeChar c).length :=
      Nat.lt_of_lt_of_eq c.utf8Size_pos (String.length_utf8EncodeChar c).symm
    refine .inr ⟨(String.utf8EncodeChar c)[0], ?_,
      UInt8.isUTF8FirstByte_getElem_utf8EncodeChar.2 rfl⟩
    rw [encode_cons, List.getElem?_append_left hpos, List.getElem?_eq_getElem hpos]

/-- No boundary is within the first character. -/
theorem not_isBoundary_of_lt (hpos : 0 < offset) (hlt : offset < c.utf8Size) :
    ¬ IsBoundary (encode (c :: text)) offset := by
  have hin : offset < (String.utf8EncodeChar c).length := by rwa [String.length_utf8EncodeChar]
  rintro (hend | ⟨b, hb, hfirst⟩)
  · rw [length_encode, byteLength_cons] at hend
    omega
  · rw [encode_cons, List.getElem?_append_left hin] at hb
    obtain ⟨_, rfl⟩ := List.getElem?_eq_some_iff.1 hb
    have := UInt8.isUTF8FirstByte_getElem_utf8EncodeChar.1 hfirst
    omega

/-- After the first character the boundaries are those of the rest. -/
theorem isBoundary_cons_iff : IsBoundary (encode (c :: text)) (c.utf8Size + offset) ↔
    IsBoundary (encode text) offset := by
  have hskip : (encode (c :: text))[c.utf8Size + offset]? = (encode text)[offset]? := by
    rw [encode_cons, ← String.length_utf8EncodeChar,
      List.getElem?_append_right (Nat.le_add_right _ _), Nat.add_sub_cancel_left]
  have hlen : c.utf8Size + offset = (encode (c :: text)).length ↔
      offset = (encode text).length := by
    rw [length_encode, length_encode, byteLength_cons, Nat.add_left_cancel_iff]
  rw [IsBoundary, IsBoundary, hskip, hlen]

/-- The bytes of a text show its boundaries. -/
theorem isBoundary_encode : IsBoundary (encode text) offset ↔ isBoundary text offset = true := by
  fun_induction isBoundary text offset with
  | case1 text => simp [isBoundary_zero]
  | case2 offset =>
    simp only [Bool.false_eq_true, iff_false]
    exact fun h => Nat.not_succ_le_zero offset h.le_length
  | case3 c text offset hpos ih =>
    by_cases hle : c.utf8Size ≤ offset
    · obtain ⟨k, rfl⟩ := Nat.exists_eq_add_of_le hle
      rw [Nat.add_sub_cancel_left] at ih ⊢
      rw [isBoundary_cons_iff, ih]
      simp
    · have hwithin : ¬ IsBoundary (encode (c :: text)) offset :=
        not_isBoundary_of_lt (Nat.pos_of_ne_zero hpos) (Nat.lt_of_not_le hle)
      simp [hle, hwithin]

/-- The boundaries of encoded characters are the lengths of the beginnings of their text. -/
theorem isBoundary_encode_iff : IsBoundary (encode text) offset ↔
    ∃ before, before <+: text ∧ byteLength before = offset := by
  rw [isBoundary_encode, isBoundary_iff]
  constructor
  · rintro ⟨before, after, rfl, hlength⟩
    exact ⟨before, List.prefix_append before after, hlength⟩
  · rintro ⟨before, ⟨after, rfl⟩, hlength⟩
    exact ⟨before, after, rfl, hlength⟩

end

end EastConst.Utf8
