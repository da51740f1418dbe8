import EastConst.Text.Utf8

/-!
# What is read as UTF-8 is written back

The reader keeps the bits of a sequence, and not its bytes. `Partial.Ends` says which bytes end a
sequence that has begun, and the byte that began it and those that end it are the bytes of the
character (`encodeChar_of_start`). So what has been read is written with the same bytes
(`encode_of_decode`), and what is written with the bytes of a text is the text (`encode_injective`).
-/

namespace EastConst.Utf8

/-- The bytes that end a sequence that has begun, and the bits of the whole sequence. -/
inductive Partial.Ends : Partial → List UInt8 → Nat → Prop
  | last {p : Partial} {b : UInt8} (hm : p.missing ≤ 1) (hb : p.accepts b = true) :
    Ends p [b] (p.extend b)
  | more {p : Partial} {b : UInt8} {bs : List UInt8} {v : Nat} (hm : ¬ p.missing ≤ 1)
    (hb : p.accepts b = true)
    (hbs : Ends ⟨p.missing - 1, p.extend b, 0x80, 0xBF⟩ bs v) : Ends p (b :: bs) v

section

variable {p : Partial} {b : UInt8} {bs : List UInt8} {v : Nat}

theorem Partial.extend_eq (p : Partial) (b : UInt8) :
    p.extend b = p.value * 64 + (b.toNat - 0x80) := rfl

theorem Partial.accepts_iff :
    p.accepts b = true ↔ p.low.toNat ≤ b.toNat ∧ b.toNat ≤ p.high.toNat := by
  rw [accepts, Bool.and_eq_true, decide_eq_true_iff, decide_eq_true_iff, UInt8.le_iff_toNat_le,
    UInt8.le_iff_toNat_le]

theorem Partial.accepts_tail_iff {missing value : Nat} :
    (Partial.mk missing value 0x80 0xBF).accepts b = true ↔ 0x80 ≤ b.toNat ∧ b.toNat ≤ 0xBF := by
  simp [accepts_iff]

/-! ## The bytes of a character -/

theorem toNat_ofNat (hv : v.isValidChar) : (Char.ofNat v).val.toNat = v := by
  rw [Char.ofNat, dif_pos hv]
  rfl

theorem ofNat_eq {n : Nat} (h : n = b.toNat) : UInt8.ofNat n = b := by
  rw [h, UInt8.ofNat_toNat]

/-! ## Sequences -/

namespace Partial.Ends

/-- A sequence with one byte missing. -/
theorem one (h : p.Ends bs v) (hm : p.missing = 1) :
    ∃ b₁, bs = [b₁] ∧ p.accepts b₁ = true ∧ v = p.extend b₁ := by
  cases h with
  | last _ hb => exact ⟨_, rfl, hb, rfl⟩
  | more hm' => omega

/-- A sequence with two bytes missing, of which only the first has a range of its own. -/
theorem two (h : p.Ends bs v) (hm : p.missing = 2) :
    ∃ b₁ b₂, bs = [b₁, b₂] ∧ p.accepts b₁ = true ∧ (0x80 ≤ b₂.toNat ∧ b₂.toNat ≤ 0xBF) ∧
      v = p.extend b₁ * 64 + (b₂.toNat - 0x80) := by
  cases h with
  | last hm' => omega
  | more _ hb hbs =>
    obtain ⟨b₂, rfl, hb₂, hv⟩ := hbs.one (by simp only; omega)
    exact ⟨_, b₂, rfl, hb, accepts_tail_iff.1 hb₂, by rw [hv, extend_eq]⟩

/-- A sequence with three bytes missing, of which only the first has a range of its own. -/
theorem three (h : p.Ends bs v) (hm : p.missing = 3) :
    ∃ b₁ b₂ b₃, bs = [b₁, b₂, b₃] ∧ p.accepts b₁ = true ∧ (0x80 ≤ b₂.toNat ∧ b₂.toNat ≤ 0xBF) ∧
      (0x80 ≤ b₃.toNat ∧ b₃.toNat ≤ 0xBF) ∧
      v = (p.extend b₁ * 64 + (b₂.toNat - 0x80)) * 64 + (b₃.toNat - 0x80) := by
  cases h with
  | last hm' => omega
  | more _ hb hbs =>
    obtain ⟨b₂, b₃, rfl, hb₂, hb₃, hv⟩ := hbs.two (by simp only; omega)
    exact ⟨_, b₂, b₃, rfl, hb, accepts_tail_iff.1 hb₂, hb₃, by rw [hv, extend_eq]⟩

theorem encodeChar_two (h : p.Ends bs v) (hm : p.missing = 1) (hvalue : p.value = b.toNat - 0xC0)
    (hb : 0xC2 ≤ b.toNat ∧ b.toNat < 0xE0) (hrange : 0x80 ≤ p.low.toNat ∧ p.high.toNat ≤ 0xBF) :
    String.utf8EncodeChar (Char.ofNat v) = b :: bs := by
  obtain ⟨b₁, rfl, hb₁, hv⟩ := h.one hm
  rw [accepts_iff] at hb₁
  rw [extend_eq, hvalue] at hv
  rw [String.utf8EncodeChar, toNat_ofNat (.inl (by omega)), if_neg (by omega), if_pos (by omega),
    ofNat_eq (b := b) (by omega), ofNat_eq (b := b₁) (by omega)]

/-- The range of the second byte rules out overlong sequences of three bytes and surrogates. -/
theorem encodeChar_three (h : p.Ends bs v) (hm : p.missing = 2) (hvalue : p.value = b.toNat - 0xE0)
    (hb : 0xE0 ≤ b.toNat ∧ b.toNat < 0xF0) (hrange : 0x80 ≤ p.low.toNat ∧ p.high.toNat ≤ 0xBF)
    (hlong : b.toNat = 0xE0 → 0xA0 ≤ p.low.toNat)
    (hsurrogate : b.toNat = 0xED → p.high.toNat ≤ 0x9F) :
    String.utf8EncodeChar (Char.ofNat v) = b :: bs := by
  obtain ⟨b₁, b₂, rfl, hb₁, hb₂, hv⟩ := h.two hm
  rw [accepts_iff] at hb₁
  rw [extend_eq, hvalue] at hv
  have hvalid : v.isValidChar := by
    unfold Nat.isValidChar
    omega
  rw [String.utf8EncodeChar, toNat_ofNat hvalid, if_neg (by omega), if_neg (by omega),
    if_pos (by omega),
    ofNat_eq (b := b) (by omega), ofNat_eq (b := b₁) (by omega), ofNat_eq (b := b₂) (by omega)]

/-- The range of the second byte rules out overlong sequences of four bytes and values that are too
great. -/
theorem encodeChar_four (h : p.Ends bs v) (hm : p.missing = 3) (hvalue : p.value = b.toNat - 0xF0)
    (hb : 0xF0 ≤ b.toNat ∧ b.toNat ≤ 0xF4) (hrange : 0x80 ≤ p.low.toNat ∧ p.high.toNat ≤ 0xBF)
    (hlong : b.toNat = 0xF0 → 0x90 ≤ p.low.toNat) (hgreat : b.toNat = 0xF4 → p.high.toNat ≤ 0x8F) :
    String.utf8EncodeChar (Char.ofNat v) = b :: bs := by
  obtain ⟨b₁, b₂, b₃, rfl, hb₁, hb₂, hb₃, hv⟩ := h.three hm
  rw [accepts_iff] at hb₁
  rw [extend_eq, hvalue] at hv
  have hvalid : v.isValidChar := .inr (by omega)
  rw [String.utf8EncodeChar, toNat_ofNat hvalid, if_neg (by omega), if_neg (by omega),
    if_neg (by omega),
    ofNat_eq (b := b) (by omega), ofNat_eq (b := b₁) (by omega), ofNat_eq (b := b₂) (by omega),
    ofNat_eq (b := b₃) (by omega)]

end Partial.Ends

/-- The byte that began a sequence and those that end it are the bytes of the character. -/
theorem encodeChar_of_start (h : Lead.ofByte b = .start p) (hbs : p.Ends bs v) :
    String.utf8EncodeChar (Char.ofNat v) = b :: bs := by
  simp only [Lead.ofByte, UInt8.lt_iff_toNat_lt, beq_iff_eq, ← UInt8.toNat_inj,
    UInt8.reduceToNat] at h
  split at h
  · cases h
  split at h
  · cases h
  split at h
  · cases h
    exact hbs.encodeChar_two rfl rfl (by omega) (by simp)
  split at h
  · cases h
    exact hbs.encodeChar_three rfl (by simp only; omega) (by omega) (by simp) (by simp) (by omega)
  split at h
  · cases h
    exact hbs.encodeChar_three rfl (by simp only; omega) (by omega) (by simp) (by omega) (by simp)
  split at h
  · cases h
    exact hbs.encodeChar_three rfl rfl (by omega) (by simp) (by omega) (by omega)
  split at h
  · cases h
    exact hbs.encodeChar_four rfl (by simp only; omega) (by omega) (by simp) (by simp) (by omega)
  split at h
  · cases h
    exact hbs.encodeChar_four rfl rfl (by omega) (by simp) (by omega) (by omega)
  split at h
  · cases h
    exact hbs.encodeChar_four rfl (by simp only; omega) (by omega) (by simp) (by omega) (by simp)
  · cases h

/-- A byte that stands for a character by itself is all of its encoding. -/
theorem encodeChar_of_single {c : Char} (h : Lead.ofByte b = .single c) :
    String.utf8EncodeChar c = [b] := by
  have hb : b.toNat < 0x80 ∧ c = Char.ofNat b.toNat := by
    unfold Lead.ofByte at h
    split at h
    · rename_i hlt
      cases h
      exact ⟨UInt8.lt_iff_toNat_lt.1 hlt, rfl⟩
    · split at h <;> grind
  rw [hb.2, String.utf8EncodeChar, toNat_ofNat (.inl (by omega)), if_pos (by omega),
    UInt8.ofNat_toNat]

/-! ## Texts -/

/-- Whether the bytes of the sequence that is being read are the given ones, whatever ends it. -/
def Begun : Option Partial → List UInt8 → Prop
  | none, seen => seen = []
  | some p, seen => ∀ bs v, p.Ends bs v → String.utf8EncodeChar (Char.ofNat v) = seen ++ bs

theorem exists_of_map_cons {c : Char} {read : Except Nat (List Char)} {text : List Char}
    (h : read.map (c :: ·) = .ok text) : ∃ rest, read = .ok rest ∧ text = c :: rest := by
  cases read with
  | error offset => cases h
  | ok rest => exact ⟨rest, rfl, (Except.ok.inj h).symm⟩

theorem encode_cons (c : Char) (text : List Char) :
    encode (c :: text) = String.utf8EncodeChar c ++ encode text :=
  List.flatMap_cons

/-- What is read on from a sequence that has begun is written with the bytes of the sequence and
those to come. -/
theorem encode_of_decodeFrom {start offset : Nat} {p? : Option Partial} {bytes seen : List UInt8}
    {text : List Char} (h : decodeFrom start offset p? bytes = .ok text) (hseen : Begun p? seen) :
    encode text = seen ++ bytes := by
  fun_induction decodeFrom start offset p? bytes generalizing seen text with
  | case1 =>
    cases h
    rw [hseen]
    rfl
  | case2 | case5 | case8 => cases h
  | case3 start offset b bytes c hb ih =>
    obtain ⟨rest, hrest, rfl⟩ := exists_of_map_cons h
    rw [encode_cons, encodeChar_of_single hb, ih hrest rfl, hseen]
    rfl
  | case4 start offset b bytes p hb ih =>
    have hstart : Begun (some p) [b] := fun bs v hbs => encodeChar_of_start hb hbs
    rw [hseen]
    exact ih h hstart
  | case6 start offset p b bytes hb hm ih =>
    obtain ⟨rest, hrest, rfl⟩ := exists_of_map_cons h
    rw [encode_cons, hseen _ _ (.last hm hb), ih hrest rfl, List.append_assoc]
    rfl
  | case7 start offset p b bytes hb hm ih =>
    have hnext : Begun (some ⟨p.missing - 1, p.extend b, 0x80, 0xBF⟩) (seen ++ [b]) := by
      intro bs v hbs
      rw [hseen _ _ (.more hm hb hbs), List.append_assoc]
      rfl
    rw [ih h hnext, List.append_assoc]
    rfl

/-- What has been read is written with the bytes it was read from. -/
theorem encode_of_decode {bytes : List UInt8} {text : List Char} (h : decode bytes = .ok text) :
    encode text = bytes :=
  encode_of_decodeFrom h rfl

/-- Different texts have different encodings. -/
theorem encode_injective {text text' : List Char} (h : encode text = encode text') :
    text = text' := by
  have hbytes : text.utf8Encode = text'.utf8Encode := congrArg List.toByteArray h
  have hof : String.ofList text = String.ofList text' := String.toByteArray_inj.1 hbytes
  exact String.ofList_injective hof

end

end EastConst.Utf8
