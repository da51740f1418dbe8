import EastConst.Proofs.Lexeme.Solid
import EastConst.Proofs.Text.Boundary

/-!
# Where quoted literals end

After its opening quote a literal is read in units: a backslash with the line break `\r\n`, a
backslash with any other character, or a character by itself. `Units` is the grammar of their
sequences. A literal ends with the first quote that is no part of a unit, or before the first such
line feed, or with the text (`exists_units`), and `Quoted.bodyLength` finds that place
(`Units.bodyLength`, `Units.bodyLength_lf`).

`scanBytes` looks for it in the bytes of the text, where a backslash hides one byte, be it a whole
character or the first of several. It finds the same place, so it ends between two characters
(`scanBytes_encode`).
-/

namespace EastConst.Lexeme.Quoted

/-! ## Units -/

/-- Sequences of units before a rest of the text. A backslash does not leave a line feed behind that
stands after a carriage return. -/
inductive Units (quote : Char) (rest : List Char) : List Char → Prop
  | nil : Units quote rest []
  | lineBreak {units : List Char} (h : Units quote rest units) :
    Units quote rest ('\\' :: '\r' :: '\n' :: units)
  | escape {c : Char} {units : List Char} (hc : c = '\r' → (units ++ rest).head? ≠ some '\n')
    (h : Units quote rest units) : Units quote rest ('\\' :: c :: units)
  | plain {c : Char} {units : List Char} (hc : c ≠ '\\' ∧ c ≠ quote ∧ c ≠ '\n')
    (h : Units quote rest units) :
    Units quote rest (c :: units)

/-- Whether a text starts with a sequence of units and a character after it. -/
def Reaches (quote : Char) (units : List Char) (mark : Char) (text : List Char) : Prop :=
  ∃ rest, text = units ++ mark :: rest ∧ Units quote (mark :: rest) units

/-- A text without the carriage return at its end. -/
def dropReturn (text : List Char) : List Char :=
  if text.getLast? = some '\r' then text.dropLast else text

theorem dropReturn_begins (text : List Char) : dropReturn text <+: text := by
  unfold dropReturn
  split
  · exact List.dropLast_prefix text
  · exact List.prefix_refl text

theorem take_through (units rest : List Char) (mark : Char) :
    (units ++ mark :: rest).take (units.length + 1) = units ++ [mark] := by
  have hlength : units.length + 1 = (units ++ [mark]).length := by simp
  rw [List.append_cons, hlength, List.take_left]

theorem take_dropReturn (units rest : List Char) :
    (units ++ rest).take (dropReturn units).length = dropReturn units :=
  (List.prefix_iff_eq_take.1 ((dropReturn_begins units).trans (List.prefix_append units rest))).symm

theorem dropReturn_append (left text : List Char) (h : text = [] → left.getLast? ≠ some '\r') :
    dropReturn (left ++ text) = left ++ dropReturn text := by
  unfold dropReturn
  by_cases hnil : text = []
  · simp [hnil, h hnil]
  · rw [List.getLast?_append, Option.or_of_isSome (List.getLast?_isSome.2 hnil),
      List.dropLast_append_of_ne_nil hnil]
    split <;> rfl

theorem dropReturn_cons {c : Char} {text : List Char} (h : text = [] → c ≠ '\r') :
    dropReturn (c :: text) = c :: dropReturn text :=
  dropReturn_append [c] text fun hnil hlast => h hnil (by simpa using hlast)

section

variable {quote c : Char} {rest units text : List Char}

theorem bodyLength_escape (h : c = '\r' → text.head? ≠ some '\n') :
    bodyLength quote ('\\' :: c :: text) =
    ((bodyLength quote text).1 + 2, (bodyLength quote text).2) := by
  rw [bodyLength.eq_3]
  rintro rest rfl rfl
  exact h rfl rfl

/-- A character that neither escapes nor ends anything is one unit of the body. -/
theorem bodyLength_plain (hc : c ≠ '\\' ∧ c ≠ quote ∧ c ≠ '\n')
    (h : c = '\r' → text.head? ≠ some '\n') :
    bodyLength quote (c :: text) = ((bodyLength quote text).1 + 1, (bodyLength quote text).2) := by
  rw [bodyLength.eq_def]
  split <;> simp_all

/-- No unit starts with a line feed. -/
theorem Units.head_ne (h : Units quote rest units) (hne : units ≠ []) :
    (units ++ rest).head? ≠ some '\n' := by
  cases h with
  | nil => exact absurd rfl hne
  | lineBreak | escape => simp
  | plain hc => simpa using hc.2.2

/-- Units are passed over. -/
theorem Units.bodyLength (h : Units quote rest units) (hrest : rest.head? ≠ some '\n') :
    bodyLength quote (units ++ rest) =
      (units.length + (bodyLength quote rest).1, (bodyLength quote rest).2) := by
  induction h with
  | nil => simp
  | lineBreak h ih =>
    rw [List.cons_append, List.cons_append, List.cons_append, Quoted.bodyLength, ih]
    exact Prod.ext (by simp only [List.length_cons]; omega) rfl
  | escape hc h ih =>
    rw [List.cons_append, List.cons_append, bodyLength_escape hc, ih]
    exact Prod.ext (by simp only [List.length_cons]; omega) rfl
  | @plain c units hc h ih =>
    have hnext : (units ++ rest).head? ≠ some '\n' := by
      by_cases hnil : units = []
      · rwa [hnil]
      · exact h.head_ne hnil
    rw [List.cons_append, bodyLength_plain hc fun _ => hnext, ih]
    exact Prod.ext (by simp only [List.length_cons]; omega) rfl

/-- Before a line feed the carriage return is left out. -/
theorem Units.bodyLength_lf (h : Units quote ('\n' :: rest) units) :
    Quoted.bodyLength quote (units ++ '\n' :: rest) = ((dropReturn units).length, false) := by
  induction h with
  | nil => simp [Quoted.bodyLength, dropReturn]
  | @lineBreak units h ih =>
    have hdrop : dropReturn ('\\' :: '\r' :: '\n' :: units) =
        '\\' :: '\r' :: '\n' :: dropReturn units :=
      dropReturn_append ['\\', '\r', '\n'] units fun _ => by decide
    simp [hdrop, Quoted.bodyLength, ih]
  | @escape c units hc h ih =>
    have hdrop : dropReturn ('\\' :: c :: units) = '\\' :: c :: dropReturn units := by
      refine dropReturn_append ['\\', c] units fun hnil hlast => ?_
      exact hc (by simpa using hlast) (by rw [hnil]; rfl)
    rw [hdrop, List.cons_append, List.cons_append, bodyLength_escape hc, ih]
    rfl
  | @plain c units hc h ih =>
    by_cases hreturn : units = [] ∧ c = '\r'
    · obtain ⟨rfl, rfl⟩ := hreturn
      simp [Quoted.bodyLength, dropReturn]
    · have hnext : c = '\r' → (units ++ '\n' :: rest).head? ≠ some '\n' :=
        fun hcr => h.head_ne fun hnil => hreturn ⟨hnil, hcr⟩
      rw [dropReturn_cons fun hnil hcr => hreturn ⟨hnil, hcr⟩, List.cons_append,
        bodyLength_plain hc hnext, ih]
      rfl

/-- Units go on up to a quote, a line feed, or the end of the text, where a backslash may have
nothing to take. -/
theorem exists_units (hquote : quote ≠ '\r') (text : List Char) :
    ∃ units rest, text = units ++ rest ∧ Units quote rest units ∧
      (rest = [] ∨ rest = ['\\'] ∨ rest.head? = some quote ∨ rest.head? = some '\n') := by
  fun_induction Quoted.bodyLength quote text with
  | case1 => exact ⟨[], [], rfl, .nil, .inl rfl⟩
  | case2 text _ _ _ ih =>
    obtain ⟨units, rest, rfl, hunits, hrest⟩ := ih
    exact ⟨_, rest, rfl, .lineBreak hunits, hrest⟩
  | case3 c text hne _ _ _ ih =>
    obtain ⟨units, rest, rfl, hunits, hrest⟩ := ih
    refine ⟨_, rest, rfl, .escape (fun hc hhead => ?_) hunits, hrest⟩
    obtain ⟨t, ht⟩ := List.head?_eq_some_iff.1 hhead
    exact hne t hc ht
  | case4 text =>
    exact ⟨['\r'], _, rfl, .plain ⟨by decide, hquote.symm, by decide⟩ .nil, .inr (.inr (.inr rfl))⟩
  | case5 text => exact ⟨[], _, rfl, .nil, .inr (.inr (.inr rfl))⟩
  | case6 text => exact ⟨[], _, rfl, .nil, .inr (.inr (.inl rfl))⟩
  | case7 c text hbreak hescape _ hlf hc _ _ _ ih =>
    by_cases hb : c = '\\'
    · subst hb
      cases text with
      | nil => exact ⟨[], _, rfl, .nil, .inr (.inl rfl)⟩
      | cons d text => exact absurd rfl (hescape d text rfl)
    · obtain ⟨units, rest, rfl, hunits, hrest⟩ := ih
      exact ⟨_, rest, rfl, .plain ⟨hb, hc, hlf⟩ hunits, hrest⟩

end

section

variable {quote : Char} {rest units : List Char} (hquote : quote = '"' ∨ quote = '\'')

include hquote

theorem ne_of_quote : quote ≠ '\\' ∧ quote ≠ '\r' ∧ quote ≠ '\n' := by
  rcases hquote with rfl | rfl <;> decide

/-- Units and the quote after them are the body of a literal that is closed. -/
theorem Units.bodyLength_quote (h : Units quote (quote :: rest) units) :
    Quoted.bodyLength quote (units ++ quote :: rest) = (units.length + 1, true) := by
  obtain ⟨hb, hr, hn⟩ := ne_of_quote hquote
  have hclose : Quoted.bodyLength quote (quote :: rest) = (1, true) := by
    rw [bodyLength.eq_def]
    split <;> simp_all
  rw [h.bodyLength (by simpa using hn), hclose]

/-- Units up to the end of the text, or to a backslash there, are the body of a literal that is not
closed. -/
theorem Units.bodyLength_end (h : Units quote rest units) (hrest : rest = [] ∨ rest = ['\\']) :
    Quoted.bodyLength quote (units ++ rest) = ((units ++ rest).length, false) := by
  obtain ⟨hb, -, -⟩ := ne_of_quote hquote
  rcases hrest with rfl | rfl
  · rw [h.bodyLength (by simp), List.append_nil]
    rfl
  · rw [h.bodyLength (by simp), List.length_append]
    simp [Quoted.bodyLength, hb.symm]

end

/-! ## The same scan over bytes -/

/-- The end of a quoted literal in the bytes after its opening quote, from a position on, and
whether it is closed. A backslash hides one byte, or the two of a line break, and may step past the
end. -/
def scanBytes (quote : UInt8) (bytes : List UInt8) (pos : Nat) : Nat × Bool :=
  if h : pos < bytes.length then
    if bytes[pos] = 0x5C then
      if bytes[pos + 1]? = some 0x0D ∧ bytes[pos + 2]? = some 0x0A then
        scanBytes quote bytes (pos + 3)
      else scanBytes quote bytes (pos + 2)
    else if bytes[pos] = 0x0A then
      (if 0 < pos ∧ bytes[pos - 1]? = some 0x0D then pos - 1 else pos, false)
    else if bytes[pos] = quote then (pos + 1, true)
    else scanBytes quote bytes (pos + 1)
  else (bytes.length, false)
termination_by bytes.length - pos

/-- A byte of ASCII stands for itself and for nothing else. -/
theorem encodeChar_of_mem {c : Char} {b : UInt8} (hb : b ∈ String.utf8EncodeChar c)
    (hlt : b.toNat < 128) :
    c.toNat = b.toNat ∧ String.utf8EncodeChar c = [b] := by
  have hnot {n : Nat} (hn : b = UInt8.ofNat n) (hge : 128 ≤ n % 256) : False := by
    rw [hn, UInt8.toNat_ofNat'] at hlt
    omega
  unfold String.utf8EncodeChar at hb ⊢
  dsimp only at hb ⊢
  split at hb
  · rename_i hle
    obtain rfl := List.mem_singleton.1 hb
    refine ⟨?_, if_pos hle⟩
    rw [UInt8.toNat_ofNat', Nat.mod_eq_of_lt (by omega)]
    rfl
  -- the bytes of longer sequences are all beyond ASCII
  · exfalso
    split at hb
    · simp only [List.mem_cons, List.not_mem_nil, or_false] at hb
      rcases hb with h | h <;> exact hnot h (by omega)
    split at hb
    · simp only [List.mem_cons, List.not_mem_nil, or_false] at hb
      rcases hb with h | h | h <;> exact hnot h (by omega)
    · simp only [List.mem_cons, List.not_mem_nil, or_false] at hb
      rcases hb with h | h | h | h <;> exact hnot h (by omega)

/-- An ASCII byte occurs only in the encoding of its own character. -/
theorem eq_of_mem_encodeChar {c d : Char} {b : UInt8} (hb : b ∈ String.utf8EncodeChar c)
    (hd : String.utf8EncodeChar d = [b]) (hlt : b.toNat < 128) : c = d := by
  have hb' : b ∈ String.utf8EncodeChar d := by rw [hd]; exact List.mem_singleton_self b
  rw [← Char.toNat_inj, (encodeChar_of_mem hb hlt).1, (encodeChar_of_mem hb' hlt).1]

section

variable {quote : UInt8} {left right : List UInt8} {b : UInt8}

theorem scanBytes_backslash : scanBytes quote (left ++ 0x5C :: right) left.length =
    scanBytes quote (left ++ 0x5C :: right)
      (left.length + if right[0]? = some 0x0D ∧ right[1]? = some 0x0A then 3 else 2) := by
  conv => lhs; rw [scanBytes]
  simp [List.getElem_append_right, List.getElem?_append_right]
  split <;> rfl

theorem scanBytes_lf : scanBytes quote (left ++ 0x0A :: right) left.length =
    (if left.getLast? = some 0x0D then left.length - 1 else left.length, false) := by
  rw [scanBytes, dif_pos (by simp)]
  have hlast : (0 < left.length ∧ (left ++ 0x0A :: right)[left.length - 1]? = some 0x0D) ↔
      left.getLast? = some 0x0D := by
    rw [List.getLast?_eq_getElem?]
    cases left with
    | nil => simp
    | cons b left =>
      rw [List.getElem?_append_left (by simp)]
      simp
  simp [List.getElem_append_right, hlast]

theorem scanBytes_quote (hb : quote ≠ 0x5C) (hn : quote ≠ 0x0A) :
    scanBytes quote (left ++ quote :: right) left.length = (left.length + 1, true) := by
  rw [scanBytes]
  simp [List.getElem_append_right, hb, hn]

/-- The scan passes over bytes that are no backslash, line feed or quote. -/
theorem scanBytes_skip (left right : List UInt8) {mid : List UInt8}
    (hmid : ∀ b ∈ mid, b ≠ 0x5C ∧ b ≠ 0x0A ∧ b ≠ quote) :
    scanBytes quote (left ++ (mid ++ right)) left.length =
      scanBytes quote (left ++ (mid ++ right)) (left ++ mid).length := by
  induction mid generalizing left with
  | nil => simp
  | cons b mid ih =>
    rw [List.forall_mem_cons] at hmid
    obtain ⟨⟨hb, hn, hq⟩, hmid⟩ := hmid
    have hstep : scanBytes quote (left ++ (b :: mid ++ right)) left.length =
        scanBytes quote (left ++ (b :: mid ++ right)) (left.length + 1) := by
      conv => lhs; rw [scanBytes]
      simp [List.getElem_append_right, hb, hn, hq]
    have hrest := ih (left ++ [b]) hmid
    rw [hstep]
    simpa using hrest

theorem scanBytes_end (bytes : List UInt8) {pos : Nat} (h : bytes.length ≤ pos) :
    scanBytes quote bytes pos = (bytes.length, false) := by
  rw [scanBytes, dif_neg (by omega)]

end

theorem head?_of_encode {text : List Char} (h : (Utf8.encode text)[0]? = some 0x0A) :
    text.head? = some '\n' := by
  cases text with
  | nil => cases h
  | cons c text =>
    obtain ⟨b, bytes, hc⟩ := List.exists_cons_of_ne_nil (@String.utf8EncodeChar_ne_nil c)
    rw [Utf8.encode_cons, hc] at h
    obtain rfl : b = 0x0A := by simpa using h
    have hmem : 0x0A ∈ String.utf8EncodeChar c := hc ▸ List.mem_cons_self
    obtain rfl : c = '\n' := eq_of_mem_encodeChar hmem (by decide) (by decide)
    rfl

/-- The byte of a quote. -/
def quoteByte (quote : Char) : UInt8 :=
  UInt8.ofNat quote.toNat

section

variable {quote : Char} {rest units text : List Char} (hquote : quote = '"' ∨ quote = '\'')

include hquote

theorem encodeChar_quote :
    String.utf8EncodeChar quote = [quoteByte quote] ∧ (quoteByte quote).toNat < 128 ∧
    quoteByte quote ≠ 0x5C ∧ quoteByte quote ≠ 0x0A := by
  rcases hquote with rfl | rfl <;> decide

/-- The bytes of a character by itself tell the scan nothing. -/
theorem ne_of_mem_plain {c : Char} (hc : c ≠ '\\' ∧ c ≠ quote ∧ c ≠ '\n') :
    ∀ b ∈ String.utf8EncodeChar c, b ≠ 0x5C ∧ b ≠ 0x0A ∧ b ≠ quoteByte quote := by
  obtain ⟨hq, hlt, -⟩ := encodeChar_quote hquote
  intro b hb
  refine ⟨?_, ?_, ?_⟩
  · rintro rfl
    exact hc.1 (eq_of_mem_encodeChar hb (by decide) (by decide))
  · rintro rfl
    exact hc.2.2 (eq_of_mem_encodeChar hb (by decide) (by decide))
  · rintro rfl
    exact hc.2.1 (eq_of_mem_encodeChar hb hq hlt)

/-- Nor do the bytes of a character after its first one. -/
theorem ne_of_mem_tail {c : Char} {first : UInt8} {bytes : List UInt8}
    (hc : String.utf8EncodeChar c = first :: bytes) :
    ∀ b ∈ bytes, b ≠ 0x5C ∧ b ≠ 0x0A ∧ b ≠ quoteByte quote := by
  obtain ⟨-, hlt, -⟩ := encodeChar_quote hquote
  intro b hb
  have hbeyond : ¬ b.toNat < 128 := by
    intro hascii
    have hone := (encodeChar_of_mem (hc ▸ List.mem_cons_of_mem _ hb) hascii).2
    rw [hc] at hone
    rw [(List.cons.inj hone).2] at hb
    cases hb
  refine ⟨?_, ?_, ?_⟩ <;> rintro rfl
  · exact hbeyond (by decide)
  · exact hbeyond (by decide)
  · exact hbeyond hlt

/-- Units are passed over in the bytes too. -/
theorem Units.scanBytes (h : Units quote rest units) (left : List UInt8) :
    scanBytes (quoteByte quote) (left ++ Utf8.encode (units ++ rest)) left.length =
      scanBytes (quoteByte quote) (left ++ Utf8.encode (units ++ rest))
        (left ++ Utf8.encode units).length := by
  induction h generalizing left with
  | nil => simp [Utf8.encode]
  | @lineBreak units h ih =>
    have hrest := ih (left ++ [0x5C, 0x0D, 0x0A])
    have hbytes (text : List Char) :
        Utf8.encode ('\\' :: '\r' :: '\n' :: text) = 0x5C :: 0x0D :: 0x0A :: Utf8.encode text := rfl
    rw [List.cons_append, List.cons_append, List.cons_append, hbytes, hbytes, scanBytes_backslash,
      if_pos ⟨rfl, rfl⟩]
    simpa using hrest
  | @escape c units hc h ih =>
    obtain ⟨first, bytes, hfirst⟩ := List.exists_cons_of_ne_nil (@String.utf8EncodeChar_ne_nil c)
    have hbytes (text : List Char) :
        Utf8.encode ('\\' :: c :: text) = 0x5C :: first :: (bytes ++ Utf8.encode text) := by
      rw [Utf8.encode_cons, Utf8.encode_cons, hfirst]
      rfl
    have hnot : ¬ ((first :: (bytes ++ Utf8.encode (units ++ rest)))[0]? = some 0x0D ∧
        (first :: (bytes ++ Utf8.encode (units ++ rest)))[1]? = some 0x0A) := by
      rintro ⟨hcr, hlf⟩
      obtain rfl : first = 0x0D := by simpa using hcr
      have hmem : 0x0D ∈ String.utf8EncodeChar c := hfirst ▸ List.mem_cons_self
      have hone := (encodeChar_of_mem hmem (by decide)).2
      rw [hfirst] at hone
      obtain rfl := (List.cons.inj hone).2
      exact hc (eq_of_mem_encodeChar hmem (by decide) (by decide))
        (head?_of_encode (by simpa using hlf))
    have hskip := scanBytes_skip (left ++ [0x5C, first]) (Utf8.encode (units ++ rest))
      (ne_of_mem_tail hquote hfirst)
    have hrest := ih (left ++ 0x5C :: first :: bytes)
    rw [List.cons_append, List.cons_append, hbytes, hbytes, scanBytes_backslash, if_neg hnot]
    simp only [List.append_assoc, List.cons_append, List.nil_append, List.length_append,
      List.length_cons, List.length_nil] at hskip hrest ⊢
    exact hskip.trans hrest
  | @plain c units hc h ih =>
    have hskip := scanBytes_skip left (Utf8.encode (units ++ rest)) (ne_of_mem_plain hquote hc)
    have hrest := ih (left ++ String.utf8EncodeChar c)
    rw [List.cons_append, Utf8.encode_cons, Utf8.encode_cons, hskip]
    simpa using hrest

omit hquote in
theorem byteLength_dropReturn (units : List Char) : Utf8.byteLength (dropReturn units) =
    if (Utf8.encode units).getLast? = some 0x0D then (Utf8.encode units).length - 1
    else (Utf8.encode units).length := by
  rcases List.eq_nil_or_concat units with rfl | ⟨u, c, rfl⟩
  · rfl
  rw [List.concat_eq_append]
  have hbytes : Utf8.encode (u ++ [c]) = Utf8.encode u ++ String.utf8EncodeChar c := by
    rw [Utf8.encode_append, Utf8.encode_cons]
    exact congrArg _ (List.append_nil _)
  have hlast : (Utf8.encode (u ++ [c])).getLast? = (String.utf8EncodeChar c).getLast? := by
    rw [hbytes, List.getLast?_append, Option.or_of_isSome]
    exact List.getLast?_isSome.2 String.utf8EncodeChar_ne_nil
  by_cases hc : c = '\r'
  · subst hc
    rw [dropReturn, List.getLast?_concat, if_pos rfl, List.dropLast_concat, hlast,
      if_pos (by decide), hbytes, List.length_append, Utf8.length_encode]
    rfl
  · rw [dropReturn, List.getLast?_concat, if_neg (by simpa using hc), hlast, if_neg,
      Utf8.length_encode]
    intro hcr
    exact hc (eq_of_mem_encodeChar (List.mem_of_getLast? hcr) (by decide) (by decide))

/-- The scan of the bytes finds the end of the literal. -/
theorem scanBytes_encode (text : List Char) :
    Quoted.scanBytes (quoteByte quote) (Utf8.encode text) 0 =
    (Utf8.byteLength (text.take (bodyLength quote text).1), (bodyLength quote text).2) := by
  obtain ⟨hbyte, -, hb, hn⟩ := encodeChar_quote hquote
  obtain ⟨units, rest, rfl, hunits, hrest⟩ := exists_units (ne_of_quote hquote).2.1 text
  have hpass := hunits.scanBytes hquote []
  rw [List.nil_append, List.nil_append, List.length_nil] at hpass
  rw [hpass]
  rcases hrest with rfl | rfl | hmark | hmark
  · rw [hunits.bodyLength_end hquote (.inl rfl), List.take_length, List.append_nil,
      scanBytes_end _ (Nat.le_refl _), Utf8.length_encode]
  · rw [hunits.bodyLength_end hquote (.inr rfl), List.take_length, Utf8.encode_append]
    have hbackslash : Utf8.encode ['\\'] = [0x5C] := rfl
    rw [hbackslash, scanBytes_backslash, if_neg (by simp), scanBytes_end _ (by simp), ← hbackslash,
      ← Utf8.encode_append, Utf8.length_encode]
  · obtain ⟨rest, rfl⟩ := List.head?_eq_some_iff.1 hmark
    rw [hunits.bodyLength_quote hquote, Utf8.encode_append, Utf8.encode_cons, hbyte,
      List.singleton_append,
      scanBytes_quote hb hn, take_through, Utf8.byteLength_append, Utf8.length_encode]
    have hsize : quote.utf8Size = 1 := by rw [← String.length_utf8EncodeChar, hbyte]; rfl
    rw [Utf8.byteLength_cons, hsize]
    rfl
  · obtain ⟨rest, rfl⟩ := List.head?_eq_some_iff.1 hmark
    rw [hunits.bodyLength_lf, Utf8.encode_append, Utf8.encode_cons]
    have hlf : String.utf8EncodeChar '\n' = [0x0A] := by decide
    rw [hlf, List.singleton_append, scanBytes_lf, ← byteLength_dropReturn, take_dropReturn]

end

/-! ## Literals in a source -/

/-- Where a literal ends that has been opened before a text. -/
structure EndsByUnits (kind : Kind) (quote : Char) (opening text : List Char)
    (l : Lexeme) : Prop where
  /-- With the quote that the units reach. -/
  closed : ∀ units, Reaches quote units quote text → l = ⟨kind, opening ++ units ++ [quote], true⟩
  /-- Before the line break that they reach. -/
  broken : ∀ units, Reaches quote units '\n' text → l = ⟨kind, opening ++ dropReturn units, false⟩
  /-- With the text if they reach neither. -/
  exhausted : (∀ units, ¬ Reaches quote units quote text) →
    (∀ units, ¬ Reaches quote units '\n' text) →
    l = ⟨kind, opening ++ text, false⟩
  /-- Where the scan of the bytes finds the end. -/
  bytes : ∃ body, l.text = opening ++ body ∧
    scanBytes (quoteByte quote) (Utf8.encode text) 0 = (Utf8.byteLength body, l.closed)

/-- A literal with the length that the scan finds ends as its units say. -/
theorem endsByUnits_bodyLength {quote : Char} (hquote : quote = '"' ∨ quote = '\'') (kind : Kind)
    (opening text : List Char) :
    EndsByUnits kind quote opening text
      ⟨kind, opening ++ text.take (bodyLength quote text).1, (bodyLength quote text).2⟩ := by
  refine ⟨?_, ?_, ?_, ?_⟩
  · rintro units ⟨rest, rfl, hunits⟩
    rw [hunits.bodyLength_quote hquote, take_through, List.append_assoc]
  · rintro units ⟨rest, rfl, hunits⟩
    rw [hunits.bodyLength_lf, take_dropReturn]
  · intro hclosed hbroken
    obtain ⟨units, rest, rfl, hunits, hrest⟩ := exists_units (ne_of_quote hquote).2.1 text
    rcases hrest with hend | hend | hmark | hmark
    · rw [hunits.bodyLength_end hquote (.inl hend), List.take_length]
    · rw [hunits.bodyLength_end hquote (.inr hend), List.take_length]
    · obtain ⟨rest, rfl⟩ := List.head?_eq_some_iff.1 hmark
      exact absurd ⟨rest, rfl, hunits⟩ (hclosed units)
    · obtain ⟨rest, rfl⟩ := List.head?_eq_some_iff.1 hmark
      exact absurd ⟨rest, rfl, hunits⟩ (hbroken units)
  · exact ⟨_, rfl, scanBytes_encode hquote text⟩

/-- The lexeme that an opening quote starts. -/
theorem lexeme_of_quote {word text rest : List Char} {quote : Char} {kind : Kind} {l : Lexeme}
    (hword : word ∈ encodings)
    (hkind : quote = '"' ∧ kind = .string ∨ quote = '\'' ∧ kind = .character)
    (h : Reads l.text rest l.kind l.closed) (heq : l.text ++ rest = word ++ quote :: text) :
    l = ⟨kind, word ++ [quote] ++ text.take (bodyLength quote text).1,
      (bodyLength quote text).2⟩ := by
  have hliteral : literal? word (quote :: text) =
      some ⟨kind, word.length + 1 + (bodyLength quote text).1, (bodyLength quote text).2⟩ := by
    rcases hkind with ⟨rfl, rfl⟩ | ⟨rfl, rfl⟩ <;> simp [literal?, hword]
  rw [Reads, heq, recognise_of_literal? (isWord_of_mem_encodings hword).1 hliteral] at h
  obtain ⟨rfl, hlength, hclosed⟩ := Extent.mk.inj h
  have htext : l.text = word ++ [quote] ++ text.take (bodyLength quote text).1 := by
    have hopening : word.length + 1 = (word ++ [quote]).length := by simp
    calc l.text
      _ = (l.text ++ rest).take l.text.length := List.take_left.symm
      _ = (word ++ [quote] ++ text).take (word.length + 1 + (bodyLength quote text).1) := by
        rw [heq, ← hlength, List.append_cons]
      _ = word ++ [quote] ++ text.take (bodyLength quote text).1 := by
        rw [hopening, List.take_length_add_append]
  rw [← htext, hclosed]

/-- A literal whose opening quote, with an encoding before it or without, stands where a lexeme
starts ends as its units say, and there a character of the source ends. -/
theorem quoted_literal_ends {source : List Char} {done todo : List Lexeme} {l : Lexeme}
    (h : lexemes source = done ++ l :: todo) {word text : List Char} {quote : Char} {kind : Kind}
    (hword : word ∈ encodings)
    (hkind : quote = '"' ∧ kind = .string ∨ quote = '\'' ∧ kind = .character)
    (hsource : source = done.flatMap Lexeme.text ++ (word ++ quote :: text)) :
    EndsByUnits kind quote (word ++ [quote]) text l ∧
      Utf8.IsBoundary (Utf8.encode source)
        (Utf8.byteLength (done.flatMap Lexeme.text ++ l.text)) := by
  have hcut : source = done.flatMap Lexeme.text ++ (l.text ++ todo.flatMap Lexeme.text) := by
    rw [← lexemes_flatten source, h, List.flatMap_append, List.flatMap_cons]
  have heq : l.text ++ todo.flatMap Lexeme.text = word ++ quote :: text :=
    List.append_cancel_left (hcut.symm.trans hsource)
  constructor
  · have hquote : quote = '"' ∨ quote = '\'' := hkind.imp And.left And.left
    rw [lexeme_of_quote hword hkind (reads_of_lexemes h) heq]
    exact endsByUnits_bodyLength hquote kind (word ++ [quote]) text
  · refine Utf8.isBoundary_encode_iff.2 ⟨_, ?_, rfl⟩
    rw [hcut, ← List.append_assoc]
    exact List.prefix_append _ _

/-- The backslashes hide a character of two bytes and a quote, and the line break ends the
literal. -/
theorem quoted_literal_ends_before_break :
    Reaches '"' ['\\', 'é', '\\', '"', '\r'] '\n' ['\\', 'é', '\\', '"', '\r', '\n'] ∧
      EndsByUnits .string '"' ['L', '"'] ['\\', 'é', '\\', '"', '\r', '\n']
        ⟨.string, ['L', '"', '\\', 'é', '\\', '"'], false⟩ ∧
      Utf8.IsBoundary (Utf8.encode ['=', 'L', '"', '\\', 'é', '\\', '"', '\r', '\n']) 8 := by
  have hreaches : Reaches '"' ['\\', 'é', '\\', '"', '\r'] '\n'
      ['\\', 'é', '\\', '"', '\r', '\n'] :=
    ⟨[], rfl, .escape (by decide) (.escape (by decide) (.plain (by decide) .nil))⟩
  have hlexemes : lexemes ['=', 'L', '"', '\\', 'é', '\\', '"', '\r', '\n'] =
      [⟨.punctuator, ['='], true⟩] ++ ⟨.string, ['L', '"', '\\', 'é', '\\', '"'], false⟩ ::
        [⟨.whitespace, ['\r', '\n'], true⟩] := by
    decide +kernel
  have hword : ['L'] ∈ encodings := by decide
  exact ⟨hreaches, quoted_literal_ends hlexemes hword (.inl ⟨rfl, rfl⟩) rfl⟩

end EastConst.Lexeme.Quoted
