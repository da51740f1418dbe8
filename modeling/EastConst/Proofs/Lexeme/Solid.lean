import EastConst.Proofs.Lexeme.Lookahead

/-!
# The lexemes of a text

Each lexeme of a text reads before the lexemes after it (`reads_of_lexemes`). `solid` leaves
whitespace out, and `gapped` gives each other lexeme with the whitespace before it. Blanks before a
text only add to the first of these gaps (`gapped_run_append`), unless the text starts with a lone
backslash, which a run takes in.
-/

namespace EastConst.Lexeme

/-! ## Lexemes fit in their text -/

theorem Space.length_le (t : List Char) : length t ≤ t.length := by
  obtain ⟨w, y, rfl, -, hrun, -⟩ := exists_run t
  unfold length
  dsimp only
  rw [hrun, List.drop_left]
  split
  · rename_i h
    obtain ⟨z, rfl⟩ := List.head?_eq_some_iff.1 h.2
    simp
  · simp

theorem Number.tailLength_le (t : List Char) : tailLength t ≤ t.length := by
  fun_induction tailLength t with
  | case1 => exact Nat.le_refl _
  | case2 c h => exact Nat.le_refl _
  | case3 c h => exact Nat.zero_le _
  | case4 c d text _ _ ih => exact Nat.add_le_add_right ih 2
  | case5 c d text _ _ => exact Nat.zero_le _
  | case6 c d text _ _ ih => exact Nat.add_le_add_right ih 2
  | case7 c d text _ _ _ ih => exact Nat.add_le_add_right ih 1
  | case8 c d text _ _ _ => exact Nat.zero_le _

theorem Number.length_le (t : List Char) : length t ≤ t.length := by
  unfold length
  split
  · rename_i d text
    have := tailLength_le text
    split
    · simp only [List.length_cons]
      omega
    · exact Nat.zero_le _
  · rename_i d text _
    have := tailLength_le text
    split
    · simp only [List.length_cons]
      omega
    · exact Nat.zero_le _
  · simp

theorem Quoted.bodyLength_le {quote : Char} (hq : quote ≠ '\\' ∧ quote ≠ '\r') (t : List Char) :
    (bodyLength quote t).1 ≤ t.length := by
  cases h : (bodyLength quote t).2 with
  | true => exact (bodyLength_closed hq (Prod.ext rfl h)).2.1
  | false => exact (bodyLength_open (Prod.ext rfl h)).1

theorem Raw.bodyLength_le (t : List Char) : (bodyLength t).1 ≤ t.length := by
  cases h : (bodyLength t).2 with
  | true => exact (bodyLength_closed (Prod.ext rfl h)).1
  | false =>
    rcases bodyLength_open (n := (bodyLength t).1) (Prod.ext rfl h) with h0 | hall
    · rw [h0]; exact Nat.zero_le _
    · exact Nat.le_of_eq hall

theorem Comment.blockLength_le (t : List Char) : (blockLength t).1 ≤ t.length := by
  cases h : (blockLength t).2 with
  | true => exact (blockLength_closed (Prod.ext rfl h)).1
  | false => exact Nat.le_of_eq (blockLength_open (Prod.ext rfl h))

theorem wordOrLiteral?_length_le {t : List Char} {e : Extent} (h : wordOrLiteral? t = some e) :
    e.length ≤ t.length := by
  obtain ⟨word, rest, rfl, -, -, hl | ⟨-, -, rfl⟩⟩ := wordOrLiteral?_eq_some h
  · rcases literal?_eq_some hl with ⟨body, rfl, -, rfl⟩ | ⟨body, rfl, -, rfl⟩ | ⟨body, rfl, -, rfl⟩
    · have := Quoted.bodyLength_le (by decide : '"' ≠ '\\' ∧ '"' ≠ '\r') body
      simp
      omega
    · have := Raw.bodyLength_le body
      simp
      omega
    · have := Quoted.bodyLength_le (by decide : '\'' ≠ '\\' ∧ '\'' ≠ '\r') body
      simp
      omega
  · simp

/-- A symbol is never longer than its text. -/
theorem symbol_length_le {t : List Char} (ht : t ≠ []) : (symbol t).length ≤ t.length := by
  unfold symbol
  split
  · rename_i body
    have := (Comment.lineLength_take_append body).1
    simp
    omega
  · rename_i body
    have := Comment.blockLength_le body
    simp
    omega
  · dsimp only
    split
    · exact List.length_pos_iff.2 ht
    · rename_i hne
      obtain ⟨p, -, hp, hlen⟩ := Punctuator.exists_of_length_ne_zero hne
      exact hlen ▸ hp.length_le

/-- A lexeme is a part of the text it is read from. -/
theorem recognise_length_le {t : List Char} (ht : t ≠ []) : (recognise t).length ≤ t.length := by
  rcases recognise_cases (rfl : recognise t = _) with
    ⟨-, he⟩ | ⟨-, -, he⟩ | ⟨-, -, hw⟩ | ⟨-, -, -, he⟩
  · rw [he]; exact Space.length_le t
  · rw [he]; exact Number.length_le t
  · exact wordOrLiteral?_length_le hw
  · rw [← he]; exact symbol_length_le ht

/-- A lexeme of a text reads before the lexemes after it. -/
theorem reads_of_lexemes {text : List Char} {pre post : List Lexeme} {l : Lexeme}
    (h : lexemes text = pre ++ l :: post) :
    Reads l.text (post.flatMap Lexeme.text) l.kind l.closed := by
  induction pre generalizing text with
  | nil =>
    cases text with
    | nil => cases h
    | cons c text =>
      rw [lexemes_cons, List.nil_append, List.cons.injEq] at h
      obtain ⟨rfl, hpost⟩ := h
      have hle := recognise_length_le (List.cons_ne_nil c text)
      rw [← hpost, lexemes_flatten, Reads, Extent.lexeme, List.take_append_drop,
        List.length_take_of_le hle]
  | cons l' pre ih =>
    cases text with
    | nil => cases h
    | cons c text =>
      rw [lexemes_cons, List.cons_append, List.cons.injEq] at h
      exact ih h.2

/-! ## Lexemes that are not whitespace -/

/-- The lexemes of a text that are not whitespace. -/
def solid (text : List Char) : List Lexeme :=
  (lexemes text).filter (·.kind != .whitespace)

/-- The lexemes that are not whitespace, each with the whitespace before it. What is before the
first one starts with `gap`. -/
def gaps : (gap : List Char) → List Lexeme → List (List Char × Lexeme)
  | _, [] => []
  | gap, l :: ls => if l.kind = .whitespace then gaps (gap ++ l.text) ls else (gap, l) :: gaps [] ls

/-- The lexemes of a text that are not whitespace, each with the whitespace before it. -/
def gapped (gap text : List Char) : List (List Char × Lexeme) :=
  gaps gap (lexemes text)

section

variable {l r w x : List Char} {kind : Kind} {closed : Bool}

/-- Without their gaps, the lexemes that are not whitespace are left. -/
theorem map_gaps (gap : List Char) (ls : List Lexeme) :
    (gaps gap ls).map Prod.snd = ls.filter (·.kind != .whitespace) := by
  induction ls generalizing gap with
  | nil => rfl
  | cons l ls ih =>
    rw [gaps]
    split
    · rename_i hk
      rw [ih, List.filter_cons_of_neg (by simp [hk])]
    · rename_i hk
      rw [List.map_cons, ih, List.filter_cons_of_pos (by simp [hk])]

theorem solid_eq (gap text : List Char) : solid text = (gapped gap text).map Prod.snd :=
  (map_gaps gap (lexemes text)).symm

/-- The lexemes of a text are the one that is read first and those of the rest. -/
theorem Reads.lexemes (h : Reads l r kind closed) :
    lexemes (l ++ r) = ⟨kind, l, closed⟩ :: lexemes r := by
  obtain ⟨c, t, ht⟩ : ∃ c t, l ++ r = c :: t := by
    cases hl : l with
    | nil => exact absurd hl h.ne_nil
    | cons c l => exact ⟨c, l ++ r, rfl⟩
  rw [Reads] at h
  rw [ht, lexemes_cons, ← ht, h]
  simp [Extent.lexeme]

@[simp]
theorem solid_nil : solid [] = [] := rfl

/-- A lexeme that is read comes with the gap before it, and starts a new one. -/
theorem Reads.gapped (h : Reads l r kind closed) (hk : kind ≠ .whitespace) (gap : List Char) :
    gapped gap (l ++ r) = (gap, ⟨kind, l, closed⟩) :: gapped [] r := by
  rw [Lexeme.gapped, h.lexemes, gaps, if_neg hk]
  rfl

/-- Whitespace that is read adds to the gap. -/
theorem Reads.gapped_whitespace (h : Reads l r .whitespace closed) (gap : List Char) :
    Lexeme.gapped gap (l ++ r) = Lexeme.gapped (gap ++ l) r := by
  rw [Lexeme.gapped, h.lexemes, gaps, if_pos rfl]
  rfl

theorem Reads.solid (h : Reads l r kind closed) (hk : kind ≠ .whitespace) :
    solid (l ++ r) = ⟨kind, l, closed⟩ :: solid r := by
  rw [solid_eq [], h.gapped hk, List.map_cons, ← solid_eq]

theorem Reads.solid_whitespace (h : Reads l r .whitespace closed) :
    Lexeme.solid (l ++ r) = Lexeme.solid r := by
  rw [solid_eq [], h.gapped_whitespace, ← solid_eq]

/-! ## Blanks before a text -/

/-- Whether a text starts with a backslash that ends no line. -/
def startsStray (t : List Char) : Bool :=
  t.head? == some '\\' && !breaksLine t.tail

/-- What follows the blanks that a text starts with, and the backslash that ends them. -/
def afterBlanks (t : List Char) : List Char :=
  let rest := t.drop (Space.runLength t)
  if rest.head? = some '\\' then rest.tail else rest

theorem afterBlanks_append (hw : Space.IsRun w) (x : List Char) :
    afterBlanks (w ++ x) = afterBlanks x := by
  unfold afterBlanks
  rw [Space.runLength_append hw, List.drop_length_add_append]

/-- A run takes in the blanks after it and one backslash. -/
theorem gapped_run (hne : w ≠ []) (hw : Space.IsRun w) (x : List Char) :
    ∃ b, x = b ++ afterBlanks x ∧
      ∀ gap, gapped gap (w ++ x) = gapped (gap ++ w ++ b) (afterBlanks x) := by
  obtain ⟨v, y, rfl, hv, -, hy⟩ := Space.exists_run x
  have hrun : Space.IsRun (w ++ v) := by
    rw [Space.IsRun, Space.runLength_append hw, hv, List.length_append]
  have hnil : w ++ v ≠ [] := by simp [hne]
  rw [afterBlanks_append hv]
  by_cases hb : y.head? = some '\\'
  · obtain ⟨z, rfl⟩ := List.head?_eq_some_iff.1 hb
    have hz : breaksLine z = false := (Space.runLength_cons_eq_zero_iff.1 hy).2 rfl
    have h : Reads (w ++ v ++ ['\\']) z .whitespace true :=
      reads_whitespace_iff.2 ⟨rfl, _, hnil, hrun, .inr ⟨rfl, hz⟩⟩
    have hafter : afterBlanks ('\\' :: z) = z := by simp [afterBlanks, hy]
    refine ⟨v ++ ['\\'], by simp [hafter], fun gap => ?_⟩
    rw [hafter, ← List.append_assoc, List.append_cons, h.gapped_whitespace]
    simp only [List.append_assoc]
  · have h : Reads (w ++ v) y .whitespace true :=
      reads_whitespace_iff.2 ⟨rfl, _, hnil, hrun, .inl ⟨rfl, hy, hb⟩⟩
    have hafter : afterBlanks y = y := by simp [afterBlanks, hy, hb]
    refine ⟨v, by rw [hafter], fun gap => ?_⟩
    rw [hafter, ← List.append_assoc, h.gapped_whitespace, List.append_assoc]

/-- Blanks before a text add to the gap before it, and change nothing else. -/
theorem gapped_run_append (hw : Space.IsRun w) (hx : startsStray x = false) (gap : List Char) :
    gapped gap (w ++ x) = gapped (gap ++ w) x := by
  by_cases hne : w = []
  · rw [hne, List.nil_append, List.append_nil]
  obtain ⟨b, hxb, hrun⟩ := gapped_run hne hw x
  rw [hrun]
  obtain ⟨v, y, rfl, hv, -, hy⟩ := Space.exists_run x
  rw [afterBlanks_append hv] at hxb ⊢
  by_cases hvn : v = []
  · subst hvn
    have hb : y.head? ≠ some '\\' := by
      intro hb
      obtain ⟨z, rfl⟩ := List.head?_eq_some_iff.1 hb
      simp [startsStray, (Space.runLength_cons_eq_zero_iff.1 hy).2 rfl] at hx
    have hafter : afterBlanks y = y := by simp [afterBlanks, hy, hb]
    rw [hafter, List.nil_append, List.self_eq_append_left] at hxb
    rw [hxb, hafter, List.append_nil, List.nil_append]
  · obtain ⟨b', hyb, hrun'⟩ := gapped_run hvn hv y
    have hb : b = v ++ b' := by
      have heq : b ++ afterBlanks y = v ++ b' ++ afterBlanks y := by
        rw [← hxb, List.append_assoc, ← hyb]
      exact List.append_cancel_right heq
    rw [hrun', hb]
    simp only [List.append_assoc]

/-- A run and a backslash before a text add to the gap before it, and change nothing else. -/
theorem gapped_run_backslash (hne : w ≠ []) (hw : Space.IsRun w) (x gap : List Char) :
    gapped gap (w ++ '\\' :: x) = gapped (gap ++ w ++ ['\\']) x := by
  cases hx : breaksLine x with
  | false =>
    have h : Reads (w ++ ['\\']) x .whitespace true :=
      reads_whitespace_iff.2 ⟨rfl, _, hne, hw, .inr ⟨rfl, hx⟩⟩
    rw [List.append_cons, h.gapped_whitespace, List.append_assoc]
  | true =>
    -- the backslash continues the line, and the run goes on in `x`
    have hcontinued (v y : List Char) (hv : v ≠ []) (hrun : Space.IsRun v)
        (hrun' : Space.IsRun ('\\' :: v)) :
        gapped gap (w ++ '\\' :: (v ++ y)) = gapped (gap ++ w ++ ['\\']) (v ++ y) := by
      have hjoined : Space.IsRun (w ++ '\\' :: v) := by
        rw [Space.IsRun, Space.runLength_append hw, hrun', List.length_append]
      obtain ⟨b, hyb, hb⟩ := gapped_run (by simp) hjoined y
      obtain ⟨b', hyb', hb'⟩ := gapped_run hv hrun y
      obtain rfl : b = b' := List.append_cancel_right (hyb.symm.trans hyb')
      have hsplit : w ++ '\\' :: (v ++ y) = (w ++ '\\' :: v) ++ y := by simp
      rw [hsplit, hb, hb']
      simp
    unfold breaksLine at hx
    split at hx
    · exact hcontinued ['\n'] _ (by simp) (by decide) (by decide)
    · exact hcontinued ['\r', '\n'] _ (by simp) (by decide) (by decide)
    · cases hx

end

end EastConst.Lexeme
