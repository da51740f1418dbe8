import EastConst.Proofs.Plan.Pieces

/-!
# Rereading what a plan writes

Every token that stays reads in the output as it read in the source (`reads_of_kept`). White space
and qualifiers that go leave nothing to be read but a gap (`gapped_of_whitespace`,
`gapped_of_removes`), and what is put in is read as words (`gapped_insertion`).
-/

namespace EastConst

open Lexeme (Reads HaltsLike breaksLine lineBreak? startsStray isWordChar)

section

variable {options : Options} {source : List Char} {i m : Nat} {t : Token}

/-- Between tokens that stay, what is written starts as the source does, or softly. -/
theorem head?_outFrom (hr : ∀ m, i = m + 1 → (planOf options source).removes m = false) :
    (outFrom options source i).head? = (textFrom (tokens source) i).head? ∨
      StartsSoft (outFrom options source i) := by
  by_cases hend : (tokens source).length - 1 ≤ i
  · rw [outFrom_of_end hend, textFrom_of_end hend]
    exact .inl rfl
  obtain ⟨t, ht, hkt⟩ := exists_token (by omega : i < (tokens source).length - 1)
  cases hri : (planOf options source).removes i with
  | true =>
    obtain ⟨e, -, hmem, he⟩ := exists_group_of_removes hri
    exact .inr (startsSoft_of_mem he hmem (Nat.le_refl i) (Nat.le_of_lt (he.member i hmem).1))
  | false =>
    by_cases hk : t.kind = .whitespace
    · exact .inr (.inr (.inl (startsBlank_of_whitespace ht hk hr)))
    · obtain ⟨c, u, hcu, -⟩ := head_of_solid ht hkt hk
      rw [outFrom_cons ht, piece_of_solid ht hk hri, textFrom_cons ht, hcu]
      exact .inl rfl

/-! ## Across a gap -/

/-- Tokens with nothing left between them stand apart, as the plan has checked. -/
theorem length_recognise_of_gone {j : Nat} {u : Token} (ht : (tokens source)[i]? = some t)
    (hk : t.kind ≠ .whitespace) (hr : (planOf options source).removes i = false)
    (hu : (tokens source)[j]? = some u) (hku : u.kind ≠ .endOfInput) (hku' : u.kind ≠ .whitespace)
    (hrj : (planOf options source).removes j = false) (hij : i + 1 < j)
    (hgone : ∀ k, i < k → k < j → (planOf options source).isGone k = true) :
    (Lexeme.recognise (t.text ++ u.text)).length = t.text.length := by
  have hspace : (planOf options source).spaces.get? i = none := spaces_eq_none ht hk hr
  have hi : (planOf options source).isGone i = false := by simp [Plan.isGone, hspace, hr]
  have hset : Plan.Settled (tokens source) (planOf options source) j :=
    Plan.ofTokens_settled (tokens_terminated source) j
  have hbefore {m : Nat} (him : i < m) (hmj : m < j) :
      (planOf options source).survivorBefore? m = some i :=
    Plan.survivorBefore?_eq_some_iff.2 ⟨him, hi, fun k hik hkm => hgone k hik (by omega)⟩
  have hapart (h : (planOf options source).standApart (tokens source) i j = true) :
      (Lexeme.recognise (t.text ++ u.text)).length = t.text.length := by
    simpa [Plan.standApart, IndexMap.contains_eq_isSome_get?, hspace, ht, hu, Token.standsApart, hk,
      hku] using h
  obtain ⟨k, rfl⟩ : ∃ k, j = k + 1 := ⟨j - 1, by omega⟩
  have hgk := hgone k (by omega) (by omega)
  cases hx : (planOf options source).spaces.get? k with
  | none =>
    -- the token before is a qualifier that leaves nothing
    have hrk : (planOf options source).removes k = true := by simpa [Plan.isGone, hx] using hgk
    exact hapart (hset.joined k u i (Nat.lt_succ_self k) hrk hu hku' hx
      (hbefore (by omega) (Nat.lt_succ_self k)))
  | some x =>
    -- the token before is white space that is dropped
    obtain rfl : x = [] := by simpa [Plan.isGone, hx] using hgk
    generalize hy : ([] : List Char) = y at hx
    cases hset.shape k y hx with
    | @drop m v hm hv hs =>
      have him : i < m := Nat.lt_of_le_of_ne (by omega) fun h => by simp [← h, hr] at hm
      exact hapart (hset.dropped m v i (by omega) hm hv hs hx hrj (hbefore him (by omega)))
    | trim hm => simp [hrj] at hm
    | keep => cases hy

/-- What follows a token once the qualifiers after it are gone: a blank, or a word, a comment or a
colon that stands apart from it. -/
def ClosesGap (t : Token) (x : List Char) : Prop :=
  StartsBlank x ∨ ∃ c v y, x = c :: v ++ y ∧ (isWordChar c = true ∨ c = '/' ∨ c = ':') ∧
    (Lexeme.recognise (t.text ++ c :: v)).length = t.text.length

/-- Where a token that stays comes to touch what follows, the two were kept apart. -/
theorem closesGap_of_removes (ht : (tokens source)[i]? = some t) (hk : t.kind ≠ .whitespace)
    (hr : (planOf options source).removes i = false)
    (hm : (planOf options source).removes (i + 1) = true) :
    ClosesGap t (outFrom options source (i + 1)) := by
  obtain ⟨e, -, hmem, he⟩ := exists_group_of_removes hm
  have hstop : i + 1 < e.1.typeStart := (he.member _ hmem).1
  -- a token that stays where everything before it is gone
  have hsolid {j : Nat} {u : Token} (hu : (tokens source)[j]? = some u)
      (hku : u.kind ≠ .whitespace) (hrj : (planOf options source).removes j = false)
      (hij : i + 1 ≤ j) (hj : j ≤ e.1.typeStart)
      (hgone : ∀ k, i < k → k < j → (planOf options source).isGone k = true)
      (hc : ∃ c v, u.text = c :: v ∧ (isWordChar c = true ∨ c = '/' ∨ c = ':')) :
      ClosesGap t (outFrom options source j) := by
    obtain ⟨c, v, hcv, hc⟩ := hc
    have hend : u.kind ≠ .endOfInput :=
      (tokens_terminated source).kind_ne (by have := he.anchored; have := he.bounded; omega) hu
    have hne : i + 1 ≠ j := by rintro rfl; simp [hm] at hrj
    have hlen := length_recognise_of_gone ht hk hr hu hend hku hrj (by omega) hgone
    rw [outFrom_cons hu, piece_of_solid hu hku hrj, hcv, List.append_assoc]
    exact .inr ⟨c, v, _, rfl, hc, hcv ▸ hlen⟩
  refine descend (P := fun j => (∀ k, i < k → k < j → (planOf options source).isGone k = true) →
    ClosesGap t (outFrom options source j)) (fun hgone => ?_) (fun j hj hj' ih hgone => ?_)
    (Nat.le_refl (i + 1)) (Nat.le_of_lt hstop) fun k h1 h2 => by omega
  · obtain ⟨u, hu, hku, hru, c, v, hcv, hc⟩ := piece_of_typeStart he
    exact hsolid hu hku hru (Nat.le_of_lt hstop) (Nat.le_refl _) hgone
      ⟨c, v, hcv, hc.imp_right .inr⟩
  · obtain ⟨u, hu⟩ := he.exists_token hj'
    rcases piece_of_leadIn hu (he.isLeadIn hmem hj hj' hu) with
      ⟨hp, hg⟩ | hp | ⟨hku, hru, c, v, hcv, hc⟩
    · rw [outFrom_cons hu, hp]
      refine ih fun k h1 h2 => ?_
      by_cases hkj : k = j
      · rw [hkj, hg]
      · exact hgone k h1 (by omega)
    · rw [outFrom_cons hu]
      exact .inl (hp _)
    · exact hsolid hu hku hru hj (Nat.le_of_lt hj') hgone ⟨c, v, hcv, hc.imp_right .inl⟩

/-! ## After a lone backslash -/

theorem breaksLine_cons {c : Char} (h : Lexeme.Space.isSpace c = false) (x : List Char) :
    breaksLine (c :: x) = false := by
  unfold breaksLine
  split
  · rename_i heq
    rw [(List.cons.inj heq).1] at h
    exact absurd h (by decide)
  · rename_i heq
    rw [(List.cons.inj heq).1] at h
    exact absurd h (by decide)
  · rfl

/-- Part of a text that starts with no line break brings none to the front, unless it is a carriage
return before a line feed. -/
theorem eq_of_breaksLine_append {y text x z : List Char} (hy : y <+: text) (hne : y ≠ [])
    (ht : breaksLine (text ++ z) = false) (h : breaksLine (y ++ x) = true) :
    y = ['\r'] ∧ breaksLine x = true := by
  obtain ⟨u, rfl⟩ := hy
  obtain ⟨c, y, rfl⟩ := List.exists_cons_of_ne_nil hne
  unfold breaksLine at h
  split at h
  · rename_i heq
    obtain ⟨rfl, -⟩ := List.cons.inj heq
    simp [breaksLine] at ht
  · rename_i heq
    obtain ⟨rfl, hrest⟩ := List.cons.inj heq
    cases y with
    | nil =>
      obtain rfl : x = _ := hrest
      exact ⟨rfl, rfl⟩
    | cons d y =>
      obtain ⟨rfl, -⟩ := List.cons.inj hrest
      simp [breaksLine] at ht
  · cases h

theorem breaksLine_of_endsLine {text : List Char} (h : endsLine text = false) :
    breaksLine text = false := by
  unfold breaksLine
  split
  · simp [endsLine] at h
  · simp [endsLine] at h
  · rfl

/-- Part of a text that does not end its line does not bring a line break to the front. -/
theorem breaksLine_prefix_append {y text x : List Char} (hy : y <+: text)
    (ht : endsLine text = false) (hx : breaksLine x = false) : breaksLine (y ++ x) = false := by
  by_cases hne : y = []
  · rw [hne]
    exact hx
  · refine Bool.eq_false_iff.2 fun h => ?_
    have hz : breaksLine (text ++ []) = false := by
      rw [List.append_nil]
      exact breaksLine_of_endsLine ht
    simp [(eq_of_breaksLine_append hy hne hz h).2] at hx

/-- What is written from a token that stays on does not start with a line break. -/
theorem breaksLine_of_solid (ht : (tokens source)[i]? = some t) (hend : t.kind ≠ .endOfInput)
    (hk : t.kind ≠ .whitespace) (hr : (planOf options source).removes i = false) :
    breaksLine (outFrom options source i) = false := by
  obtain ⟨c, v, hcv, hs, -⟩ := head_of_solid ht hend hk
  rw [outFrom_cons ht, piece_of_solid ht hk hr, hcv]
  exact breaksLine_cons hs _

/-- Where no line ends between a qualifier that goes and its type, no line break comes to the
front. -/
theorem breaksLine_of_mem {e : Group × Nat} (he : e.1.Moves options (tokens source) e.2)
    (hm : m ∈ e.1.members)
    (hline : ∀ k u, m ≤ k → k < e.1.typeStart → (tokens source)[k]? = some u → u.endsLine = false) :
    breaksLine (outFrom options source m) = false := by
  have hend {k : Nat} {u : Token} (hu : (tokens source)[k]? = some u) (hk : k ≤ e.1.typeStart) :
      u.kind ≠ .endOfInput :=
    (tokens_terminated source).kind_ne (by have := he.anchored; have := he.bounded; omega) hu
  refine descend (P := fun j => breaksLine (outFrom options source j) = false) ?_
    (fun k hk hk' ih => ?_) (Nat.le_refl m) (Nat.le_of_lt (he.member m hm).1)
  · obtain ⟨u, hu, hku, hru, -⟩ := piece_of_typeStart he
    exact breaksLine_of_solid hu (hend hu (Nat.le_refl _)) hku hru
  · obtain ⟨u, hu⟩ := he.exists_token hk'
    by_cases hku : u.kind = .whitespace
    · rw [outFrom_cons hu]
      have hnot : endsLine u.text = false := by
        simpa [Token.endsLine, hku] using hline k u hk hk' hu
      rcases piece_of_whitespace options hu hku with ⟨hp, -⟩ | ⟨hp, -⟩ | ⟨hp, -⟩
      · rw [hp]
        exact breaksLine_prefix_append (List.prefix_refl _) hnot ih
      · rw [hp]
        exact ih
      · rw [hp]
        exact breaksLine_prefix_append (Plan.throughLastLine_isPrefix _) hnot ih
    · cases hru : (planOf options source).removes k with
      | true =>
        rw [outFrom_cons hu]
        rcases piece_of_removes hu hru with ⟨hp, -⟩ | ⟨hp, -⟩
        · rw [hp]
          exact ih
        · rw [hp]
          rfl
      | false => exact breaksLine_of_solid hu (hend hu (Nat.le_of_lt hk')) hku hru

/-- After a run that no backslash ends there is no whitespace. -/
theorem kind_ne_whitespace_of_run {u : Token} (hu : (tokens source)[i]? = some u)
    (hrun : Lexeme.Space.runLength (textFrom (tokens source) i) = 0)
    (hhead : (textFrom (tokens source) i).head? ≠ some '\\') : u.kind ≠ .whitespace := by
  intro hku
  obtain ⟨c, v, hcv, hc⟩ := startsBlank_text hu hku (textFrom (tokens source) (i + 1))
  rw [textFrom_cons hu, hcv] at hrun hhead
  rcases hc with hc | ⟨rfl, -⟩
  · simp [(Lexeme.Space.runLength_cons_eq_zero_iff.1 hrun).1] at hc
  · exact hhead rfl

theorem text_ne_nil (ht : (tokens source)[i]? = some t) (hend : t.kind ≠ .endOfInput) :
    t.text ≠ [] := by
  obtain ⟨l, -, rfl, hl⟩ := exists_lexeme ht hend
  exact hl.ne_nil

/-- A lone backslash that ended no line ends none now. -/
theorem breaksLine_outFrom (ht : (tokens source)[i]? = some t) (hk : t.kind = .punctuation)
    (hb : t.text = ['\\']) (hline : breaksLine (textFrom (tokens source) (i + 1)) = false) :
    breaksLine (outFrom options source (i + 1)) = false := by
  have hmark : t.mark? = none := by
    rw [Token.mark?, if_pos hk, hb]
    rfl
  -- a qualifier that goes right after the backslash is in the body of a macro
  have hremoved {m : Nat} (hm : (planOf options source).removes m = true) (him : i < m)
      (hbetween : ∀ k v, i < k → k < m → (tokens source)[k]? = some v →
        v.isHorizontalSpace = true) : breaksLine (outFrom options source m) = false := by
    obtain ⟨e, -, hmem, he⟩ := exists_group_of_removes hm
    obtain ⟨o, ho, hrole, hbound, hle, hlead⟩ := he.start
    have hio : i < o.index := by
      refine Nat.lt_of_not_le fun hoi => ?_
      have := hlead i t hoi (Nat.lt_trans him (he.member m hmem).1) ht
      simp [Token.isLeadIn, Token.isTrivia, Token.isTypePrefix, Qualifier.ofToken?, hk] at this
    refine breaksLine_of_mem he hmem fun k v hk1 hk2 hv => ?_
    refine endsLine_of_leading_of_unmarked ho hrole hio ht hk hmark
      (fun k v h1 h2 hv => .inl (hbetween k v h1 (Nat.lt_of_lt_of_le h2 (hle m hmem)) hv))
      (Nat.le_trans (hle m hmem) hk1) ?_ hv
    have := he.anchored
    omega
  by_cases hend : (tokens source).length - 1 ≤ i + 1
  · rw [outFrom_of_end hend]
    rfl
  obtain ⟨u, hu, hkue⟩ := exists_token (by omega : i + 1 < (tokens source).length - 1)
  cases hr1 : (planOf options source).removes (i + 1) with
  | true => exact hremoved hr1 (Nat.lt_succ_self i) fun k v h1 h2 => by omega
  | false =>
    by_cases hku : u.kind = .whitespace
    · rw [textFrom_cons hu] at hline
      rw [outFrom_cons hu]
      have hnext (hr2 : (planOf options source).removes (i + 2) = true) (hlf : '\n' ∉ u.text) :
          breaksLine (outFrom options source (i + 2)) = false :=
        hremoved hr2 (by omega) fun k v h1 h2 hv => by
          obtain rfl : k = i + 1 := by omega
          obtain rfl := Option.some.inj (hu.symm.trans hv)
          simp [Token.isHorizontalSpace, hku, hlf]
      rcases piece_of_whitespace options hu hku with
        ⟨hp, -⟩ | ⟨-, -, -, m, him, hrm⟩ | ⟨hp, -, hr2, -⟩
      · rw [hp]
        refine Bool.eq_false_iff.2 fun h => ?_
        obtain ⟨hcr, hbr⟩ :=
          eq_of_breaksLine_append (List.prefix_refl _) (text_ne_nil hu hkue) hline h
        -- the carriage return is the whole of its token, so a line feed after it was not there
        have hnot : breaksLine (outFrom options source (i + 2)) = false := by
          cases hr2 : (planOf options source).removes (i + 2) with
          | true => exact hnext hr2 (by simp [hcr])
          | false =>
            by_cases hend2 : (tokens source).length - 1 ≤ i + 2
            · rw [outFrom_of_end hend2]
              rfl
            · obtain ⟨v, hv, hkve⟩ := exists_token (by omega : i + 2 < (tokens source).length - 1)
              obtain ⟨w, hne, -, ⟨-, hrun, hhead⟩ | ⟨htext, -⟩⟩ := exists_run_of_whitespace hu hku
              · exact breaksLine_of_solid hv hkve (kind_ne_whitespace_of_run hv hrun hhead) hr2
              · cases w with
                | nil => exact absurd rfl hne
                | cons c w => simp [hcr] at htext
        simp [hnot] at hbr
      · obtain rfl : m = i := by omega
        simp [(kind_of_removes hrm ht).1] at hk
      · rw [hp]
        by_cases hlf : '\n' ∈ u.text
        · refine Bool.eq_false_iff.2 fun h => ?_
          obtain ⟨a, v, hav⟩ := List.append_of_mem hlf
          have hcut := Plan.throughLastLine_append a v
          rw [← hav] at hcut
          have := (eq_of_breaksLine_append (Plan.throughLastLine_isPrefix _)
            (by simp [hcut]) hline h).1
          rw [hcut] at this
          cases a <;> simp at this
        · rw [Plan.throughLastLine_of_not_mem hlf]
          exact hnext hr2 hlf
    · exact breaksLine_of_solid hu hkue hku hr1

/-! ## Tokens that stay -/

theorem StartsBlank.haltsLike {r x : List Char} (h : StartsBlank x) : HaltsLike r x := by
  obtain ⟨c, u, rfl, hc⟩ := h
  exact .blank (hc.imp_right And.left)

theorem endsType_of_unmarked (hw : t.isWord = false) (hm : Mark.ofText? t.text = none) :
    t.endsType = false := by
  have hmark : t.mark? = none := by
    unfold Token.mark?
    split
    · exact hm
    · rfl
  have hid : t.kind ≠ .identifier := by rintro h; simp [Token.isWord, h] at hw
  simp [Token.endsType, Token.isBuiltinType, Token.isMark, hid, hw, hmark]

/-- A quote by itself opens a character that is left open. -/
theorem reads_quote {r : List Char} {kind : Lexeme.Kind} {closed : Bool}
    (h : Reads ['\''] r kind closed) : kind = .character ∧ closed = false := by
  have hlit : Lexeme.literal? [] ('\'' :: r) =
      some ⟨.character, 0 + 1 + (Lexeme.Quoted.bodyLength '\'' r).1,
        (Lexeme.Quoted.bodyLength '\'' r).2⟩ := rfl
  have hrec := Lexeme.recognise_of_literal? ⟨by simp, by simp⟩ hlit
  rw [List.nil_append, ← List.singleton_append, h, Lexeme.Extent.mk.injEq] at hrec
  obtain ⟨hkind, hlen, hclosed⟩ := hrec
  refine ⟨hkind, Bool.eq_false_iff.2 fun hc => ?_⟩
  have hpos : 0 < (Lexeme.Quoted.bodyLength '\'' r).fst :=
    (Lexeme.Quoted.bodyLength_closed (by decide) (Prod.ext rfl (hclosed.symm.trans hc))).1
  rw [List.length_singleton] at hlen
  omega

theorem isDigitLike_of_lineBreak? {x : List Char} (h : (lineBreak? x).isSome) :
    ∀ d ∈ x.head?, Lexeme.Number.isDigitLike d = false := by
  unfold lineBreak? at h
  split at h
  · simp
  · simp only [List.head?_cons, Option.mem_def, Option.some.injEq]
    rintro d rfl
    decide
  · simp only [List.head?_cons, Option.mem_def, Option.some.injEq]
    rintro d rfl
    decide
  · cases h

/-- A token that stays starts what is written as it started the source, and what may go on a number
or the three points is what it was. -/
theorem haltsLike_of_solid (ht : (tokens source)[i]? = some t) (hend : t.kind ≠ .endOfInput)
    (hk : t.kind ≠ .whitespace) (hr : (planOf options source).removes i = false) :
    HaltsLike (textFrom (tokens source) i) (outFrom options source i) := by
  obtain ⟨l, -, rfl, hl⟩ := exists_lexeme ht hend
  obtain ⟨c, u, hcu⟩ := List.exists_cons_of_ne_nil hl.ne_nil
  have hafter (m : Nat) (hm : i + 1 = m + 1) : (planOf options source).removes m = false := by
    obtain rfl : i = m := by omega
    exact hr
  have hword (h : (Token.ofLexeme l).isWord = true) : isWordChar c = true := by
    rw [Token.isWord_ofLexeme.1 h] at hl
    obtain ⟨d, v, hdv, hd⟩ := hl.head_of_word
    obtain ⟨rfl, -⟩ := List.cons.inj (hcu.symm.trans hdv)
    exact hd
  rw [textFrom_cons ht, outFrom_cons ht, piece_of_solid ht hk hr, Token.ofLexeme_text, hcu,
    List.append_assoc]
  by_cases hp : c = '.'
  · subst hp
    refine .point fun h => ?_
    cases u with
    | cons d u => exact h
    | nil =>
      have hins : (planOf options source).insertion i = [] := by
        refine insertion_eq_nil ht (endsType_of_unmarked (Bool.eq_false_iff.2 fun h => ?_) ?_)
        · exact absurd (hword h) (by decide)
        · rw [Token.ofLexeme_text, hcu]
          rfl
      rw [hins] at h
      rcases head?_outFrom hafter with hsame | hsoft
      · exact hsame ▸ h
      · have h : (outFrom options source (i + 1)).head? = some '.' := h
        rcases hsoft with hnil | ⟨d, v, hd, hblank⟩ | ⟨d, v, hd, hc⟩
        · rw [hnil] at h
          cases h
        · rw [hd] at h
          obtain rfl : d = '.' := by simpa using h
          rcases hblank with hs | ⟨hc, -⟩
          · exact absurd hs (by decide)
          · exact absurd hc (by decide)
        · rw [hd] at h
          obtain rfl : d = '.' := by simpa using h
          exact absurd hc (by decide)
  · by_cases hq : c = '\''
    · subst hq
      refine .quote fun h => ?_
      cases u with
      | cons d u => exact h
      | nil =>
        rw [hcu] at hl
        obtain ⟨hkind, hclosed⟩ := reads_quote hl
        have hins : (planOf options source).insertion i = [] := by
          refine insertion_eq_nil ht (endsType_of_unmarked (Bool.eq_false_iff.2 fun h => ?_) ?_)
          · exact absurd (hword h) (by decide)
          · rw [Token.ofLexeme_text, hcu]
            rfl
        have hbreak := (hl.of_stopsLike (by rw [hkind, hclosed]; rfl)).1
        rw [hins]
        refine isDigitLike_of_lineBreak? (x := outFrom options source (i + 1)) ?_
        rw [lineBreak?_outFrom hafter hbreak]
        exact hbreak
    · exact .same hq hp

/-- Words, numbers, punctuators and strays that stay read as they did. -/
theorem reads_of_openEnded {l : Lexeme} (ht : (tokens source)[i]? = some (Token.ofLexeme l))
    (hl : Reads l.text (textFrom (tokens source) (i + 1)) l.kind l.closed)
    (hk : l.kind.isOpenEnded = true) (hr : (planOf options source).removes i = false) :
    Reads l.text (outFrom options source (i + 1)) l.kind l.closed := by
  have hsolid : l.kind ≠ .whitespace := by rintro h; simp [h, Lexeme.Kind.isOpenEnded] at hk
  have hkt : (Token.ofLexeme l).kind ≠ .whitespace :=
    fun h => hsolid (Token.kindOf_eq_whitespace.1 h)
  have hafter (m : Nat) (hm : i + 1 = m + 1) : (planOf options source).removes m = false := by
    obtain rfl : i = m := by omega
    exact hr
  have hback (hb : l.text = ['\\']) : breaksLine (outFrom options source (i + 1)) = false := by
    obtain ⟨c, u, hcu, -, hstray⟩ := hl.head_of_solid hsolid
    obtain ⟨rfl, rfl⟩ := List.cons.inj (hb.symm.trans hcu)
    obtain ⟨-, hstray, hline⟩ := hstray rfl
    exact breaksLine_outFrom ht (Token.kindOf_eq_punctuation.2 (.inr hstray)) hb hline
  by_cases hend : (tokens source).length - 1 ≤ i + 1
  · refine hl.of_haltsLike hk ?_ hback
    rw [outFrom_of_end hend]
    exact .nil
  obtain ⟨u, hu, hkue⟩ := exists_token (by omega : i + 1 < (tokens source).length - 1)
  cases hr1 : (planOf options source).removes (i + 1) with
  | true =>
    rcases closesGap_of_removes ht hkt hr hr1 with hblank | ⟨c, v, y, hout, hc, hlen⟩
    · exact hl.of_haltsLike hk hblank.haltsLike hback
    · -- the lexeme keeps its length before the next token, and sees only how that starts
      have hnext : Reads l.text (c :: v) l.kind l.closed := hl.of_length hlen
      refine hnext.of_haltsLike hk ?_ hback
      rw [hout]
      refine .same ?_ ?_ <;> rintro rfl <;> revert hc <;> decide
  | false =>
    refine hl.of_haltsLike hk ?_ hback
    by_cases hku : u.kind = .whitespace
    · exact (startsBlank_of_whitespace hu hku hafter).haltsLike
    · exact haltsLike_of_solid hu hkue hku hr1

theorem insertion_cases (p : Plan) (i : Nat) :
    p.insertion i = [] ∨ ∃ u, p.insertion i = ' ' :: u := by
  unfold Plan.insertion
  cases p.moves.filter (·.anchor == i) with
  | nil => exact .inl rfl
  | cons m ms => exact .inr ⟨_, rfl⟩

/-- Whether a lexeme is the opening of a raw string and nothing more. -/
def Lexeme.isBareOpening (l : Lexeme) : Bool :=
  l.kind == .rawString && Lexeme.encodings.any (· ++ ['R', '"'] == l.text)

/-- Every token that stays reads as it did. Only a bare opening of a raw string has to be asked for:
it looks for a delimiter in all of the text after it. -/
theorem reads_of_kept {l : Lexeme} (ht : (tokens source)[i]? = some (Token.ofLexeme l))
    (hl : Reads l.text (textFrom (tokens source) (i + 1)) l.kind l.closed)
    (hk : l.kind ≠ .whitespace) (hr : (planOf options source).removes i = false)
    (hraw : l.isBareOpening = true →
      Lexeme.Raw.bodyLength (outFrom options source (i + 1)) = (0, false)) :
    Reads l.text ((planOf options source).insertion i ++ outFrom options source (i + 1)) l.kind
      l.closed := by
  have hafter (m : Nat) (hm : i + 1 = m + 1) : (planOf options source).removes m = false := by
    obtain rfl : i = m := by omega
    exact hr
  by_cases hopen : l.kind.isOpenEnded = true
  · rcases insertion_cases (planOf options source) i with hins | ⟨u, hins⟩
    · rw [hins]
      exact reads_of_openEnded ht hl hopen hr
    · rw [hins]
      exact hl.of_haltsLike hopen (.blank (.inl rfl)) fun _ => rfl
  have hins : (planOf options source).insertion i = [] := by
    refine insertion_eq_nil ht (endsType_of_kind (Bool.eq_false_iff.2 fun hw => ?_) fun hp => ?_)
    · simp [Token.isWord_ofLexeme.1 hw, Lexeme.Kind.isOpenEnded] at hopen
    · rcases Token.kindOf_eq_punctuation.1 hp with h | h <;>
        simp [h, Lexeme.Kind.isOpenEnded] at hopen
  rw [hins, List.nil_append]
  -- what runs to the end of the text has nothing after it
  have hlast (h : textFrom (tokens source) (i + 1) = []) :
      Reads l.text (outFrom options source (i + 1)) l.kind l.closed := by
    have hbreak := lineBreak?_outFrom hafter (by rw [h]; rfl)
    rw [h, lineBreak?, Lexeme.lineBreak?_eq_nil] at hbreak
    rwa [hbreak, ← h]
  by_cases hline : l.kind.isLineBound l.closed = true
  · obtain ⟨hbreak, hstop⟩ := hl.of_stopsLike hline
    exact hstop _ (.inr (lineBreak?_outFrom hafter hbreak))
  cases hc : l.closed with
  | true =>
    rw [hc] at hl hline
    refine hl.of_closed ?_ _
    cases hkind : l.kind <;> simp_all [Lexeme.Kind.isOpenEnded, Lexeme.Kind.isLineBound]
  | false =>
    rw [hc] at hl hline hlast
    have hkind : l.kind = .blockComment ∨ l.kind = .rawString := by
      cases hkind : l.kind <;> simp_all [Lexeme.Kind.isOpenEnded, Lexeme.Kind.isLineBound]
    rcases hkind with hkind | hkind
    · rw [hkind] at hl
      exact hlast hl.blockComment_open
    · rw [hkind] at hl ⊢
      rcases hl.rawString_open with hnil | ⟨word, hw, htext, -⟩
      · exact hkind ▸ hlast hnil
      · have hbare : l.isBareOpening = true := by
          simp [Lexeme.isBareOpening, hkind, htext, hw]
        exact Lexeme.reads_rawString_iff.2 ⟨word, hw, [], by simpa using htext, hraw hbare⟩

/-! ## White space and gaps -/

theorem StartsSoft.not_startsStray {x : List Char} (h : StartsSoft x) : startsStray x = false := by
  rcases h with rfl | ⟨c, u, rfl, hs | ⟨rfl, hb⟩⟩ | ⟨c, u, rfl, hc⟩
  · rfl
  · have : c ≠ '\\' := by rintro rfl; revert hs; decide
    simp [startsStray, this]
  · simp [startsStray, hb]
  · have : c ≠ '\\' := by rintro rfl; revert hc; decide
    simp [startsStray, this]

/-- Neither at a qualifier that goes nor right behind it does the output start with a stray. -/
theorem startsStray_of_removes (hr : (planOf options source).removes m = true) :
    startsStray (outFrom options source m) = false ∧
      startsStray (outFrom options source (m + 1)) = false := by
  obtain ⟨e, -, hmem, he⟩ := exists_group_of_removes hr
  have hlt := (he.member m hmem).1
  exact ⟨(startsSoft_of_mem he hmem (Nat.le_refl m) (Nat.le_of_lt hlt)).not_startsStray,
    (startsSoft_of_mem he hmem (Nat.le_succ m) hlt).not_startsStray⟩

/-- A token that stays, other than a lone backslash, does not start with one. -/
theorem startsStray_of_solid (ht : (tokens source)[i]? = some t) (hend : t.kind ≠ .endOfInput)
    (hk : t.kind ≠ .whitespace) (hr : (planOf options source).removes i = false)
    (hb : t.text ≠ ['\\'] ∨ t.kind ≠ .punctuation) :
    startsStray (outFrom options source i) = false := by
  obtain ⟨c, u, hcu, -, hstray⟩ := head_of_solid ht hend hk
  have hc : c ≠ '\\' := by
    rintro rfl
    obtain ⟨rfl, hp⟩ := hstray rfl
    exact hb.elim (fun h => h hcu) fun h => h hp
  rw [outFrom_cons ht, piece_of_solid ht hk hr, hcu]
  simp [startsStray, hc]

/-- A qualifier that goes leaves nothing but its piece in a gap. -/
theorem gapped_of_removes (ht : (tokens source)[m]? = some t)
    (hr : (planOf options source).removes m = true) (gap : List Char) :
    Lexeme.gapped gap (outFrom options source m) =
      Lexeme.gapped (gap ++ (planOf options source).piece t m)
        (outFrom options source (m + 1)) := by
  rw [outFrom_cons ht]
  rcases piece_of_removes ht hr with ⟨hp, -⟩ | ⟨hp, -⟩
  · rw [hp, List.nil_append, List.append_nil]
  · rw [hp]
    exact Lexeme.gapped_run_append (by decide) (startsStray_of_removes hr).2 gap

/-- Whitespace leaves nothing but its piece in a gap. -/
theorem gapped_of_whitespace (ht : (tokens source)[i]? = some t) (hk : t.kind = .whitespace)
    (gap : List Char) :
    Lexeme.gapped gap (outFrom options source i) =
      Lexeme.gapped (gap ++ (planOf options source).piece t i)
        (outFrom options source (i + 1)) := by
  rw [outFrom_cons ht]
  rcases piece_of_whitespace options ht hk with ⟨hp, -⟩ | ⟨hp, -⟩ | ⟨hp, -, hr, -⟩
  · rw [hp]
    obtain ⟨w, hne, hw, ⟨htext, hrun, hhead⟩ | ⟨htext, -⟩⟩ := exists_run_of_whitespace ht hk
    · rw [htext]
      refine Lexeme.gapped_run_append hw ?_ gap
      by_cases hend : (tokens source).length - 1 ≤ i + 1
      · rw [outFrom_of_end hend]
        rfl
      obtain ⟨u, hu, hkue⟩ := exists_token (by omega : i + 1 < (tokens source).length - 1)
      cases hr : (planOf options source).removes (i + 1) with
      | true => exact (startsStray_of_removes hr).1
      | false =>
        refine startsStray_of_solid hu hkue (kind_ne_whitespace_of_run hu hrun hhead) hr (.inl ?_)
        intro hb
        rw [textFrom_cons hu, hb] at hhead
        exact hhead rfl
    · rw [htext, List.append_assoc, ← List.append_assoc gap]
      exact Lexeme.gapped_run_backslash hne hw _ gap
  · rw [hp, List.nil_append, List.append_nil]
  · rw [hp]
    exact Lexeme.gapped_run_append (isRun_throughLastLine_text ht hk)
      (startsStray_of_removes hr).1 gap

/-- A qualifier that goes leaves nothing to be read. -/
theorem solid_of_removes (hr : (planOf options source).removes m = true) :
    Lexeme.solid (outFrom options source m) = Lexeme.solid (outFrom options source (m + 1)) := by
  obtain ⟨e, -, hmem, he⟩ := exists_group_of_removes hr
  obtain ⟨t, q, ht, -⟩ := (he.member m hmem).2
  rw [Lexeme.solid_eq [], gapped_of_removes ht hr, ← Lexeme.solid_eq]

/-- Whitespace leaves nothing to be read. -/
theorem solid_of_whitespace (ht : (tokens source)[i]? = some t) (hk : t.kind = .whitespace) :
    Lexeme.solid (outFrom options source i) = Lexeme.solid (outFrom options source (i + 1)) := by
  rw [Lexeme.solid_eq [], gapped_of_whitespace ht hk, ← Lexeme.solid_eq]

/-! ## Qualifiers that are put in -/

/-- The word of a qualifier is read as one, before anything that does not go on a word. -/
theorem reads_qualifier (q : Qualifier) {x : List Char} (hx : ∀ c ∈ x.head?, isWordChar c = false) :
    Reads q.text x .word true := by
  have hq : q.text ≠ [] ∧ Lexeme.IsWord q.text ∧ q.text ∉ Lexeme.encodings ∧
      ∀ w ∈ Lexeme.encodings, w ++ ['R'] ≠ q.text := by
    cases q <;> decide
  obtain ⟨hne, hw, henc, hraw⟩ := hq
  exact Lexeme.reads_word_iff.2 ⟨rfl, hne, hw, hx,
    Lexeme.literal?_eq_none_iff.2 ⟨fun _ => ⟨henc, hraw⟩, fun _ => henc⟩⟩

theorem startsStray_qualifier (q : Qualifier) (x : List Char) :
    startsStray (q.text ++ x) = false := by
  cases q <;> rfl

/-- Qualifiers with a space before each are read as words, with those gaps. -/
theorem gapped_qualifiers (qs : List Qualifier) {x : List Char}
    (hx : ∀ c ∈ x.head?, isWordChar c = false) :
    Lexeme.gapped [] (qs.flatMap (fun q => ' ' :: q.text) ++ x) =
      qs.map (fun q => ([' '], ⟨.word, q.text, true⟩)) ++ Lexeme.gapped [] x := by
  induction qs with
  | nil => rfl
  | cons q qs ih =>
    have hnext : ∀ c ∈ (qs.flatMap (fun q => ' ' :: q.text) ++ x).head?, isWordChar c = false := by
      cases qs with
      | nil => exact hx
      | cons q' qs =>
        intro c hc
        obtain rfl : ' ' = c := by simpa using hc
        decide
    rw [List.flatMap_cons, List.append_assoc, List.map_cons, List.cons_append, List.cons_append,
      ← List.singleton_append, Lexeme.gapped_run_append (by decide) (startsStray_qualifier q _),
      (reads_qualifier q hnext).gapped (by decide), ih]
    rfl

/-- Where no space is put after the qualifiers at an anchor, no word follows them. -/
theorem isWordChar_of_not_needsPadding (hr : (planOf options source).removes i = false)
    (hpad : Plan.needsPadding options.spacing (tokens source) i = false) :
    ∀ c ∈ (outFrom options source (i + 1)).head?, isWordChar c = false := by
  have hafter (m : Nat) (hm : i + 1 = m + 1) : (planOf options source).removes m = false := by
    obtain rfl : i = m := by omega
    exact hr
  by_cases hend : (tokens source).length - 1 ≤ i + 1
  · rw [outFrom_of_end hend]
    simp
  obtain ⟨u, hu, hkue⟩ := exists_token (by omega : i + 1 < (tokens source).length - 1)
  rw [Plan.needsPadding, hu] at hpad
  by_cases hku : u.kind = .whitespace
  · obtain ⟨c, v, hcv, hc⟩ := startsBlank_of_whitespace hu hku hafter
    rw [hcv]
    intro d hd
    obtain rfl : c = d := by simpa using hd
    exact Lexeme.isWordChar_of_blank (hc.imp_right And.left)
  · have hp : u.kind = .punctuation := by
      cases hk : u.kind <;> simp_all
    have hru := removes_of_kind options hu (by simp [hp])
    obtain ⟨l, -, rfl, hl⟩ := exists_lexeme hu hkue
    obtain ⟨c, v, hcv, hc⟩ := hl.head_of_symbol (Token.kindOf_eq_punctuation.1 hp)
    rw [outFrom_cons hu, piece_of_solid hu hku hru, Token.ofLexeme_text, hcv]
    intro d hd
    obtain rfl : c = d := by simpa using hd
    exact hc

/-- Where a space is put after the qualifiers at an anchor, no lone backslash follows it. -/
theorem startsStray_of_needsPadding
    (hpad : Plan.needsPadding options.spacing (tokens source) i = true) :
    startsStray (outFrom options source (i + 1)) = false := by
  cases hr : (planOf options source).removes (i + 1) with
  | true => exact (startsStray_of_removes hr).1
  | false =>
    unfold Plan.needsPadding at hpad
    split at hpad
    · cases hpad
    · rename_i u hu
      have hkue : u.kind ≠ .endOfInput := by rintro h; simp [h] at hpad
      have hku : u.kind ≠ .whitespace := by rintro h; simp [h] at hpad
      refine startsStray_of_solid hu hkue hku hr ?_
      by_cases hp : u.kind = .punctuation
      · refine .inl fun hb => ?_
        have hmark : Mark.ofText? ['\\'] = none := rfl
        simp [hp, Token.mark?, hb, hmark] at hpad
      · exact .inr hp

/-- The space that is put after the qualifiers at an anchor. -/
def Plan.padding (plan : Plan) (index : Nat) : List Char :=
  if plan.padded.contains index then [' '] else []

/-- A space is put only where a qualifier is put. -/
theorem padding_eq_nil (h : (planOf options source).moves.filter (·.anchor == i) = []) :
    (planOf options source).padding i = [] := by
  have hpadded : ¬ (planOf options source).padded.contains i = true := fun hpadded => by
    obtain ⟨m, hm, ha⟩ := exists_move_of_padded hpadded
    exact List.filter_eq_nil_iff.1 h m hm (by simp [ha])
  rw [Plan.padding, if_neg hpadded]

/-- The qualifiers put in at an anchor are read as words, in order, and change nothing after
them. -/
theorem gapped_insertion (hr : (planOf options source).removes i = false) :
    Lexeme.gapped [] ((planOf options source).insertion i ++ outFrom options source (i + 1)) =
      ((planOf options source).moves.filter (·.anchor == i)).map
        (fun m => ([' '], ⟨.word, m.qualifier.text, true⟩)) ++
      Lexeme.gapped ((planOf options source).padding i) (outFrom options source (i + 1)) := by
  unfold Plan.insertion
  generalize hhere : (planOf options source).moves.filter (·.anchor == i) = here
  cases here with
  | nil =>
    rw [padding_eq_nil hhere]
    rfl
  | cons m ms =>
    have hanchor : ∃ e ∈ movable options (tokens source), e.2 = i := by
      have hm : m ∈ (planOf options source).moves.filter (·.anchor == i) := by simp [hhere]
      obtain ⟨hm, ha⟩ := List.mem_filter.1 hm
      obtain ⟨e, he, -, -, hanchor, -⟩ := exists_group_of_move hm
      exact ⟨e, he, hanchor.symm.trans (beq_iff_eq.1 ha)⟩
    have hflat : (m :: ms).flatMap (fun m => ' ' :: m.qualifier.text) =
        ((m :: ms).map Move.qualifier).flatMap (fun q => ' ' :: q.text) := by
      rw [List.flatMap_map]
    have hpadded : (planOf options source).padded.contains i =
        Plan.needsPadding options.spacing (tokens source) i := by
      rw [Bool.eq_iff_iff, planOf, Plan.ofTokens_padded_iff, and_iff_right hanchor]
    rw [if_neg (by simp), Plan.padding, hpadded, hflat, List.append_assoc]
    cases hpad : Plan.needsPadding options.spacing (tokens source) i with
    | true =>
      rw [if_pos rfl, gapped_qualifiers _ (by simp; decide),
        Lexeme.gapped_run_append (by decide) (startsStray_of_needsPadding hpad), List.map_map]
      rfl
    | false =>
      rw [if_neg (by simp), List.nil_append,
        gapped_qualifiers _ (isWordChar_of_not_needsPadding hr hpad), List.map_map]
      rfl

end

end EastConst
