import EastConst.Proofs.Lexeme.Ending
import EastConst.Proofs.Plan.Lines
import EastConst.Proofs.Text.Line

/-!
# Blanks at the ends of lines

When a qualifier that ends its line goes, the blanks before it go too, unless a step before has
changed them already. So a line of a relocation can end with a blank where the line of the source
does not. `Bares` says where: a run of tokens that all go stands before the line break, and what is
left before the run is padding or white space that no step has changed. `trailing_blank_iff` says
that there are no other such lines, and what is needed for one: a moved qualifier that ends its line
and touches an anchor, or has only white space between itself and another moved qualifier.
-/

namespace EastConst

/-! ## How words and insertions end -/

theorem isTrailing_of_isSpace {c : Char} (h : Lexeme.Space.isSpace c = false) :
    isTrailing c = false ∧ c ≠ '\r' := by
  constructor
  · apply Bool.eq_false_iff.2
    intro ht
    simp only [isTrailing, Bool.or_eq_true, beq_iff_eq] at ht
    rcases ht with rfl | rfl <;> cases h
  · rintro rfl
    cases h

theorem endsFirm_of_isSpace {x : List Char} (hne : x ≠ [])
    (h : ∀ c ∈ x.getLast?, Lexeme.Space.isSpace c = false) : EndsFirm x := by
  obtain ⟨c, hc⟩ := Option.isSome_iff_exists.1 (by simpa using hne : x.getLast?.isSome = true)
  exact ⟨c, hc, isTrailing_of_isSpace (h c hc)⟩

theorem Qualifier.endsFirm (q : Qualifier) : EndsFirm q.text := by
  cases q with
  | const => exact ⟨'t', rfl, rfl, by decide⟩
  | volatile => exact ⟨'e', rfl, rfl, by decide⟩

/-- What is put after an anchor ends with its last qualifier, if it is not padded. -/
theorem Plan.endsFirm_insertion {plan : Plan} {i : Nat} (hpad : plan.padded.contains i = false) :
    plan.insertion i = [] ∨ EndsFirm (plan.insertion i) := by
  unfold insertion
  dsimp only
  split
  · exact .inl rfl
  · rename_i hne
    obtain ⟨ms, m, hms⟩ := List.eq_nil_or_concat (plan.moves.filter (·.anchor == i)) |>.resolve_left
      (by simpa using hne)
    rw [hms, hpad, if_neg (by simp), List.append_nil, List.concat_eq_append, List.flatMap_append,
      List.flatMap_singleton]
    exact .inr ((m.qualifier.endsFirm.append [' ']).append _)

section

variable {options : Options} {source : List Char} {i : Nat} {t : Token}

/-! ## Tokens that stay -/

/-- A token that a type can end with has no blank at its end. -/
theorem endsFirm_of_endsType (ht : (tokens source)[i]? = some t) (he : t.endsType = true) :
    EndsFirm t.text := by
  have hkind : t.isWord = true ∨ t.kind = .punctuation := by
    apply Decidable.byContradiction
    intro hnot
    rw [not_or] at hnot
    rw [endsType_of_kind (by simpa using hnot.1) hnot.2] at he
    cases he
  have hend : t.kind ≠ .endOfInput := by
    rcases hkind with hk | hk
    · intro h
      simp [Token.isWord, h] at hk
    · simp [hk]
  obtain ⟨l, -, rfl, hl⟩ := exists_lexeme ht hend
  have hk : l.kind = .word ∨ l.kind = .number ∨ l.kind = .punctuator ∨ l.kind = .stray := by
    rcases hkind with hk | hk
    · exact .inl (Token.isWord_ofLexeme.1 hk)
    · exact .inr (.inr (Token.kindOf_eq_punctuation.1 hk))
  exact endsFirm_of_isSpace hl.ne_nil fun c hc => hl.isSpace_of_mem hk c (List.mem_of_getLast? hc)

/-- After a token that stays and is not padded, the relocation and the source end alike. -/
theorem endAlike_of_solid (ht : (tokens source)[i]? = some t) (hk : t.kind ≠ .whitespace)
    (hend : t.kind ≠ .endOfInput) (hr : (planOf options source).removes i = false)
    (hpad : (planOf options source).padded.contains i = false) :
    EndAlike (outBefore options source (i + 1)) (textBefore (tokens source) (i + 1)) := by
  rw [outBefore_succ options ht, textBefore_succ ht, piece_of_solid ht hk hr]
  rcases Plan.endsFirm_insertion hpad with hnil | hfirm
  · obtain ⟨c, u, htext, hc, -⟩ := head_of_solid ht hend hk
    rw [hnil, List.append_nil]
    refine .append_of_ne (by simp [htext]) ?_ _ _
    rw [htext]
    intro h
    exact (isTrailing_of_isSpace hc).2 (List.cons.inj h).1
  · have he : t.endsType = true := by
      apply Decidable.byContradiction
      intro he
      rw [insertion_eq_nil ht (by simpa using he)] at hfirm
      obtain ⟨c, hc, -⟩ := hfirm
      cases hc
    rw [← List.append_assoc]
    exact (hfirm.append _).alike ((endsFirm_of_endsType ht he).append _)

/-- No padding is put before whitespace or the end of the input. -/
theorem not_padded {u : Token} (hu : (tokens source)[i + 1]? = some u)
    (hk : u.kind = .whitespace ∨ u.kind = .endOfInput) :
    (planOf options source).padded.contains i = false := by
  apply Bool.eq_false_iff.2
  intro hpad
  have hneeds := (Plan.ofTokens_padded_iff.1 hpad).2
  rw [Plan.needsPadding, hu] at hneeds
  rcases hk with hk | hk <;> simp [hk] at hneeds

theorem endsType_of_blank (hk : t.kind = .whitespace ∨ t.kind = .endOfInput) :
    t.endsType = false := by
  rcases hk with hk | hk <;> exact endsType_of_kind (by simp [Token.isWord, hk]) (by simp [hk])

/-- Behind a qualifier that goes stands the end of a type. -/
theorem exists_anchor_of_removes {m : Nat} (hr : (planOf options source).removes m = true) :
    ∃ k t, m < k ∧ (tokens source)[k]? = some t ∧ t.endsType = true := by
  obtain ⟨e, -, hmem, he⟩ := exists_group_of_removes hr
  have hlt := (he.member _ hmem).1
  obtain ⟨hle, -, u, hu, hend⟩ := he.anchored
  exact ⟨e.2, u, by omega, hu, hend⟩

/-- Nothing moves to where only white space is left. -/
theorem not_removes_of_tail (options : Options) {m : Nat}
    (h : ∀ k t, m < k → (tokens source)[k]? = some t →
      t.kind = .whitespace ∨ t.kind = .endOfInput) :
    (planOf options source).removes m = false := by
  apply Bool.eq_false_iff.2
  intro hr
  obtain ⟨k, u, hlt, hu, he⟩ := exists_anchor_of_removes hr
  rw [endsType_of_blank (h k u hlt hu)] at he
  cases he

/-- The run lemma for the last line: where only white space is left, the relocation and the source
end alike. -/
theorem endAlike_of_tail (options : Options) (hi : i ≤ (tokens source).length - 1)
    (htail : ∀ k t, i ≤ k → (tokens source)[k]? = some t →
      t.kind = .whitespace ∨ t.kind = .endOfInput) :
    EndAlike (outBefore options source i) (textBefore (tokens source) i) := by
  induction i with
  | zero => exact .refl []
  | succ i ih =>
    obtain ⟨t, ht, hend⟩ := exists_token (by omega : i < (tokens source).length - 1)
    obtain ⟨u, hu⟩ : ∃ u, (tokens source)[i + 1]? = some u :=
      ⟨_, List.getElem?_eq_getElem (by omega : i + 1 < (tokens source).length)⟩
    have hku := htail (i + 1) u (Nat.le_refl _) hu
    by_cases hk : t.kind = .whitespace
    · have htail' : ∀ k v, i ≤ k → (tokens source)[k]? = some v →
          v.kind = .whitespace ∨ v.kind = .endOfInput := by
        intro k v hik hv
        rcases Nat.eq_or_lt_of_le hik with rfl | hlt
        · obtain rfl := Option.some.inj (ht.symm.trans hv)
          exact .inl hk
        · exact htail k v hlt hv
      rw [outBefore_succ options ht, textBefore_succ ht]
      rcases piece_of_whitespace options ht hk with ⟨hp, -⟩ | ⟨-, -, -, m, rfl, hr⟩ | ⟨-, -, hr, -⟩
      · rw [hp]
        exact (ih (by omega) htail').append t.text
      · rw [not_removes_of_tail options fun k v hlt => htail' k v (by omega)] at hr
        cases hr
      · have hkey := (kind_of_removes hr hu).1
        rcases hku with h | h <;> simp [h] at hkey
    · exact endAlike_of_solid ht hk hend
        (not_removes_of_tail options fun k v hlt => htail k v (by omega))
        (not_padded hu hku)

theorem not_whitespace_before_break {m : Nat} {s : Token} {u v : List Char}
    (hs : (tokens source)[m]? = some s) (ht : (tokens source)[m + 1]? = some t)
    (hu : u = [] ∨ u = ['\r']) (htext : t.text = u ++ '\n' :: v) : s.kind ≠ .whitespace := by
  intro hk
  have hfrom : textFrom (tokens source) (m + 1) =
      u ++ '\n' :: (v ++ textFrom (tokens source) (m + 2)) := by
    rw [textFrom_cons ht, htext, List.append_assoc, List.cons_append]
  obtain ⟨w, -, -, ⟨-, hrun, -⟩ | ⟨-, hbreak⟩⟩ := exists_run_of_whitespace hs hk
  · rw [hfrom] at hrun
    rcases hu with rfl | rfl <;> cases (Lexeme.Space.runLength_cons_eq_zero_iff.1 hrun).1
  · rw [hfrom] at hbreak
    rcases hu with rfl | rfl <;> cases hbreak

/-- Before a line break that no qualifier leaves bare, the relocation and the source end alike. -/
theorem endAlike_before_break {u v : List Char} (ht : (tokens source)[i]? = some t)
    (hk : t.kind = .whitespace) (hu : u = [] ∨ u = ['\r']) (htext : t.text = u ++ '\n' :: v)
    (hr : ∀ m, i = m + 1 → (planOf options source).removes m = false) :
    EndAlike (outBefore options source i) (textBefore (tokens source) i) := by
  cases i with
  | zero => exact .refl []
  | succ m =>
    have hlt := (List.getElem?_eq_some_iff.1 ht).1
    obtain ⟨s, hs, hsend⟩ := exists_token (by omega : m < (tokens source).length - 1)
    exact endAlike_of_solid hs (not_whitespace_before_break hs ht hu htext) hsend (hr m rfl)
      (not_padded ht (.inl hk))

/-! ## Tokens that go -/

theorem piece_of_isGone (ht : (tokens source)[i]? = some t)
    (hg : (planOf options source).isGone i = true) :
    (planOf options source).piece t i = [] := by
  rw [Plan.isGone] at hg
  cases hr : (planOf options source).removes i with
  | true =>
    rw [Plan.piece, if_pos hr]
    cases hx : (planOf options source).spaces.get? i with
    | none => rfl
    | some x =>
      rw [hx] at hg
      exact List.isEmpty_iff.1 hg
  | false =>
    cases hx : (planOf options source).spaces.get? i with
    | none =>
      rw [hx, hr] at hg
      cases hg
    | some x =>
      rw [hx] at hg
      obtain rfl := List.isEmpty_iff.1 hg
      have hk : t.kind = .whitespace := by
        apply Decidable.byContradiction
        intro hk
        rw [spaces_eq_none ht hk hr] at hx
        cases hx
      rw [Plan.piece, if_neg (by simp [hr]), hx, insertion_eq_nil ht (endsType_of_whitespace hk)]
      rfl

/-- Tokens that go leave nothing behind. -/
theorem outBefore_of_gone {j : Nat} (hj : j ≤ i) (hi : i ≤ (tokens source).length)
    (hgone : ∀ k, j ≤ k → k < i → (planOf options source).isGone k = true) :
    outBefore options source i = outBefore options source j := by
  induction i with
  | zero =>
    obtain rfl : j = 0 := by omega
    rfl
  | succ i ih =>
    rcases Nat.eq_or_lt_of_le hj with rfl | hlt
    · rfl
    · have ht := List.getElem?_eq_getElem (by omega : i < (tokens source).length)
      rw [outBefore_succ options ht, piece_of_isGone ht (hgone i (by omega) (by omega)),
        List.append_nil]
      exact ih (by omega) (by omega) fun k hjk hki => hgone k hjk (by omega)

/-- A token that goes is a qualifier, or white space on one line. -/
theorem removes_or_blank_of_isGone (ht : (tokens source)[i]? = some t)
    (hg : (planOf options source).isGone i = true) :
    (planOf options source).removes i = true ∨ (t.kind = .whitespace ∧ '\n' ∉ t.text) := by
  by_cases hk : t.kind = .whitespace
  · refine .inr ⟨hk, ?_⟩
    rw [Plan.isGone] at hg
    rcases piece_of_whitespace options ht hk with ⟨-, hx⟩ | ⟨-, -, hs, -⟩ | ⟨-, hx, -⟩
    · rw [hx, removes_of_kind options ht (by simp [hk])] at hg
      cases hg
    · simpa [Token.isHorizontalSpace, hk] using hs
    · rw [hx] at hg
      have hcount := Plan.count_lf_throughLastLine t.text
      rw [List.isEmpty_iff.1 hg] at hcount
      exact List.count_eq_zero.1 hcount.symm
  · refine .inl ?_
    cases hr : (planOf options source).removes i with
    | true => rfl
    | false =>
      rw [Plan.isGone, spaces_eq_none ht hk hr, hr] at hg
      cases hg

theorem lineBreak?_of_isGone (ht : (tokens source)[i]? = some t)
    (hg : (planOf options source).isGone i = true) :
    Lexeme.lineBreak? (textFrom (tokens source) i) = none := by
  rcases removes_or_blank_of_isGone ht hg with hr | ⟨hk, hlf⟩
  · obtain ⟨move, -, hq⟩ := exists_move_of_removes hr ht
    rw [textFrom_cons ht, Token.text_of_qualifier hq]
    cases move.qualifier <;> rfl
  · cases hb : Lexeme.lineBreak? (textFrom (tokens source) i) with
    | none => rfl
    | some b =>
      obtain ⟨a, u, htext, -⟩ := lineBreak?_text ht hk hb
      exact absurd (by simp [htext]) hlf

/-- No two qualifiers touch, so that none goes right behind another. -/
theorem not_removes_adjacent {m : Nat} {s : Token} (hs : (tokens source)[m]? = some s)
    (hr : (planOf options source).removes m = true) (ht : (tokens source)[m + 1]? = some t) :
    (planOf options source).removes (m + 1) = false := by
  apply Bool.eq_false_iff.2
  intro hr'
  obtain ⟨l, -, rfl, hl⟩ := exists_lexeme hs (by simp [(kind_of_removes hr hs).1])
  have hword : l.kind = .word :=
    Token.isWord_ofLexeme.1 (by simp [Token.isWord, (kind_of_removes hr hs).1])
  rw [hword] at hl
  obtain ⟨-, -, -, hnot, -⟩ := Lexeme.reads_word_iff.1 hl
  obtain ⟨move, -, hq⟩ := exists_move_of_removes hr' ht
  rw [textFrom_cons ht, Token.text_of_qualifier hq] at hnot
  cases hm : move.qualifier with
  | const =>
    rw [hm] at hnot
    cases hnot 'c' rfl
  | volatile =>
    rw [hm] at hnot
    cases hnot 'v' rfl

/-- A text stays in place of a qualifier only before a token that is not white space. -/
theorem not_whitespace_after_space {m : Nat} {s : Token} {x : List Char}
    (hs : (tokens source)[m]? = some s) (hr : (planOf options source).removes m = true)
    (hx : (planOf options source).spaces.get? m = some x) (ht : (tokens source)[m + 1]? = some t) :
    t.kind ≠ .whitespace := by
  have hk := (kind_of_removes hr hs).1
  cases (Plan.ofTokens_settled (tokens_terminated source) 0).shape m x hx with
  | drop _ hu hsu =>
    obtain rfl := Option.some.inj (hs.symm.trans hu)
    rw [Token.kind_of_isHorizontalSpace hsu] at hk
    cases hk
  | trim _ hu hku =>
    obtain rfl := Option.some.inj (hs.symm.trans hu)
    rw [hku] at hk
    cases hk
  | keep _ hu hku =>
    obtain rfl := Option.some.inj (ht.symm.trans hu)
    exact hku

/-- A token that stays before one that goes has no blank at its end, unless it is padded. -/
theorem endsFirm_before_gone {j : Nat} {s : Token} (hs : (tokens source)[j]? = some s)
    (hk : s.kind ≠ .whitespace) (hr : (planOf options source).removes j = false)
    (hpad : (planOf options source).padded.contains j = false)
    (ht : (tokens source)[j + 1]? = some t)
    (hgone : (planOf options source).isGone (j + 1) = true) :
    EndsFirm (outBefore options source (j + 1)) := by
  have hlt := (List.getElem?_eq_some_iff.1 ht).1
  rw [outBefore_succ options hs, piece_of_solid hs hk hr]
  rcases Plan.endsFirm_insertion hpad with hnil | hins
  · rw [hnil, List.append_nil]
    obtain ⟨l, -, rfl, hl⟩ := exists_lexeme hs ((tokens_terminated source).kind_ne (by omega) hs)
    rcases hl.last_of_solid fun h => hk (Token.kindOf_eq_whitespace.2 h) with hbreak | hlast
    · rw [lineBreak?_of_isGone ht hgone] at hbreak
      cases hbreak
    · exact (endsFirm_of_isSpace hl.ne_nil hlast).append _
  · rw [← List.append_assoc]
    exact hins.append _

/-- What is left before tokens that go ends blank only if it is padded, or white space that has not
been changed. -/
theorem kept_of_endsBlank {j : Nat} {u : List Char} (hu : u = [] ∨ u = ['\r'])
    (ht : (tokens source)[j + 1]? = some t) (hstays : (planOf options source).isGone j = false)
    (hgone : (planOf options source).isGone (j + 1) = true)
    (hblank : endsBlank (outBefore options source (j + 1) ++ u) = true) :
    (planOf options source).padded.contains j = true ∨
      ∃ s, (tokens source)[j]? = some s ∧ s.kind = .whitespace ∧
        (planOf options source).spaces.get? j = none := by
  have hfirm : ¬ EndsFirm (outBefore options source (j + 1)) := by
    intro h
    rw [h.endsBlank hu] at hblank
    cases hblank
  have hlt := (List.getElem?_eq_some_iff.1 ht).1
  obtain ⟨s, hs, -⟩ := exists_token (by omega : j < (tokens source).length - 1)
  by_cases hk : s.kind = .whitespace
  · rcases piece_of_whitespace options hs hk with ⟨-, hx⟩ | ⟨-, hx, -⟩ | ⟨hp, hx, -⟩
    · exact .inr ⟨s, hs, hk, hx⟩
    · simp [Plan.isGone, hx] at hstays
    · obtain ⟨-, -, -, hnil | hlast⟩ := Plan.exists_gone s.text
      · simp [Plan.isGone, hx, hnil] at hstays
      · rw [outBefore_succ options hs, hp] at hfirm
        exact absurd (EndsFirm.append ⟨'\n', hlast, rfl, by decide⟩ _) hfirm
  · cases hr : (planOf options source).removes j with
    | true =>
      rcases piece_of_removes hs hr with ⟨-, hx⟩ | ⟨-, hx⟩
      · simp [Plan.isGone, hx, hr] at hstays
      · -- a space is left only before a token that is no white space, and two words never touch
        rcases removes_or_blank_of_isGone ht hgone with hr' | ⟨hkt, -⟩
        · rw [not_removes_adjacent hs hr ht] at hr'
          cases hr'
        · exact absurd hkt (not_whitespace_after_space hs hr hx ht)
    | false =>
      cases hpad : (planOf options source).padded.contains j with
      | true => exact .inl rfl
      | false => exact absurd (endsFirm_before_gone hs hk hr hpad ht hgone) hfirm

/-! ## Line breaks that come to stand after a blank -/

/-- The line break at `i` is left bare: the tokens between `j` and it go, and what comes to stand
before it ends blank, being the padding of an anchor or white space that has not been changed. -/
structure Bares (options : Options) (source : List Char) (i j : Nat) (u : List Char) : Prop where
  lineBreak : ∃ t v, (tokens source)[i]? = some t ∧ t.kind = .whitespace ∧ t.text = u ++ '\n' :: v
  ending : u = [] ∨ u = ['\r']
  survivor : (planOf options source).survivorBefore? i = some j
  run : j + 1 < i
  kept : (planOf options source).padded.contains j = true ∨
    (∃ s, (tokens source)[j]? = some s ∧ s.kind = .whitespace ∧
      (planOf options source).spaces.get? j = none) ∧
    endsBlank (outBefore options source (j + 1) ++ u) = true

theorem solid_of_padded {j : Nat} (h : (planOf options source).padded.contains j = true) :
    ∃ s, (tokens source)[j]? = some s ∧ s.kind ≠ .whitespace ∧
      (planOf options source).removes j = false := by
  obtain ⟨move, hmove, rfl⟩ := exists_move_of_padded h
  obtain ⟨e, -, he, -, hanchor, -⟩ := exists_group_of_move hmove
  obtain ⟨-, -, s, hs, hends⟩ := he.anchored
  rw [← hanchor] at hs
  refine ⟨s, hs, fun hk => ?_, Bool.eq_false_iff.2 fun hr => ?_⟩
  · rw [endsType_of_whitespace hk] at hends
    cases hends
  · rw [(kind_of_removes hr hs).2] at hends
    cases hends

/-- Behind a padded anchor the output ends with a space. -/
theorem getLast?_outBefore_of_padded {j : Nat}
    (h : (planOf options source).padded.contains j = true) :
    (outBefore options source (j + 1)).getLast? = some ' ' := by
  obtain ⟨s, hs, hk, hr⟩ := solid_of_padded h
  obtain ⟨move, hmove, rfl⟩ := exists_move_of_padded h
  have hhere : ((planOf options source).moves.filter (·.anchor == move.anchor)).isEmpty =
      false := by
    apply Bool.eq_false_iff.2
    intro hnil
    rw [List.isEmpty_iff, List.filter_eq_nil_iff] at hnil
    exact hnil move hmove (by simp)
  rw [outBefore_succ options hs, piece_of_solid hs hk hr, Plan.insertion, hhere,
    if_neg Bool.false_ne_true,
    if_pos h, ← List.append_assoc, ← List.append_assoc, List.getLast?_concat]

namespace Bares

variable {j : Nat} {u : List Char}

theorem isGone (h : Bares options source i j u) {k : Nat} (hjk : j < k) (hki : k < i) :
    (planOf options source).isGone k = true :=
  (Plan.survivorBefore?_eq_some_iff.1 h.survivor).2.2 k hjk hki

theorem endsBlank_outBefore (h : Bares options source i j u) :
    endsBlank (outBefore options source i ++ u) = true := by
  obtain ⟨t, v, ht, -⟩ := h.lineBreak
  have hlt := (List.getElem?_eq_some_iff.1 ht).1
  rw [outBefore_of_gone (Nat.le_of_lt h.run) (by omega) fun k hjk hki => h.isGone hjk hki]
  rcases h.kept with hpad | ⟨-, hblank⟩
  · obtain ⟨z, hz⟩ := List.getLast?_eq_some_iff.1 (getLast?_outBefore_of_padded hpad)
    rcases h.ending with rfl | rfl
    · rw [hz, List.append_nil, endsBlank_concat (by decide)]
      rfl
    · rw [hz, endsBlank_cr, List.getLast?_concat]
      rfl
  · exact hblank

end Bares

theorem isGone_of_survivorBefore?_eq_none {p : Plan} (h : p.survivorBefore? i = none) :
    ∀ k < i, p.isGone k = true := by
  induction i with
  | zero => exact fun k hk => absurd hk (by omega)
  | succ i ih =>
    rw [Plan.survivorBefore?] at h
    split at h
    · rename_i hgone
      intro k hk
      rcases Nat.eq_or_lt_of_le (Nat.le_of_lt_succ hk) with rfl | hlt
      · exact hgone
      · exact ih h k hlt
    · cases h

/-- Where a qualifier that ends its line goes and a blank comes to its place, the line break is left
bare. -/
theorem exists_bares_of_removes {m : Nat} {u v : List Char}
    (hr : (planOf options source).removes m = true)
    (ht : (tokens source)[m + 1]? = some t) (hk : t.kind = .whitespace) (hu : u = [] ∨ u = ['\r'])
    (htext : t.text = u ++ '\n' :: v)
    (hblank : endsBlank (outBefore options source (m + 1) ++ u) = true) :
    ∃ j, Bares options source (m + 1) j u := by
  have hlt := (List.getElem?_eq_some_iff.1 ht).1
  obtain ⟨s, hs, -⟩ := exists_token (by omega : m < (tokens source).length - 1)
  have hgone : (planOf options source).isGone m = true := by
    cases hx : (planOf options source).spaces.get? m with
    | none => rw [Plan.isGone, hx, hr]
    | some x => exact absurd hk (not_whitespace_after_space hs hr hx ht)
  cases hsurvivor : (planOf options source).survivorBefore? (m + 1) with
  | none =>
    have hall := isGone_of_survivorBefore?_eq_none hsurvivor
    rw [outBefore_of_gone (Nat.zero_le _) (Nat.le_of_lt hlt) fun k _ hk => hall k hk] at hblank
    rcases hu with rfl | rfl <;> cases hblank
  | some j =>
    obtain ⟨hjm, hstays, hbetween⟩ := Plan.survivorBefore?_eq_some_iff.1 hsurvivor
    have hne : j ≠ m := by
      rintro rfl
      rw [hgone] at hstays
      cases hstays
    have hrun : j + 1 < m + 1 := by omega
    rw [outBefore_of_gone hjm (Nat.le_of_lt hlt) fun k hjk hkm => hbetween k hjk hkm] at hblank
    have hnext := List.getElem?_eq_getElem (by omega : j + 1 < (tokens source).length)
    have hkept := kept_of_endsBlank hu hnext hstays
      (hbetween (j + 1) (Nat.lt_succ_self j) hrun) hblank
    exact ⟨j, ⟨t, v, ht, hk, htext⟩, hu, hsurvivor, hrun, hkept.imp_right fun h => ⟨h, hblank⟩⟩

/-- A line that ends with a line break of white space has a blank at its end exactly if it had one,
or if its line break is left bare. -/
theorem endsBlank_outBefore_iff {u v : List Char} (ht : (tokens source)[i]? = some t)
    (hk : t.kind = .whitespace) (hu : u = [] ∨ u = ['\r']) (htext : t.text = u ++ '\n' :: v) :
    endsBlank (outBefore options source i ++ u) = true ↔
      endsBlank (textBefore (tokens source) i ++ u) = true ∨ ∃ j, Bares options source i j u := by
  by_cases hr : ∃ m, i = m + 1 ∧ (planOf options source).removes m = true
  · obtain ⟨m, rfl, hr⟩ := hr
    have hlt := (List.getElem?_eq_some_iff.1 ht).1
    obtain ⟨s, hs, -⟩ := exists_token (by omega : m < (tokens source).length - 1)
    obtain ⟨move, -, hq⟩ := exists_move_of_removes hr hs
    have hsource : endsBlank (textBefore (tokens source) (m + 1) ++ u) = false := by
      rw [textBefore_succ hs, Token.text_of_qualifier hq]
      exact (move.qualifier.endsFirm.append _).endsBlank hu
    rw [hsource]
    constructor
    · intro hblank
      exact .inr (exists_bares_of_removes hr ht hk hu htext hblank)
    · rintro (h | ⟨j, h⟩)
      · cases h
      · exact h.endsBlank_outBefore
  · have halike : EndAlike (outBefore options source i) (textBefore (tokens source) i) :=
      endAlike_before_break ht hk hu htext fun m hm => Bool.eq_false_iff.2 fun h => hr ⟨m, hm, h⟩
    have heq : endsBlank (outBefore options source i ++ u) =
        endsBlank (textBefore (tokens source) i ++ u) := by
      rcases hu with rfl | rfl
      · rw [List.append_nil, List.append_nil, halike.plain]
      · exact halike.cr
    constructor
    · intro h
      exact .inl (heq ▸ h)
    · rintro (h | ⟨j, h⟩)
      · exact heq.trans h
      · exact h.endsBlank_outBefore

/-! ## What leaves a line break bare -/

/-- The last qualifier of a run of tokens that go, if there is one, has only white space after
it. -/
theorem exists_last_removed {j m : Nat} (hm : m ≤ (tokens source).length)
    (hgone : ∀ k, j < k → k < m → (planOf options source).isGone k = true) :
    (∃ k, j < k ∧ k < m ∧ (planOf options source).removes k = true ∧
        ∀ n, k < n → n < m → ∃ t, (tokens source)[n]? = some t ∧ t.kind = .whitespace) ∨
      ∀ n, j < n → n < m → ∃ t, (tokens source)[n]? = some t ∧ t.kind = .whitespace := by
  induction m with
  | zero => exact .inr fun n _ hn => absurd hn (by omega)
  | succ m ih =>
    by_cases hjm : j < m
    · have ht := List.getElem?_eq_getElem (by omega : m < (tokens source).length)
      rcases removes_or_blank_of_isGone ht (hgone m hjm (by omega)) with hr | ⟨hk, -⟩
      · exact .inl ⟨m, hjm, by omega, hr, fun n hmn hn => absurd hmn (by omega)⟩
      · have hextend {k : Nat} (h : ∀ n, k < n → n < m → ∃ t, (tokens source)[n]? = some t ∧
            t.kind = .whitespace) :
            ∀ n, k < n → n < m + 1 → ∃ t, (tokens source)[n]? = some t ∧ t.kind = .whitespace := by
          intro n hkn hn
          rcases Nat.eq_or_lt_of_le (Nat.le_of_lt_succ hn) with rfl | hlt
          · exact ⟨_, ht, hk⟩
          · exact h n hkn hlt
        rcases ih (by omega) fun k hjk hkm => hgone k hjk (by omega) with ⟨k, hjk, hkm, hr, h⟩ | h
        · exact .inl ⟨k, hjk, by omega, hr, hextend h⟩
        · exact .inr (hextend h)
    · exact .inr fun n hjn hn => absurd hjn (by omega)

/-- White space before a qualifier that ends its line ends with a line feed, if it is left as it
was. -/
theorem endsFirm_of_trimmed {k : Nat} {s : Token}
    (hr : (planOf options source).removes (k + 1) = true)
    (ht : (tokens source)[k + 2]? = some t) (hk : t.kind = .whitespace) (hbreak : '\n' ∈ t.text)
    (hs : (tokens source)[k]? = some s) (hks : s.kind = .whitespace)
    (hnone : (planOf options source).spaces.get? k = none) : EndsFirm s.text := by
  have htrimmed := (Plan.ofTokens_settled (tokens_terminated source) (k + 2)).trimmed k s t
    (by omega) hr ht hk (by simp [Token.isHorizontalSpace, hbreak]) hs hks hnone
  obtain ⟨gone, hgone, -, hlast⟩ := Plan.exists_gone s.text
  have hnil : gone = [] := by
    have hlen := congrArg List.length hgone
    rw [List.length_append] at hlen
    exact List.eq_nil_of_length_eq_zero (by omega)
  rw [hnil, List.append_nil] at hgone
  rw [← hgone] at hlast
  rcases hlast with hempty | hlast
  · exact absurd hempty (text_ne_nil hs (by simp [hks]))
  · exact ⟨'\n', hlast, rfl, by decide⟩

/-- White space before other white space ends with a backslash. -/
theorem endsFirm_of_whitespace {j : Nat} {s : Token} (hs : (tokens source)[j]? = some s)
    (hks : s.kind = .whitespace) (ht : (tokens source)[j + 1]? = some t)
    (hkt : t.kind = .whitespace) :
    EndsFirm s.text := by
  obtain ⟨w, -, -, ⟨-, hrun, hhead⟩ | ⟨htext, -⟩⟩ := exists_run_of_whitespace hs hks
  · rw [textFrom_cons ht] at hrun hhead
    obtain ⟨c, v, hcv, hc⟩ := startsBlank_text ht hkt (textFrom (tokens source) (j + 2))
    rw [hcv] at hrun hhead
    rcases hc with hc | ⟨rfl, -⟩
    · rw [(Lexeme.Space.runLength_cons_eq_zero_iff.1 hrun).1] at hc
      cases hc
    · exact absurd rfl hhead
  · rw [htext]
    exact EndsFirm.append ⟨'\\', rfl, rfl, by decide⟩ w

namespace Bares

variable {j : Nat} {u : List Char}

theorem not_endsFirm (h : Bares options source i j u) {s : Token}
    (hs : (tokens source)[j]? = some s) (hk : s.kind = .whitespace) : ¬ EndsFirm s.text := by
  intro hfirm
  rcases h.kept with hpad | ⟨⟨-, -, -, hnone⟩, hblank⟩
  · obtain ⟨s', hs', hsolid, -⟩ := solid_of_padded hpad
    obtain rfl := Option.some.inj (hs.symm.trans hs')
    exact hsolid hk
  · have hpiece : (planOf options source).piece s j = s.text := by
      rw [Plan.piece, removes_of_kind options hs (by simp [hk]), if_neg Bool.false_ne_true, hnone,
        insertion_eq_nil hs (endsType_of_whitespace hk), List.append_nil]
      rfl
    rw [outBefore_succ options hs, hpiece, (hfirm.append _).endsBlank h.ending] at hblank
    cases hblank

/-- A line break that is left bare ends a line whose last token is a qualifier that moves. The
qualifier touches an anchor, or another one that moves is before it with only white space
between. -/
theorem cause (h : Bares options source i j u) :
    ∃ m, i = m + 1 ∧ (planOf options source).removes m = true ∧
      ((∃ move ∈ (planOf options source).moves, move.anchor + 1 = m) ∨
        ∃ k < m, (planOf options source).removes k = true ∧
          ∀ n, k < n → n < m → ∃ t, (tokens source)[n]? = some t ∧ t.kind = .whitespace) := by
  obtain ⟨t, v, ht, hk, htext⟩ := h.lineBreak
  have hrun := h.run
  have hlt := (List.getElem?_eq_some_iff.1 ht).1
  obtain ⟨m, rfl⟩ : ∃ m, i = m + 1 := ⟨i - 1, by omega⟩
  have hm := List.getElem?_eq_getElem (by omega : m < (tokens source).length)
  have hr : (planOf options source).removes m = true := by
    rcases removes_or_blank_of_isGone hm (h.isGone (by omega) (by omega)) with hr | ⟨hkm, -⟩
    · exact hr
    · exact absurd hkm (not_whitespace_before_break hm ht h.ending htext)
  refine ⟨m, rfl, hr, ?_⟩
  rcases Nat.eq_or_lt_of_le (Nat.le_of_lt_succ hrun) with rfl | hjm
  · rcases h.kept with hpad | ⟨⟨s, hs, hks, hnone⟩, -⟩
    · obtain ⟨move, hmove, rfl⟩ := exists_move_of_padded hpad
      exact .inl ⟨move, hmove, rfl⟩
    · exact absurd (endsFirm_of_trimmed hr ht hk (by simp [htext]) hs hks hnone)
        (h.not_endsFirm hs hks)
  · refine .inr ?_
    have hgone : ∀ k, j < k → k < m → (planOf options source).isGone k = true :=
      fun k hjk hkm => h.isGone hjk (by omega)
    rcases exists_last_removed (by omega) hgone with ⟨k, -, hkm, hrk, hblank⟩ | hblank
    · exact ⟨k, hkm, hrk, hblank⟩
    · obtain ⟨s, hs, hks⟩ := hblank (j + 1) (by omega) hjm
      rcases h.kept with hpad | ⟨⟨s', hs', hks', -⟩, -⟩
      · rw [not_padded hs (.inl hks)] at hpad
        cases hpad
      · exact absurd (endsFirm_of_whitespace hs' hks' hs hks) (h.not_endsFirm hs' hks')

end Bares

/-! ## Lines -/

/-- What is written for a token has the lines of the token, each up to its end. -/
theorem piece_of_break {u v : List Char} (options : Options) (ht : (tokens source)[i]? = some t)
    (htext : t.text = u ++ '\n' :: v) :
    ∃ w, (planOf options source).piece t i = u ++ '\n' :: w := by
  by_cases hk : t.kind = .whitespace
  · rcases piece_of_whitespace options ht hk with ⟨hp, -⟩ | ⟨-, -, hs, -⟩ | ⟨hp, -⟩
    · exact ⟨v, hp.trans htext⟩
    · simp [Token.isHorizontalSpace, htext] at hs
    · exact ⟨Plan.throughLastLine v, by rw [hp, htext, Plan.throughLastLine_append]⟩
  · cases hr : (planOf options source).removes i with
    | true =>
      obtain ⟨move, -, hq⟩ := exists_move_of_removes hr ht
      have hmem : '\n' ∈ move.qualifier.text := by
        rw [← Token.text_of_qualifier hq, htext]
        simp
      exact absurd hmem (by cases move.qualifier <;> decide)
    | false =>
      exact ⟨v ++ (planOf options source).insertion i, by rw [piece_of_solid ht hk hr, htext]; simp⟩

/-- A line of the source ends blank as what is before its end in the source does, and the line of
the relocation as what is written before. -/
theorem endsBlank_of_break {u v : List Char} (options : Options) (ht : (tokens source)[i]? = some t)
    (htext : t.text = u ++ '\n' :: v) {k : Nat}
    (hline : (textBefore (tokens source) i ++ u).count '\n' = k) :
    endsBlank (lineAt k source) = endsBlank (textBefore (tokens source) i ++ u) ∧
      endsBlank (lineAt k (outFrom options source 0)) =
        endsBlank (outBefore options source i ++ u) := by
  subst hline
  constructor
  · have hsource := textBefore_append source i
    rw [textFrom_cons ht, htext, List.append_assoc, ← List.append_assoc] at hsource
    have hends := endsBlank_lineAt (textBefore (tokens source) i ++ u)
      (by simp : ∀ c ∈ ('\n' :: v ++ textFrom (tokens source) (i + 1)).head?, c = '\n')
    rwa [hsource] at hends
  · obtain ⟨w, hw⟩ := piece_of_break options ht htext
    have hout := outBefore_append options source i
    rw [outFrom_cons ht, hw, List.append_assoc, ← List.append_assoc] at hout
    have hcount : (textBefore (tokens source) i ++ u).count '\n' =
        (outBefore options source i ++ u).count '\n' := by
      rw [List.count_append, List.count_append,
        count_lf_outBefore options (Nat.le_of_lt (List.getElem?_eq_some_iff.1 ht).1)]
    rw [hcount, ← hout]
    exact endsBlank_lineAt _ (by simp)

/-- Every line break of a source is in one of its tokens. -/
theorem exists_break {n k : Nat} (hn : n ≤ (tokens source).length)
    (h : k < (textBefore (tokens source) n).count '\n') :
    ∃ i t u v, (tokens source)[i]? = some t ∧ t.text = u ++ '\n' :: v ∧
      (textBefore (tokens source) i ++ u).count '\n' = k := by
  induction n with
  | zero => cases h
  | succ n ih =>
    obtain ⟨t, ht⟩ : ∃ t, (tokens source)[n]? = some t := ⟨_, List.getElem?_eq_getElem hn⟩
    by_cases hlt : k < (textBefore (tokens source) n).count '\n'
    · exact ih (by omega) hlt
    · rw [textBefore_succ ht, List.count_append] at h
      obtain ⟨u, v, htext, hu⟩ := exists_break_of_lt_count
        (by omega : k - (textBefore (tokens source) n).count '\n' < t.text.count '\n')
      exact ⟨n, t, u, v, ht, htext, by rw [List.count_append]; omega⟩

theorem eq_endOfInput (ht : (tokens source)[i]? = some t) (hi : (tokens source).length - 1 ≤ i) :
    t = Token.endOfInput := by
  have hlt := (List.getElem?_eq_some_iff.1 ht).1
  obtain rfl : i = (tokens source).length - 1 := by omega
  rw [getElem?_end] at ht
  exact (Option.some.inj ht).symm

theorem endAlike_of_end (options : Options) (source : List Char) :
    EndAlike (outFrom options source 0) source := by
  have hall : ∀ k t, (tokens source).length - 1 ≤ k → (tokens source)[k]? = some t →
      t.kind = .whitespace ∨ t.kind = .endOfInput := by
    intro k t hk ht
    rw [eq_endOfInput ht hk]
    exact .inr rfl
  have halike := endAlike_of_tail options (Nat.le_refl _) hall
  have hout := outBefore_append options source ((tokens source).length - 1)
  have hsource := textBefore_append source ((tokens source).length - 1)
  rw [outFrom_of_end (Nat.le_refl _), List.append_nil] at hout
  rw [textFrom_of_end (Nat.le_refl _), List.append_nil] at hsource
  rwa [hout, hsource] at halike

theorem Bares.endsBlank_line {j : Nat} {u : List Char} (h : Bares options source i j u) :
    endsBlank (lineAt ((textBefore (tokens source) i).count '\n') (outFrom options source 0)) =
      true := by
  obtain ⟨t, v, ht, -, htext⟩ := h.lineBreak
  have hline : (textBefore (tokens source) i ++ u).count '\n' =
      (textBefore (tokens source) i).count '\n' := by
    rw [List.count_append]
    rcases h.ending with rfl | rfl <;> rfl
  rw [(endsBlank_of_break options ht htext hline).2]
  exact h.endsBlank_outBefore

/-- A token that has a line break at its start, or after a carriage return there, is white space. -/
theorem whitespace_of_break {u v : List Char} (ht : (tokens source)[i]? = some t)
    (hu : u = [] ∨ u = ['\r']) (htext : t.text = u ++ '\n' :: v) : t.kind = .whitespace := by
  apply Decidable.byContradiction
  intro hk
  by_cases hi : i < (tokens source).length - 1
  · obtain ⟨c, w, hcw, hc, -⟩ := head_of_solid ht ((tokens_terminated source).kind_ne hi ht) hk
    rw [htext] at hcw
    rcases hu with rfl | rfl
    · obtain rfl := (List.cons.inj hcw).1
      cases hc
    · obtain rfl := (List.cons.inj hcw).1
      cases hc
  · rw [eq_endOfInput ht (by omega)] at htext
    rcases hu with rfl | rfl <;> cases htext

/-- A line before the last keeps a trailing blank, and has a new one only where its line break is
left bare. -/
theorem endsBlank_of_lt_count {k : Nat} (hk : k < source.count '\n') :
    (endsBlank (lineAt k source) = true → endsBlank (lineAt k (outFrom options source 0)) = true) ∧
      (endsBlank (lineAt k (outFrom options source 0)) = true → endsBlank (lineAt k source) = true ∨
        ∃ i j u, Bares options source i j u ∧ (textBefore (tokens source) i).count '\n' = k) := by
  rw [← textBefore_length source] at hk
  obtain ⟨i, t, u, v, ht, htext, hline⟩ := exists_break (Nat.le_refl _) hk
  obtain ⟨hsource, hout⟩ := endsBlank_of_break options ht htext hline
  rw [hsource, hout]
  by_cases hu : u = [] ∨ u = ['\r']
  · have hiff := @endsBlank_outBefore_iff options source i t u v ht
      (whitespace_of_break ht hu htext) hu htext
    have hcount : (textBefore (tokens source) i).count '\n' = k := by
      rw [← hline, List.count_append]
      rcases hu with rfl | rfl <;> rfl
    exact ⟨fun h => hiff.2 (.inl h),
      fun h => (hiff.1 h).imp_right fun ⟨j, hj⟩ => ⟨i, j, u, hj, hcount⟩⟩
  · -- the end of the line is within the token
    rw [not_or] at hu
    rw [endsBlank_append hu.1 hu.2, endsBlank_append hu.1 hu.2]
    exact ⟨id, .inl⟩

/-- The last line ends with a blank in the output exactly if it does in the source. -/
theorem endsBlank_of_count_le {k : Nat} (hk : source.count '\n' ≤ k) :
    endsBlank (lineAt k (outFrom options source 0)) = endsBlank (lineAt k source) := by
  have hcount : (outFrom options source 0).count '\n' = source.count '\n' := by
    rw [← outBefore_length, count_lf_outBefore options (Nat.le_refl _), textBefore_length]
  rcases Nat.eq_or_lt_of_le hk with rfl | hlt
  · have hsource := endsBlank_lineAt source (by simp : ∀ c ∈ ([] : List Char).head?, c = '\n')
    have hout := endsBlank_lineAt (outFrom options source 0)
      (by simp : ∀ c ∈ ([] : List Char).head?, c = '\n')
    rw [List.append_nil] at hsource hout
    rw [hcount] at hout
    rw [hsource, hout, (endAlike_of_end options source).plain]
  · rw [lineAt_of_count_lt hlt, lineAt_of_count_lt (hcount ▸ hlt)]

/-- The lines of a relocation that end blank are those that did in the source, and those whose line
break is left bare. A line break is left bare only after a moved qualifier that touches an anchor,
or has another moved qualifier before it with only white space between. -/
theorem trailing_blank_iff {r : Relocated} (h : relocate options source = .ok r) (k : Nat) :
    (endsBlank (lineAt k r.output) = true ↔ endsBlank (lineAt k source) = true ∨
        ∃ i j u, Bares options source i j u ∧ (textBefore (tokens source) i).count '\n' = k) ∧
      ∀ i j u, Bares options source i j u →
        ∃ m, i = m + 1 ∧ (planOf options source).removes m = true ∧
          ((∃ move ∈ (planOf options source).moves, move.anchor + 1 = m) ∨
            ∃ n < m, (planOf options source).removes n = true ∧
              ∀ x, n < x → x < m → ∃ t, (tokens source)[x]? = some t ∧ t.kind = .whitespace) := by
  refine ⟨?_, fun i j u hb => hb.cause⟩
  rw [output_of_relocate h]
  constructor
  · intro hblank
    rcases Nat.lt_or_ge k (source.count '\n') with hlt | hle
    · exact (endsBlank_of_lt_count hlt).2 hblank
    · exact .inl (endsBlank_of_count_le hle ▸ hblank)
  · rintro (hblank | ⟨i, j, u, hb, rfl⟩)
    · rcases Nat.lt_or_ge k (source.count '\n') with hlt | hle
      · exact (endsBlank_of_lt_count hlt).1 hblank
      · exact (endsBlank_of_count_le hle).trans hblank
    · exact hb.endsBlank_line

end

/-- The blank before a qualifier that ends its line goes with it, so no line break is left bare. -/
theorem trailing_blank_trimmed :
    ∃ r, relocate {} "x; const\nint y;".toList = .ok r ∧ r.output = "x;\nint const y;".toList ∧
      ¬ ∃ i j u, Bares {} "x; const\nint y;".toList i j u ∧
        (textBefore (tokens "x; const\nint y;".toList) i).count '\n' = 0 := by
  have heval : (relocate {} "x; const\nint y;".toList).toOption.map Relocated.output =
      some "x;\nint const y;".toList := by decide +kernel
  obtain ⟨r, hrel, hout⟩ := exists_relocated heval
  refine ⟨r, hrel, hout, fun hbare => ?_⟩
  have hblank := (trailing_blank_iff hrel 0).1.2 (.inr hbare)
  rw [hout] at hblank
  revert hblank
  decide

/-- The blank before the first of two qualifiers at the end of a line stays when both go. -/
theorem trailing_blank_left :
    ∃ r, relocate {} "x; const volatile\nint y;".toList = .ok r ∧
      endsBlank (lineAt 0 r.output) = true ∧
      endsBlank (lineAt 0 "x; const volatile\nint y;".toList) = false := by
  have heval : (relocate {} "x; const volatile\nint y;".toList).toOption.map Relocated.output =
      some "x; \nint const volatile y;".toList := by decide +kernel
  obtain ⟨r, hrel, hout⟩ := exists_relocated heval
  refine ⟨r, hrel, ?_, by decide⟩
  rw [hout]
  decide

end EastConst
