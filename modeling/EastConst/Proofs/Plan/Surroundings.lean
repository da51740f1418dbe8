import EastConst.Proofs.Directive
import EastConst.Proofs.Plan.Accounting

/-!
# White space around qualifiers

A plan changes white space only beside the qualifiers it moves, in one of three ways
(`Plan.Adjusts`), and pads only anchors. All other white space is written as it is. A qualifier that
stays, because it does not lead or because its group is refused, hands its role on over blanks, so
that no qualifier beside it moves either (`not_removes_after`, `not_removes_before`), unless a line
of the preprocessor ends between the two.
-/

namespace EastConst

/-! ## The three ways -/

/-- Whether `kept` is a text up to its last line break, and the text goes on after it. -/
def CutBack (text kept : List Char) : Prop :=
  ∃ gone, text = kept ++ gone ∧ gone ≠ [] ∧ '\n' ∉ gone ∧ (kept = [] ∨ kept.getLast? = some '\n')

/-- What a plan writes at an index in place of the token there: nothing for blanks after a qualifier
that goes, blanks that are cut back before a qualifier that ends its line, or a space for the
qualifier itself. -/
inductive Plan.Adjusts (plan : Plan) (tokens : List Token) (k : Nat) (x : List Char) : Prop
  | drop (t : Token) (hm : ∃ m, k = m + 1 ∧ plan.removes m = true) (ht : tokens[k]? = some t)
    (hk : t.kind = .whitespace) (hlf : '\n' ∉ t.text) (hx : x = [])
  | cut (t u : Token) (hm : plan.removes (k + 1) = true) (hu : tokens[k + 2]? = some u)
    (hku : u.kind = .whitespace) (hlf : '\n' ∈ u.text) (ht : tokens[k]? = some t)
    (hk : t.kind = .whitespace) (hx : CutBack t.text x)
  | space (u : Token) (hm : plan.removes k = true) (hu : tokens[k + 1]? = some u)
    (hku : u.kind ≠ .whitespace) (hx : x = [' '])

theorem cutBack_throughLastLine {text : List Char}
    (h : (Plan.throughLastLine text).length < text.length) :
    CutBack text (Plan.throughLastLine text) := by
  obtain ⟨gone, he, hnot, hkept⟩ := Plan.exists_gone text
  refine ⟨gone, he, ?_, hnot, hkept⟩
  rintro rfl
  rw [List.append_nil] at he
  exact Nat.ne_of_lt h (congrArg List.length he.symm)

section

variable {options : Options} {source : List Char} {k : Nat} {t : Token}

/-- Whitespace is replaced in one of the three ways only. -/
theorem adjusts_of_get? {x : List Char} (hx : (planOf options source).spaces.get? k = some x) :
    (planOf options source).Adjusts (tokens source) k x := by
  cases (Plan.ofTokens_settled (tokens_terminated source) 0).shape k x hx with
  | drop hm ht hs =>
    have hk := Token.kind_of_isHorizontalSpace hs
    exact .drop _ ⟨_, rfl, hm⟩ ht hk (by simpa [Token.isHorizontalSpace, hk] using hs) rfl
  | trim hm ht hk hlen hu hku hsu =>
    refine .cut _ _ hm hu hku ?_ ht hk (cutBack_throughLastLine hlen)
    simpa [Token.isHorizontalSpace, hku] using hsu
  | keep hm hu hku => exact .space _ hm hu hku rfl

/-- White space that is not beside a qualifier that goes is written as it is. -/
theorem piece_of_apart (ht : (tokens source)[k]? = some t) (hk : t.kind = .whitespace)
    (hbefore : ∀ m, k = m + 1 → (planOf options source).removes m = false)
    (hafter : (planOf options source).removes (k + 1) = false) :
    (planOf options source).piece t k = t.text := by
  rcases piece_of_whitespace options ht hk with ⟨hp, -⟩ | ⟨-, -, -, m, hm, hr⟩ | ⟨-, -, hr, -⟩
  · exact hp
  · rw [hbefore m hm] at hr
    cases hr
  · rw [hafter] at hr
    cases hr

/-! ## Beside a qualifier that stays -/

/-- A group that has a qualifier goes on to the next one, if only white space is between. -/
theorem Group.Leads.lt_typeStart {tokens : List Token} {g : Group} {i : Nat} {u : Token}
    {q : Qualifier} (h : g.Leads options tokens) (hi : i ∈ g.members) (hb : i + 2 < g.boundary)
    (ht : tokens[i + 1]? = some t) (hk : t.kind = .whitespace) (hu : tokens[i + 2]? = some u)
    (hq : Qualifier.ofToken? u = some q) : i + 2 < g.typeStart := by
  have hlt := (h.member i hi).1
  apply Nat.lt_of_not_le
  intro hle
  obtain ⟨v, hv, hnot⟩ := h.maximal (by omega)
  rcases (by omega : g.typeStart = i + 1 ∨ g.typeStart = i + 2) with hstart | hstart
  · rw [hstart, ht] at hv
    obtain rfl := Option.some.inj hv
    simp [Token.isLeadIn, Token.isTrivia, hk] at hnot
  · rw [hstart, hu] at hv
    obtain rfl := Option.some.inj hv
    simp [Token.isLeadIn, hq] at hnot

/-- Whether a qualifier stays as it is: it does not lead, or its group is refused. -/
def Occurrence.Stays (options : Options) (source : List Char) (o : Occurrence) : Prop :=
  o.role ≠ .leading ∨
    ∃ refused ∈ refusedGroups options (tokens source), o.index ∈ refused.group.members

variable {o o' : Occurrence}

theorem Occurrence.Stays.removes (h : o.Stays options source)
    (ho : o ∈ occurrences options (tokens source)) :
    (planOf options source).removes o.index = false := by
  have hts := tokens_terminated source
  rcases h with hrole | ⟨refused, hrefused, hmem⟩
  · apply Bool.eq_false_iff.2
    intro hr
    exact hrole (leading_of_removes hts ho hr).1
  · exact removes_of_refused hts hrefused hmem

section

-- two qualifiers with white space between them, both before the boundary of the first
variable (ho : o ∈ occurrences options (tokens source))
  (ho' : o' ∈ occurrences options (tokens source))
  (hindex : o'.index = o.index + 2) (hb : o'.index < o.boundary)
  (ht : (tokens source)[o.index + 1]? = some t) (hk : t.kind = .whitespace)

include ho ho' hindex hb ht hk

/-- Qualifiers beside each other have one role. -/
theorem role_eq_beside : o'.role = o.role := by
  have hts := tokens_terminated source
  obtain ⟨⟨u, hu, hq⟩, -⟩ := mem_occurrences_index hts ho'
  have hbetween : ∀ j v, o.index < j → j < o'.index → (tokens source)[j]? = some v →
      v.kind = .whitespace ∨ (Qualifier.ofToken? v).isSome = true := by
    intro j v hj hj' hv
    obtain rfl : j = o.index + 1 := by omega
    obtain rfl := Option.some.inj (ht.symm.trans hv)
    exact .inl hk
  obtain ⟨o'', ho'', hindex'', hrole, -⟩ := role_of_between hts ho (by omega) hb hu hq hbetween
  obtain rfl := occurrence_eq_of_index ho'' ho' hindex''
  exact hrole

/-- A group that has the first one has the second one too, if it is to be moved. -/
theorem Group.Leads.mem_beside {g : Group} (h : g.Leads options (tokens source))
    (hi : o.index ∈ g.members) (hrole : o'.role = .leading)
    (hrel : options.relocates o'.qualifier = true) : o'.index ∈ g.members := by
  obtain ⟨⟨u, hu, hq⟩, -⟩ := mem_occurrences_index (tokens_terminated source) ho'
  obtain ⟨o'', ho'', hindex'', -, hboundary, -⟩ := h.leading _ hi
  obtain rfl := occurrence_eq_of_index ho'' ho hindex''
  have hlt := h.lt_typeStart hi (by omega) ht hk (hindex ▸ hu) hq
  exact h.complete _ hi o' ho' (by omega) (by omega) hrole hrel

/-- If the first one stays, the second one does not go. -/
theorem not_removes_after (h : o.Stays options source) :
    (planOf options source).removes o'.index = false := by
  have hts := tokens_terminated source
  apply Bool.eq_false_iff.2
  intro hr
  obtain ⟨hrole, hrel⟩ := leading_of_removes hts ho' hr
  rcases h with hnot | ⟨refused, hrefused, hmem⟩
  · exact hnot ((role_eq_beside ho ho' hindex hb ht hk).symm.trans hrole)
  · have hleads := leads_of_mem_groups hts (mem_refusedGroups_iff.1 hrefused).1
    have hmem' := hleads.mem_beside ho ho' hindex hb ht hk hmem hrole hrel
    rw [planOf, removes_of_refused hts hrefused hmem'] at hr
    cases hr

/-- If the second one stays, the first one does not go. -/
theorem not_removes_before (h : o'.Stays options source) :
    (planOf options source).removes o.index = false := by
  have hts := tokens_terminated source
  apply Bool.eq_false_iff.2
  intro hr
  have hrole := (role_eq_beside ho ho' hindex hb ht hk).trans (leading_of_removes hts ho hr).1
  rcases h with hnot | ⟨refused, hrefused, hmem⟩
  · exact hnot hrole
  · have hleads := leads_of_mem_groups hts (mem_refusedGroups_iff.1 hrefused).1
    obtain ⟨o'', ho'', hindex'', -, -, hrel⟩ := hleads.leading _ hmem
    obtain rfl := occurrence_eq_of_index ho'' ho' hindex''
    -- the group that goes with the first one has the second one, which is refused
    obtain ⟨e, he, hi, hmoves⟩ := exists_group_of_removes hr
    have hmem' := hmoves.mem_beside ho ho' hindex hb ht hk hi hrole hrel
    have hmoved := (Plan.ofTokens_removes_iff hts).2 ⟨e, he, hmem'⟩
    rw [removes_of_refused hts hrefused hmem] at hmoved
    cases hmoved

end

/-- White space after a qualifier that stays is written as it is, unless the line of the
preprocessor that the qualifier is in ends there and the next token is a qualifier that goes. -/
theorem piece_after_stays (ho : o ∈ occurrences options (tokens source))
    (hstays : o.Stays options source)
    (ht : (tokens source)[o.index + 1]? = some t) (hk : t.kind = .whitespace) :
    (planOf options source).piece t (o.index + 1) = t.text ∨
      o.boundary = o.index + 1 ∧ t.endsLine = true ∧
        (planOf options source).removes (o.index + 2) = true := by
  have hts := tokens_terminated source
  cases hafter : (planOf options source).removes (o.index + 2) with
  | false =>
    refine .inl (piece_of_apart ht hk ?_ hafter)
    intro m hm
    obtain rfl : o.index = m := by omega
    exact hstays.removes ho
  | true =>
    obtain ⟨e, -, hmem, hmoves⟩ := exists_group_of_removes hafter
    obtain ⟨o', ho', hindex, -⟩ := hmoves.leading _ hmem
    obtain ⟨u, q, hu, hq⟩ := (hmoves.member _ hmem).2
    have hlt := (mem_occurrences_index hts ho).2.1
    obtain ⟨v, hv, hend⟩ := exists_token_boundary hts ho
    have hge : ¬ o.index + 2 < o.boundary := by
      intro hb
      have hstays' := not_removes_after ho ho' hindex (by omega) ht hk hstays
      rw [hindex, hafter] at hstays'
      cases hstays'
    rcases (by omega : o.boundary = o.index + 2 ∨ o.boundary = o.index + 1) with hb | hb
    · -- no qualifier is a boundary
      rw [hb, hu] at hv
      obtain rfl := Option.some.inj hv
      simp [Token.endsLine, Token.kind_of_qualifier hq] at hend
    · rw [hb, ht] at hv
      obtain rfl := Option.some.inj hv
      exact .inr ⟨hb, by simpa [hk] using hend, rfl⟩

/-- White space before a qualifier that stays is written as it is. -/
theorem piece_before_stays (ho : o ∈ occurrences options (tokens source))
    (hstays : o.Stays options source)
    (hindex : o.index = k + 1) (ht : (tokens source)[k]? = some t) (hk : t.kind = .whitespace) :
    (planOf options source).piece t k = t.text := by
  have hts := tokens_terminated source
  refine piece_of_apart ht hk ?_ (hindex ▸ hstays.removes ho)
  rintro m rfl
  apply Bool.eq_false_iff.2
  intro hr
  obtain ⟨e, -, hmem, hmoves⟩ := exists_group_of_removes hr
  obtain ⟨o', ho', rfl, -, hboundary, -⟩ := hmoves.leading _ hmem
  -- the type of the group that goes is before the boundary, and starts beyond the white space
  have hb : o.index < o'.boundary := by
    have hlt := (hmoves.member _ hmem).1
    obtain ⟨hanchor, hanchor', -⟩ := hmoves.anchored
    obtain ⟨u, hu, -, hlead⟩ := hmoves.type
    have hne : e.1.typeStart ≠ o'.index + 1 := by
      intro heq
      rw [heq, ht] at hu
      obtain rfl := Option.some.inj hu
      simp [Token.isLeadIn, Token.isTrivia, hk] at hlead
    omega
  rw [not_removes_before ho' ho hindex hb ht hk hstays] at hr
  cases hr

end

/-! ## White space as a whole -/

/-- Whether the plan of a source changes white space only beside the qualifiers that it moves. -/
structure SparesWhitespace (options : Options) (source : List Char) : Prop where
  adjusts : ∀ k x, (planOf options source).spaces.get? k = some x →
    (planOf options source).Adjusts (tokens source) k x
  padded : ∀ k, (planOf options source).padded.contains k = true →
    ∃ m ∈ (planOf options source).moves, m.anchor = k
  /-- White space that is not beside a qualifier that goes is written as it is. -/
  apart : ∀ k t, (tokens source)[k]? = some t → t.kind = .whitespace →
    (∀ m, k = m + 1 → (planOf options source).removes m = false) →
    (planOf options source).removes (k + 1) = false → (planOf options source).piece t k = t.text
  /-- So is white space before a qualifier that stays. -/
  before : ∀ o ∈ occurrences options (tokens source), o.Stays options source →
    ∀ k t, o.index = k + 1 → (tokens source)[k]? = some t → t.kind = .whitespace →
    (planOf options source).piece t k = t.text
  /-- So is white space after it, unless the line of the preprocessor that it is in ends there and
  the next token is a qualifier that goes. -/
  after : ∀ o ∈ occurrences options (tokens source), o.Stays options source →
    ∀ t, (tokens source)[o.index + 1]? = some t → t.kind = .whitespace →
    (planOf options source).piece t (o.index + 1) = t.text ∨
      o.boundary = o.index + 1 ∧ t.endsLine = true ∧
        (planOf options source).removes (o.index + 2) = true

/-- A plan changes white space only beside the qualifiers that it moves. -/
theorem plan_spares_whitespace (options : Options) (source : List Char) :
    SparesWhitespace options source where
  adjusts _ _ hx := adjusts_of_get? hx
  padded _ h := exists_move_of_padded h
  apart _ _ ht hk hbefore hafter := piece_of_apart ht hk hbefore hafter
  before _ ho hstays _ _ hindex ht hk := piece_before_stays ho hstays hindex ht hk
  after _ ho hstays _ ht hk := piece_after_stays ho hstays ht hk

/-- White space between a refused qualifier, the last of a macro, and one that goes is cut back. -/
theorem whitespace_cut_after_refused :
    ∃ o ∈ occurrences {} (tokens "#define X const\n  const\nint y;".toList),
      (∃ refused ∈ refusedGroups {} (tokens "#define X const\n  const\nint y;".toList),
        o.index ∈ refused.group.members) ∧
      (tokens "#define X const\n  const\nint y;".toList)[o.index + 1]? =
        some ⟨.whitespace, "\n  ".toList⟩ ∧
      (planOf {} "#define X const\n  const\nint y;".toList).piece ⟨.whitespace, "\n  ".toList⟩
        (o.index + 1) = ['\n'] := by
  decide +kernel

end EastConst
