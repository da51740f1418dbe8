import EastConst.Proofs.Failure
import EastConst.Proofs.Options

/-!
# Options act by themselves

The spacing decides about the padding behind anchors and about nothing else: what moves, what
becomes of the white space and what is reported is the same (`ofTokens_accords`,
`diagnostics_spacing`), and padded style writes what compact style writes, with a space behind the
qualifiers where one of some marks follows (`piece_padded`). To leave every `volatile` where it is
takes its moves out of the plan, and changes no other (`Plan.ofTokens_moves_keeping`).
-/

namespace EastConst

namespace Plan

/-! ## Padding -/

/-- Whether two plans differ in their padding only. -/
structure Accords (p q : Plan) : Prop where
  moves : p.moves = q.moves
  spaces : p.spaces = q.spaces

section

variable {options other : Options} {tokens : List Token} {p q : Plan}

theorem Accords.removes (h : p.Accords q) (k : Nat) : p.removes k = q.removes k := by
  rw [Plan.removes, Plan.removes, h.moves]

theorem Accords.isGone (h : p.Accords q) (k : Nat) : p.isGone k = q.isGone k :=
  isGone_congr (by rw [h.spaces]) (h.removes k)

theorem Accords.survivorFrom? (h : p.Accords q) (index : Nat) (ts : List Token) :
    p.survivorFrom? index ts = q.survivorFrom? index ts := by
  induction ts generalizing index with
  | nil => rfl
  | cons t ts ih =>
    rw [Plan.survivorFrom?, Plan.survivorFrom?, h.isGone, isPending, isPending, h.removes, ih]

theorem Accords.standApart (h : p.Accords q) (left right : Nat) :
    p.standApart tokens left right = q.standApart tokens left right :=
  standApart_congr (by rw [h.spaces])

theorem Accords.setSpace (h : p.Accords q) (k : Nat) (x : List Char) :
    (p.setSpace k x).Accords (q.setSpace k x) :=
  ⟨h.moves, by rw [Plan.setSpace, Plan.setSpace, h.spaces]⟩

/-- What is left before a qualifier that goes does not depend on padding. -/
theorem Accords.survivorBefore? (h : p.Accords q) (m : Nat) :
    p.survivorBefore? m = q.survivorBefore? m :=
  survivorBefore?_congr fun k _ => h.isGone k

theorem Accords.dropSpaceAfter (h : p.Accords q) (m : Nat) :
    (p.dropSpaceAfter tokens m).Accords (q.dropSpaceAfter tokens m) := by
  unfold Plan.dropSpaceAfter survivorAfter?
  rw [h.survivorBefore?, h.survivorFrom?]
  cases q.survivorBefore? m with
  | none => exact h.setSpace _ _
  | some left =>
    cases q.survivorFrom? (m + 2) (tokens.drop (m + 2)) with
    | none => exact h.setSpace _ _
    | some right =>
      dsimp only
      rw [h.standApart]
      split
      · exact h.setSpace _ _
      · exact h

theorem Accords.trimSpaceBefore (h : p.Accords q) (m : Nat) :
    (p.trimSpaceBefore tokens m).Accords (q.trimSpaceBefore tokens m) := by
  unfold Plan.trimSpaceBefore
  rw [h.spaces]
  split
  · exact h
  · split
    · exact h
    · dsimp only
      split
      · exact h.setSpace _ _
      · exact h

theorem Accords.keepApart (h : p.Accords q) (m : Nat) :
    (p.keepApart tokens m).Accords (q.keepApart tokens m) := by
  unfold Plan.keepApart
  rw [h.survivorBefore?]
  split
  · exact h
  · rw [h.standApart]
    split
    · exact h
    · exact h.setSpace _ _

/-- The step lemma: what closes a gap does not look at the padding. -/
theorem Accords.closeGap (h : p.Accords q) (m : Nat) :
    (p.closeGap tokens m).Accords (q.closeGap tokens m) := by
  unfold Plan.closeGap
  split
  · exact h
  · split
    · exact h.dropSpaceAfter m
    · split
      · exact h.trimSpaceBefore m
      · exact h.keepApart m

theorem Accords.foldl_closeGap (h : p.Accords q) (ms : List Nat) :
    (ms.foldl (fun p m => p.closeGap tokens m) p).Accords
      (ms.foldl (fun p m => p.closeGap tokens m) q) := by
  induction ms generalizing p q with
  | nil => exact h
  | cons m ms ih => exact ih (h.closeGap m)

/-- The step lemma: plans that accord still do so when the same group is added. -/
theorem Accords.addMoves (h : p.Accords q) (options other : Options) (ms : List Nat)
    (anchor : Nat) :
    (p.addMoves options tokens ms anchor).Accords (q.addMoves other tokens ms anchor) := by
  have hmoved : Accords { p with moves := p.moves ++ movesTo tokens anchor ms }
      { q with moves := q.moves ++ movesTo tokens anchor ms } :=
    ⟨congrArg (· ++ movesTo tokens anchor ms) h.moves, h.spaces⟩
  constructor
  · rw [addMoves_moves, addMoves_moves, h.moves]
  · rw [addMoves_spaces, addMoves_spaces]
    exact (hmoved.foldl_closeGap ms).spaces

/-- Plans that move the same groups accord, whatever the spacing is. -/
theorem Accords.foldl_addMoves (h : p.Accords q) (options other : Options)
    (es : List (Group × Nat)) :
    (es.foldl (fun p e => p.addMoves options tokens e.1.members e.2) p).Accords
      (es.foldl (fun p e => p.addMoves other tokens e.1.members e.2) q) := by
  induction es generalizing p q with
  | nil => exact h
  | cons e es ih => exact ih (h.addMoves options other e.1.members e.2)

/-- Plans that accord have the same fault. -/
theorem Accords.fault? (h : p.Accords q) (tokens : List Token) :
    p.fault? tokens = q.fault? tokens := by
  obtain ⟨moves, spaces, padded⟩ := p
  obtain ⟨moves', spaces', padded'⟩ := q
  obtain ⟨rfl, rfl⟩ := h
  rfl

end

end Plan

/-! ## Spacing -/

theorem groups_spacing (options : Options) (tokens : List Token) (spacing : Spacing) :
    groups { options with spacing := spacing } tokens = groups options tokens :=
  @groups_congr { options with spacing := spacing } options rfl rfl tokens

theorem movable_spacing (options : Options) (tokens : List Token) (spacing : Spacing) :
    movable { options with spacing := spacing } tokens = movable options tokens := by
  rw [movable, groups_spacing]
  rfl

/-- The spacing changes neither what moves nor what becomes of the white space. -/
theorem ofTokens_accords (options : Options) (tokens : List Token) (spacing : Spacing) :
    (Plan.ofTokens { options with spacing := spacing } tokens).Accords
      (Plan.ofTokens options tokens) := by
  rw [Plan.ofTokens_eq_foldl, Plan.ofTokens_eq_foldl, movable_spacing]
  exact Plan.Accords.foldl_addMoves ⟨rfl, rfl⟩ _ _ _

/-- The spacing changes nothing that is reported. -/
theorem diagnostics_spacing (options : Options) (source : List Char) (spacing : Spacing) :
    diagnostics { options with spacing := spacing } source = diagnostics options source := by
  rw [diagnostics, diagnostics, refusedGroups, refusedGroups, groups_spacing]
  rfl

namespace Plan

/-- Whether the token after an anchor has a space before it in padded style only. -/
def widens (tokens : List Token) (anchor : Nat) : Bool :=
  tokens[anchor + 1]?.any fun next => next.mark?.any isPaddedMark

/-- Padded spacing pads where compact spacing does, and where it widens. -/
theorem needsPadding_padded (tokens : List Token) (anchor : Nat) :
    needsPadding .padded tokens anchor =
      (needsPadding .compact tokens anchor || widens tokens anchor) := by
  unfold needsPadding widens
  cases tokens[anchor + 1]? with
  | none => rfl
  | some next => cases hk : next.kind <;> simp [Token.mark?, hk]

theorem needsPadding_of_widens {tokens : List Token} {anchor : Nat}
    (h : widens tokens anchor = true) :
    needsPadding .compact tokens anchor = false := by
  unfold needsPadding
  unfold widens at h
  cases hnext : tokens[anchor + 1]? with
  | none => rfl
  | some next =>
    rw [hnext] at h
    cases hk : next.kind <;> simp_all [Token.mark?]

/-- Whether a plan puts qualifiers after the token at an index that have a space behind them in
padded style only. -/
def isWidened (plan : Plan) (tokens : List Token) (index : Nat) : Bool :=
  plan.moves.any (·.anchor == index) && widens tokens index

/-- The text that a plan makes of tokens, with a space more behind the qualifiers put after some of
them. -/
def renderWidened (plan : Plan) (tokens : List Token) : List Char :=
  tokens.zipIdx.flatMap fun (t, index) =>
    plan.piece t index ++ if plan.isWidened tokens index then [' '] else []

end Plan

section

variable {options : Options} {source : List Char}

/-- An anchor is padded exactly if it needs it. -/
theorem padded_of_move {m : Move} (hm : m ∈ (planOf options source).moves) :
    (planOf options source).padded.contains m.anchor =
      Plan.needsPadding options.spacing (tokens source) m.anchor := by
  obtain ⟨e, he, -, -, hanchor, -⟩ := exists_group_of_move hm
  rw [Bool.eq_iff_iff, Plan.ofTokens_padded_iff, and_iff_right ⟨e, he, hanchor.symm⟩]

/-- The qualifiers put after an anchor, and the padding that the token after it needs. -/
theorem insertion_of_move {m : Move} (hm : m ∈ (planOf options source).moves) :
    (planOf options source).insertion m.anchor =
      ((planOf options source).moves.filter (·.anchor == m.anchor)).flatMap
          (fun m => ' ' :: m.qualifier.text) ++
        if Plan.needsPadding options.spacing (tokens source) m.anchor then [' '] else [] := by
  have hmem : m ∈ (planOf options source).moves.filter (·.anchor == m.anchor) :=
    List.mem_filter.2 ⟨hm, beq_self_eq_true _⟩
  rw [Plan.insertion, if_neg, padded_of_move hm]
  rw [List.isEmpty_iff]
  exact List.ne_nil_of_mem hmem

end

/-- Nothing is put after a token that is no anchor. -/
theorem Plan.insertion_of_not_anchor {plan : Plan} {i : Nat}
    (h : plan.moves.any (·.anchor == i) = false) :
    plan.insertion i = [] := by
  rw [Plan.insertion, if_pos]
  rwa [List.isEmpty_iff, List.filter_eq_nil_iff, ← List.any_eq_false]

section

variable (options : Options) (source : List Char)

/-- Padded style writes for each token what compact style writes, and a space more where a plan is
widened. -/
theorem piece_padded (t : Token) (i : Nat) :
    (planOf { options with spacing := .padded } source).piece t i =
      (planOf { options with spacing := .compact } source).piece t i ++
        if (planOf { options with spacing := .compact } source).isWidened (tokens source) i then
          [' ']
        else [] := by
  have haccord : (planOf { options with spacing := .padded } source).Accords
      (planOf { options with spacing := .compact } source) :=
    ofTokens_accords { options with spacing := .compact } (tokens source) .padded
  have hforward := planOf_forward { options with spacing := .compact } source
  rw [Plan.piece, Plan.piece, haccord.removes, haccord.spaces, Plan.isWidened]
  cases hany : (planOf { options with spacing := .compact } source).moves.any (·.anchor == i) with
  | false =>
    have hany' := hany
    rw [← haccord.moves] at hany'
    rw [Plan.insertion_of_not_anchor hany, Plan.insertion_of_not_anchor hany']
    simp
  | true =>
    obtain ⟨m, hm, hmi⟩ := List.any_eq_true.1 hany
    obtain rfl := beq_iff_eq.1 hmi
    have hm' : m ∈ (planOf { options with spacing := .padded } source).moves := haccord.moves ▸ hm
    rw [hforward.kept m hm, insertion_of_move hm, insertion_of_move hm', haccord.moves,
      Plan.needsPadding_padded]
    cases hw : Plan.widens (tokens source) m.anchor with
    | true => simp [Plan.needsPadding_of_widens hw]
    | false => simp

/-- With padded spacing the output has one space more at each anchor that is widened. -/
theorem render_padded :
    (planOf { options with spacing := .padded } source).render (tokens source) =
      (planOf { options with spacing := .compact } source).renderWidened (tokens source) := by
  rw [Plan.render, Plan.pieces, ← List.flatMap_def, Plan.renderWidened]
  simp only [piece_padded]

/-- Compact style puts nothing behind the qualifiers where a plan is widened. -/
theorem piece_of_isWidened {t : Token} {i : Nat} (ht : (tokens source)[i]? = some t)
    (h : (planOf { options with spacing := .compact } source).isWidened (tokens source) i = true) :
    (planOf { options with spacing := .compact } source).piece t i =
      t.text ++ ((planOf { options with spacing := .compact } source).moves.filter
        (·.anchor == i)).flatMap fun m => ' ' :: m.qualifier.text := by
  obtain ⟨hany, hw⟩ := (Bool.and_eq_true _ _).mp h
  obtain ⟨m, hm, hmi⟩ := List.any_eq_true.1 hany
  obtain rfl := beq_iff_eq.1 hmi
  have hsolid : t.kind ≠ .whitespace := by
    intro hk
    exact List.filter_eq_nil_iff.1 (filter_anchor_eq_nil ht (endsType_of_whitespace hk)) m hm
      (beq_self_eq_true _)
  rw [piece_of_solid ht hsolid ((planOf_forward _ _).kept m hm), insertion_of_move hm,
    Plan.needsPadding_of_widens hw]
  simp

/-- Both styles fail in the same way, or both write what the plan says, padded style with spaces
more. -/
theorem relocate_spacing :
    (∃ failure, relocate { options with spacing := .compact } source = .error failure ∧
        relocate { options with spacing := .padded } source = .error failure) ∨
      relocate { options with spacing := .compact } source =
          .ok ⟨(planOf { options with spacing := .compact } source).render (tokens source),
            diagnostics options source⟩ ∧
        relocate { options with spacing := .padded } source =
          .ok ⟨(planOf { options with spacing := .compact } source).renderWidened (tokens source),
            diagnostics options source⟩ := by
  have haccord := ofTokens_accords { options with spacing := .compact } (tokens source) .padded
  rw [← render_padded]
  simp only [relocate, Plan.apply, haccord.fault?, diagnostics_spacing]
  cases (planOf { options with spacing := .compact } source).fault? (tokens source) with
  | none => exact .inr ⟨rfl, rfl⟩
  | some fault => exact .inl ⟨_, rfl, rfl⟩

end

/-! ## Qualifiers that stay -/

/-- The moves of a group: of all its members to the end of its type, or none. -/
def Group.moves (options : Options) (tokens : List Token) (g : Group) : List Move :=
  match g.extent options tokens with
  | .ok extent => Plan.movesTo tokens extent.last g.members
  | .error _ => []

section

variable {options other : Options} {keep : Qualifier → Bool} {tokens : List Token}

/-- A plan moves group after group. -/
theorem Plan.ofTokens_moves_groups (options : Options) (tokens : List Token) :
    (ofTokens options tokens).moves = (groups options tokens).flatMap (·.moves options tokens) := by
  rw [ofTokens_moves, movable]
  induction groups options tokens with
  | nil => rfl
  | cons g gs ih =>
    rw [List.filterMap_cons, List.flatMap_cons, ← ih, Group.moves]
    cases g.extent options tokens <;> rfl

theorem Plan.movesTo_filter (anchor : Nat) (members : List Nat) :
    movesTo tokens anchor (members.filter (isQualifierOf keep tokens)) =
      (movesTo tokens anchor members).filter fun m => keep m.qualifier := by
  rw [movesTo, movesTo, List.filterMap_filter, List.filter_filterMap]
  congr 1
  funext i
  rw [isQualifierOf]
  cases tokens[i]?.bind Qualifier.ofToken? with
  | none => rfl
  | some q => cases hk : keep q <;> simp [Option.filter, hk]

/-- Of a group with fewer members the moves are those of the members that it keeps. -/
theorem Group.moves_keeping (hmax : other.maxExtentTokens = options.maxExtentTokens) (g : Group) :
    (g.keeping keep tokens).moves other tokens =
      (g.moves options tokens).filter fun m => keep m.qualifier := by
  have hextent : (g.keeping keep tokens).extent other tokens = g.extent options tokens := by
    rw [extent, extent, hmax]
    rfl
  rw [moves, moves, hextent]
  cases g.extent options tokens with
  | ok extent => exact Plan.movesTo_filter _ _
  | error refusal => rfl

theorem Group.moves_of_members_eq_nil {g : Group} (h : g.members = []) :
    g.moves options tokens = [] := by
  rw [moves, h]
  cases g.extent options tokens <;> rfl

/-- Where fewer qualifiers are to be moved, their moves are left out of the plan. -/
theorem Plan.ofTokens_moves_keeping (hmacros : other.declMacros = options.declMacros)
    (hmax : other.maxExtentTokens = options.maxExtentTokens)
    (hrel : ∀ q, other.relocates q = (options.relocates q && keep q)) :
    (ofTokens other tokens).moves =
      (ofTokens options tokens).moves.filter fun m => keep m.qualifier := by
  rw [ofTokens_moves_groups, ofTokens_moves_groups, groups_keeping hmacros hrel,
    List.filter_flatMap]
  induction groups options tokens with
  | nil => rfl
  | cons g gs ih =>
    rw [List.map_cons, List.filter_cons, List.flatMap_cons, ← ih, ← Group.moves_keeping hmax]
    cases hmembers : (g.keeping keep tokens).members with
    | nil => rw [Group.moves_of_members_eq_nil hmembers]; rfl
    | cons m ms => rfl

end

/-! ## Both options -/

/-- The spacing changes neither what moves, nor what becomes of the white space, nor what is
reported. Both styles fail in the same way or write the same text, padded style with a space more
right behind the qualifiers put after some anchors. And to leave every `volatile` where it is leaves
out its moves and no other. -/
theorem options_act_apart (options : Options) (source : List Char) :
    (∀ spacing,
      (planOf { options with spacing := spacing } source).moves = (planOf options source).moves ∧
        (planOf { options with spacing := spacing } source).spaces =
          (planOf options source).spaces ∧
        diagnostics { options with spacing := spacing } source = diagnostics options source) ∧
    ((∃ failure, relocate { options with spacing := .compact } source = .error failure ∧
        relocate { options with spacing := .padded } source = .error failure) ∨
      relocate { options with spacing := .compact } source =
          .ok ⟨(planOf { options with spacing := .compact } source).render (tokens source),
            diagnostics options source⟩ ∧
        relocate { options with spacing := .padded } source =
          .ok ⟨(planOf { options with spacing := .compact } source).renderWidened (tokens source),
            diagnostics options source⟩) ∧
    (∀ i t, (tokens source)[i]? = some t →
      (planOf { options with spacing := .compact } source).isWidened (tokens source) i = true →
        (planOf { options with spacing := .compact } source).piece t i =
          t.text ++ ((planOf { options with spacing := .compact } source).moves.filter
            (·.anchor == i)).flatMap fun m => ' ' :: m.qualifier.text) ∧
    (planOf { options with relocateVolatile := false } source).moves =
      (planOf { options with relocateVolatile := true } source).moves.filter
        (·.qualifier == .const) := by
  refine ⟨fun spacing => ?_, relocate_spacing options source,
    fun i t => piece_of_isWidened options source, ?_⟩
  · have haccord := ofTokens_accords options (tokens source) spacing
    exact ⟨haccord.moves, haccord.spaces, diagnostics_spacing options source spacing⟩
  · have hrel : ∀ q, Options.relocates { options with relocateVolatile := false } q =
        (Options.relocates { options with relocateVolatile := true } q && q == .const) := by
      intro q
      cases q <;> rfl
    exact Plan.ofTokens_moves_keeping (by rfl) (by rfl) hrel

/-- A type that a pointer touches is widened. -/
theorem options_act_apart_pointer :
    (planOf {} "const volatile char*p;".toList).isWidened
      (tokens "const volatile char*p;".toList) 4 = true ∧
      (planOf {} "const volatile char*p;".toList).piece ⟨.keyword, "char".toList⟩ 4 =
        "char const volatile".toList := by
  have hplan : planOf {} "const volatile char*p;".toList =
      ⟨[⟨0, 4, .const⟩, ⟨2, 4, .volatile⟩], ⟨[(1, []), (3, [])]⟩, ⟨[]⟩⟩ := by decide +kernel
  have hwidened : (planOf {} "const volatile char*p;".toList).isWidened
      (tokens "const volatile char*p;".toList) 4 = true := by
    rw [hplan]
    decide +kernel
  have hpiece := (options_act_apart {} "const volatile char*p;".toList).2.2.1 4
    ⟨.keyword, "char".toList⟩
    (by decide +kernel) hwidened
  refine ⟨hwidened, hpiece.trans ?_⟩
  rw [hplan]
  decide

end EastConst
