import EastConst.Proofs.Conservation
import EastConst.Proofs.Plan.Check

/-!
# What a checked plan writes

The text that a plan makes of tokens is a sequence of parts: tokens as they are, replacements,
spaces and qualifiers that are put in. If the plan passes its check, nothing but white space and the
places of the qualifiers changes (`Plan.Conserves`). The tokens and the plan are arbitrary: only
what the check asks is used.
-/

namespace EastConst.Plan

/-- A part of the text that a plan makes of tokens. -/
inductive Part where
  /-- The token at an index, as it is. -/
  | token (t : Token) (index : Nat)
  /-- What is written in place of the token at an index. -/
  | replacement (text : List Char) (index : Nat)
  | space
  /-- The qualifier that a move puts in. -/
  | qualifier (m : Move)
  deriving DecidableEq, Repr

namespace Part

def text : Part → List Char
  | token t _ => t.text
  | replacement text _ => text
  | space => [' ']
  | qualifier m => m.qualifier.text

/-- The token that a part is, unless it is white space. -/
def solid? : Part → Option (Token × Nat)
  | token t index => if t.kind = .whitespace then none else some (t, index)
  | _ => none

/-- The move that a part comes from. -/
def move? : Part → Option Move
  | qualifier m => some m
  | _ => none

end Part

/-- The part that stands for the token at an index. -/
def site (plan : Plan) (t : Token) (index : Nat) : Part :=
  match plan.spaces.get? index with
  | some text => .replacement text index
  | none => .token t index

/-- The parts of moves that share an anchor. -/
def putIn (ms : List Move) : List Part :=
  ms.flatMap fun m => [.space, .qualifier m]

/-- What is written after the token at an index, in parts. -/
def insertedParts (plan : Plan) (index : Nat) : List Part :=
  let here := plan.moves.filter (·.anchor == index)
  if here.isEmpty then []
  else putIn here ++ if plan.padded.contains index then [.space] else []

/-- What is written for the token at an index, in parts. -/
def partsAt (plan : Plan) (t : Token) (index : Nat) : List Part :=
  if plan.removes index then (plan.spaces.get? index).toList.map (.replacement · index)
  else plan.site t index :: plan.insertedParts index

/-- What a plan makes of tokens, in parts. -/
def parts (plan : Plan) (tokens : List Token) : List Part :=
  tokens.zipIdx.flatMap fun e => plan.partsAt e.1 e.2

/-- Whether parts hold what a plan is to conserve. -/
structure Conserves (plan : Plan) (tokens : List Token) (parts : List Part) : Prop where
  /-- What is not white space and not taken away is there as it was, once and in order. -/
  kept : parts.filterMap Part.solid? =
    tokens.zipIdx.filter fun e => e.1.kind != .whitespace && !plan.removes e.2
  /-- What is taken away is put in once. -/
  once : ∀ i, (parts.filterMap Part.move?).countP (·.index == i) = if plan.removes i then 1 else 0
  /-- What is put in is the text of the token that was taken away. -/
  spelled : ∀ m, .qualifier m ∈ parts → ∃ t, tokens[m.index]? = some t ∧ t.text = m.qualifier.text
  /-- Moves with the same anchor are carried out in the order of the plan. -/
  ordered : ∀ a, (parts.filterMap Part.move?).filter (·.anchor == a) =
    plan.moves.filter (·.anchor == a)
  /-- A qualifier has a space before it, and before that the token at its anchor or what replaces
  it, with nothing between but other qualifiers that are put in there. -/
  anchored : ∀ before m after, parts = before ++ .qualifier m :: after →
    ∃ front site run, before = front ++ site :: run ++ [.space] ∧
      (∃ t, tokens[m.anchor]? = some t ∧
        (plan.spaces.get? m.anchor = none ∧ site = .token t m.anchor ∨
          t.kind = .whitespace ∧
            ∃ text, plan.spaces.get? m.anchor = some text ∧ site = .replacement text m.anchor)) ∧
      ∀ p ∈ run, p = .space ∨ ∃ m' ∈ plan.moves, m'.anchor = m.anchor ∧ p = .qualifier m'
  /-- Everything else is blank, or white space that the plan does not change. -/
  others : ∀ p ∈ parts, p.solid? = none → p.move? = none →
    p.text.all isBlank = true ∨
      ∃ t i, p = .token t i ∧ tokens[i]? = some t ∧ t.kind = .whitespace ∧ plan.spaces.get? i = none

section

variable {plan : Plan} {tokens : List Token} {t : Token} {i : Nat}

/-! ## The parts are what is written -/

theorem site_text (plan : Plan) (t : Token) (i : Nat) :
    (plan.site t i).text = (plan.spaces.get? i).getD t.text := by
  unfold site
  cases plan.spaces.get? i <;> rfl

theorem insertedParts_text (plan : Plan) (i : Nat) :
    (plan.insertedParts i).flatMap Part.text = plan.insertion i := by
  unfold insertedParts insertion
  dsimp only
  split
  · rfl
  · rw [List.flatMap_append, putIn, List.flatMap_assoc]
    congr 1
    · simp [Part.text]
    · split <;> rfl

/-- The parts at a token are what is written for it. -/
theorem partsAt_text (plan : Plan) (t : Token) (i : Nat) :
    (plan.partsAt t i).flatMap Part.text = plan.piece t i := by
  unfold partsAt piece
  split
  · cases plan.spaces.get? i <;> simp [Part.text]
  · rw [List.flatMap_cons, site_text, insertedParts_text]

/-- The output is the text of its parts. -/
theorem render_eq_parts (plan : Plan) (tokens : List Token) :
    plan.render tokens = (plan.parts tokens).flatMap Part.text := by
  rw [render, pieces, parts, List.flatMap_assoc, ← List.flatMap_def]
  refine List.flatMap_congr fun e _ => ?_
  exact (partsAt_text plan e.1 e.2).symm

/-! ## Tokens that stay -/

theorem filterMap_putIn {α : Type} {f : Part → Option α} (hspace : f .space = none)
    (ms : List Move) :
    (putIn ms).filterMap f = ms.filterMap fun m => f (.qualifier m) := by
  induction ms with
  | nil => rfl
  | cons m ms ih =>
    have hcons : putIn (m :: ms) = .space :: .qualifier m :: putIn ms := rfl
    rw [hcons, List.filterMap_cons_none hspace, List.filterMap_cons, List.filterMap_cons, ih]

theorem filterMap_insertedParts {α : Type} {f : Part → Option α} (hspace : f .space = none) :
    (plan.insertedParts i).filterMap f =
      (plan.moves.filter (·.anchor == i)).filterMap fun m => f (.qualifier m) := by
  unfold insertedParts
  dsimp only
  split
  · rename_i hnil
    rw [List.isEmpty_iff.1 hnil]
    rfl
  · rw [List.filterMap_append, filterMap_putIn hspace]
    split <;> simp [hspace]

theorem Sound.spaces_eq_none (h : plan.Sound tokens) (ht : tokens[i]? = some t)
    (hk : t.kind ≠ .whitespace) (hr : plan.removes i = false) : plan.spaces.get? i = none := by
  cases hx : plan.spaces.get? i with
  | none => rfl
  | some x =>
    rcases h.whitespace _ (IndexMap.mem_of_get? hx) with hw | hr'
    · rw [ht] at hw
      exact absurd (Option.some.inj hw) hk
    · rw [hr] at hr'
      cases hr'

/-- A sound plan writes a token that stays once, and at no other place. -/
theorem Sound.solid_partsAt (h : plan.Sound tokens) (ht : tokens[i]? = some t) :
    (plan.partsAt t i).filterMap Part.solid? =
      if t.kind != .whitespace && !plan.removes i then [(t, i)] else [] := by
  unfold partsAt
  cases hr : plan.removes i with
  | true => cases plan.spaces.get? i <;> simp [Part.solid?]
  | false =>
    have hrest : (plan.insertedParts i).filterMap Part.solid? = [] := by
      rw [filterMap_insertedParts rfl]
      exact List.filterMap_eq_nil_iff.2 fun m _ => rfl
    by_cases hk : t.kind = .whitespace
    · have hsite : (plan.site t i).solid? = none := by
        unfold site
        cases plan.spaces.get? i <;> simp [Part.solid?, hk]
      simp [hsite, hrest, hk]
    · have hsite : (plan.site t i).solid? = some (t, i) := by
        simp [site, h.spaces_eq_none ht hk hr, Part.solid?, hk]
      simp [hsite, hrest, hk]

theorem flatMap_ite_singleton {α : Type} (p : α → Bool) (xs : List α) :
    (xs.flatMap fun x => if p x then [x] else []) = xs.filter p := by
  induction xs with
  | nil => rfl
  | cons x xs ih =>
    rw [List.flatMap_cons, ih, List.filter_cons]
    split <;> rfl

/-- The tokens of the output are those that stay, in their order. -/
theorem Sound.parts_kept (h : plan.Sound tokens) :
    (plan.parts tokens).filterMap Part.solid? =
      tokens.zipIdx.filter fun e => e.1.kind != .whitespace && !plan.removes e.2 := by
  rw [parts, List.filterMap_flatMap, ← flatMap_ite_singleton]
  refine List.flatMap_congr fun e he => ?_
  exact h.solid_partsAt (List.mem_zipIdx_iff_getElem?.1 he)

/-! ## Qualifiers that are put in -/

/-- No qualifier is put in where one is taken away. -/
theorem Forward.filter_anchor_eq_nil (h : plan.Forward tokens) (hr : plan.removes i = true) :
    plan.moves.filter (·.anchor == i) = [] := by
  refine List.filter_eq_nil_iff.2 fun m hm ha => ?_
  have hkept := h.kept m hm
  rw [beq_iff_eq.1 ha, hr] at hkept
  cases hkept

/-- The qualifiers that are put in at a token are those whose anchor it is. -/
theorem Forward.move_partsAt (h : plan.Forward tokens) :
    (plan.partsAt t i).filterMap Part.move? = plan.moves.filter (·.anchor == i) := by
  unfold partsAt
  cases hr : plan.removes i with
  | true =>
    rw [h.filter_anchor_eq_nil hr]
    cases plan.spaces.get? i <;> rfl
  | false =>
    have hsite : (plan.site t i).move? = none := by
      unfold site
      cases plan.spaces.get? i <;> rfl
    have hsome : (plan.moves.filter (·.anchor == i)).filterMap
        (fun m => (Part.qualifier m).move?) = plan.moves.filter (·.anchor == i) :=
      List.filterMap_some
    simp only [Bool.false_eq_true, if_false, List.filterMap_cons, hsite]
    rw [filterMap_insertedParts rfl, hsome]

/-- The moves of the parts are the moves of the plan, anchor by anchor. -/
theorem Forward.parts_moves (h : plan.Forward tokens) :
    (plan.parts tokens).filterMap Part.move? =
      (List.range tokens.length).flatMap fun a => plan.moves.filter (·.anchor == a) := by
  have hrange : tokens.zipIdx.map Prod.snd = List.range tokens.length := by
    simp [List.range_eq_range']
  rw [parts, List.filterMap_flatMap, ← hrange, List.flatMap_map]
  exact List.flatMap_congr fun e _ => h.move_partsAt

theorem flatMap_range_ite {α : Type} (n a : Nat) (xs : List α) :
    ((List.range n).flatMap fun k => if k = a then xs else []) = if a < n then xs else [] := by
  induction n with
  | zero => rfl
  | succ n ih =>
    rw [List.range_succ, List.flatMap_append, List.flatMap_singleton, ih]
    by_cases hlt : a < n
    · rw [if_pos hlt, if_neg (by omega), if_pos (by omega), List.append_nil]
    · rw [if_neg hlt, List.nil_append]
      by_cases heq : n = a
      · rw [if_pos heq, if_pos (by omega)]
      · rw [if_neg heq, if_neg (by omega)]

/-- Moves taken anchor by anchor keep their order at each anchor. -/
theorem filter_flatMap_filter {ms : List Move} {n : Nat} (h : ∀ m ∈ ms, m.anchor < n) (a : Nat) :
    ((List.range n).flatMap fun k => ms.filter (·.anchor == k)).filter (·.anchor == a) =
      ms.filter (·.anchor == a) := by
  have hstep (k : Nat) : (ms.filter (·.anchor == k)).filter (·.anchor == a) =
      if k = a then ms.filter (·.anchor == a) else [] := by
    split
    · rename_i hk
      rw [hk, List.filter_filter]
      simp
    · rename_i hk
      refine List.filter_eq_nil_iff.2 fun m hm ha => hk ?_
      rw [← beq_iff_eq.1 (List.mem_filter.1 hm).2, beq_iff_eq.1 ha]
  rw [List.filter_flatMap]
  simp only [hstep]
  rw [flatMap_range_ite]
  split
  · rfl
  · rename_i hlt
    refine (List.filter_eq_nil_iff.2 fun m hm ha => hlt ?_).symm
    exact beq_iff_eq.1 ha ▸ h m hm

/-- No qualifier is moved twice. -/
theorem Forward.countP_index (h : plan.Forward tokens) (i : Nat) :
    plan.moves.countP (·.index == i) = if plan.removes i then 1 else 0 := by
  unfold removes
  have hpair := h.distinct
  generalize plan.moves = ms at hpair
  induction ms with
  | nil => rfl
  | cons m ms ih =>
    obtain ⟨hne, hpair⟩ := List.pairwise_cons.1 hpair
    rw [List.countP_cons, ih hpair, List.any_cons]
    by_cases hm : m.index = i
    · have hnone : ms.any (·.index == i) = false := by
        rw [List.any_eq_false]
        intro m' hm' he
        exact hne m' hm' (hm.trans (beq_iff_eq.1 he).symm)
      simp [hm, hnone]
    · simp [hm]

/-! ## Where a qualifier is put in -/

/-- An element of a flattened list lies in the list of one of its elements. -/
theorem flatMap_eq_append_cons {α β : Type} {f : α → List β} {xs : List α} {before after : List β}
    {b : β} (h : xs.flatMap f = before ++ b :: after) :
    ∃ ys x zs inner outer, xs = ys ++ x :: zs ∧ f x = inner ++ b :: outer ∧
      before = ys.flatMap f ++ inner := by
  induction xs generalizing before with
  | nil => simp at h
  | cons x xs ih =>
    have hlater (rest : List β) (hrest : xs.flatMap f = rest ++ b :: after) :
        ∃ ys x' zs inner outer, x :: xs = ys ++ x' :: zs ∧ f x' = inner ++ b :: outer ∧
          f x ++ rest = ys.flatMap f ++ inner := by
      obtain ⟨ys, x', zs, inner, outer, hxs, hx', heq⟩ := ih hrest
      refine ⟨x :: ys, x', zs, inner, outer, by rw [hxs, List.cons_append], hx', ?_⟩
      rw [heq, List.flatMap_cons, List.append_assoc]
    rw [List.flatMap_cons, List.append_eq_append_iff] at h
    rcases h with ⟨rest, hbefore, hrest⟩ | ⟨rest, hx, hafter⟩
    · rw [hbefore]
      exact hlater rest hrest
    · cases rest with
      | nil =>
        have hempty := hlater [] hafter.symm
        rwa [hx, List.append_nil, List.append_nil] at hempty
      | cons b' rest =>
        rw [List.cons_append, List.cons.injEq] at hafter
        exact ⟨[], x, xs, before, rest, rfl, hafter.1 ▸ hx, rfl⟩

/-- A qualifier that is put in comes after a space, and before that come only others that are put
in. -/
theorem putIn_eq_append {ms : List Move} {before after : List Part} {m : Move}
    (h : putIn ms = before ++ .qualifier m :: after) :
    m ∈ ms ∧ ∃ run, before = run ++ [.space] ∧
      ∀ p ∈ run, p = .space ∨ ∃ m' ∈ ms, p = .qualifier m' := by
  obtain ⟨ys, m', zs, inner, outer, hms, hparts, hbefore⟩ := flatMap_eq_append_cons h
  have hinner : m' = m ∧ inner = [.space] := by
    cases inner with
    | nil => simp at hparts
    | cons p inner =>
      cases inner with
      | nil => simp_all
      | cons p' inner => simp at hparts
  obtain ⟨rfl, rfl⟩ := hinner
  refine ⟨by rw [hms]; simp, putIn ys, hbefore, fun p hp => ?_⟩
  obtain ⟨m'', hm'', hp⟩ := List.mem_flatMap.1 hp
  rcases List.mem_pair.1 hp with hp | hp
  · exact .inl hp
  · exact .inr ⟨m'', by rw [hms]; exact List.mem_append_left _ hm'', hp⟩

theorem insertedParts_eq_append {before after : List Part} {m : Move}
    (h : plan.insertedParts i = before ++ .qualifier m :: after) :
    m.anchor = i ∧ ∃ run, before = run ++ [.space] ∧
      ∀ p ∈ run, p = .space ∨ ∃ m' ∈ plan.moves, m'.anchor = i ∧ p = .qualifier m' := by
  have hpad (rest : List Part) :
      (if plan.padded.contains i then [Part.space] else []) ≠ rest ++ .qualifier m :: after := by
    intro hpad
    have hmem : Part.qualifier m ∈ if plan.padded.contains i then [Part.space] else [] := by
      rw [hpad]
      simp
    split at hmem <;> simp at hmem
  have hputIn (rest : List Part)
      (hrest : putIn (plan.moves.filter (·.anchor == i)) = before ++ .qualifier m :: rest) :
      m.anchor = i ∧ ∃ run, before = run ++ [.space] ∧
        ∀ p ∈ run, p = .space ∨ ∃ m' ∈ plan.moves, m'.anchor = i ∧ p = .qualifier m' := by
    obtain ⟨hm, run, hbefore, hrun⟩ := putIn_eq_append hrest
    refine ⟨beq_iff_eq.1 (List.mem_filter.1 hm).2, run, hbefore, fun p hp => ?_⟩
    refine (hrun p hp).imp_right fun ⟨m', hm', hp⟩ => ?_
    obtain ⟨hmem, hanchor⟩ := List.mem_filter.1 hm'
    exact ⟨m', hmem, beq_iff_eq.1 hanchor, hp⟩
  unfold insertedParts at h
  dsimp only at h
  split at h
  · simp at h
  · rw [List.append_eq_append_iff] at h
    rcases h with ⟨rest, -, hrest⟩ | ⟨rest, hrest, hafter⟩
    · exact absurd hrest (hpad rest)
    · cases rest with
      | nil => exact absurd hafter.symm (hpad [])
      | cons p rest =>
        rw [List.cons_append, List.cons.injEq] at hafter
        exact hputIn rest (hafter.1 ▸ hrest)

/-- Before a qualifier that is put in stands its anchor, then qualifiers with the same anchor, then
a space. -/
theorem partsAt_eq_append {before after : List Part} {m : Move}
    (h : plan.partsAt t i = before ++ .qualifier m :: after) :
    plan.removes i = false ∧ m.anchor = i ∧ ∃ run, before = plan.site t i :: run ++ [.space] ∧
      ∀ p ∈ run, p = .space ∨ ∃ m' ∈ plan.moves, m'.anchor = i ∧ p = .qualifier m' := by
  unfold partsAt at h
  split at h
  · -- where a qualifier goes, only a replacement is written
    have hmem : Part.qualifier m ∈ (plan.spaces.get? i).toList.map (Part.replacement · i) := by
      rw [h]
      simp
    simp at hmem
  · rename_i hr
    refine ⟨Bool.eq_false_iff.2 hr, ?_⟩
    cases before with
    | nil =>
      rw [List.nil_append, List.cons.injEq] at h
      unfold site at h
      cases hx : plan.spaces.get? i <;> simp [hx] at h
    | cons p before =>
      rw [List.cons_append, List.cons.injEq] at h
      obtain ⟨hanchor, run, hbefore, hrun⟩ := insertedParts_eq_append h.2
      exact ⟨hanchor, run, by rw [h.1, hbefore, List.cons_append], hrun⟩

/-- A qualifier is put in behind its anchor, with nothing but qualifiers and spaces between. -/
theorem Sound.parts_anchored (h : plan.Sound tokens) {before after : List Part} {m : Move}
    (hparts : plan.parts tokens = before ++ .qualifier m :: after) :
    ∃ front site run, before = front ++ site :: run ++ [.space] ∧
      (∃ t, tokens[m.anchor]? = some t ∧
        (plan.spaces.get? m.anchor = none ∧ site = .token t m.anchor ∨
          t.kind = .whitespace ∧
            ∃ text, plan.spaces.get? m.anchor = some text ∧ site = .replacement text m.anchor)) ∧
      ∀ p ∈ run, p = .space ∨ ∃ m' ∈ plan.moves, m'.anchor = m.anchor ∧ p = .qualifier m' := by
  obtain ⟨ys, ⟨t, i⟩, zs, inner, outer, hsplit, hat, hbefore⟩ := flatMap_eq_append_cons hparts
  have hmem : (t, i) ∈ tokens.zipIdx := by rw [hsplit]; simp
  have ht : tokens[i]? = some t := List.mem_zipIdx_iff_getElem?.1 hmem
  obtain ⟨hr, rfl, run, rfl, hrun⟩ := partsAt_eq_append hat
  refine ⟨ys.flatMap fun e => plan.partsAt e.1 e.2, plan.site t m.anchor, run, ?_,
    ⟨t, ht, ?_⟩, hrun⟩
  · rw [hbefore, List.append_assoc]
  · unfold site
    cases hx : plan.spaces.get? m.anchor with
    | none => exact .inl ⟨rfl, rfl⟩
    | some x =>
      refine .inr ⟨?_, x, rfl, rfl⟩
      refine Decidable.byContradiction fun hk => ?_
      rw [h.spaces_eq_none ht hk hr] at hx
      cases hx

/-! ## Everything else -/

theorem eq_space_of_mem_insertedParts {p : Part} (hp : p ∈ plan.insertedParts i)
    (hmove : p.move? = none) : p = .space := by
  unfold insertedParts at hp
  dsimp only at hp
  split at hp
  · cases hp
  · rcases List.mem_append.1 hp with hp | hp
    · obtain ⟨m, -, hp⟩ := List.mem_flatMap.1 hp
      rcases List.mem_pair.1 hp with rfl | rfl
      · rfl
      · cases hmove
    · split at hp
      · exact List.mem_singleton.1 hp
      · cases hp

/-- What is written besides tokens and qualifiers is blank, or whitespace of the source. -/
theorem Sound.parts_others (h : plan.Sound tokens) {p : Part} (hp : p ∈ plan.parts tokens)
    (hsolid : p.solid? = none) (hmove : p.move? = none) :
    p.text.all isBlank = true ∨
      ∃ t i, p = .token t i ∧ tokens[i]? = some t ∧ t.kind = .whitespace ∧
        plan.spaces.get? i = none := by
  obtain ⟨⟨t, i⟩, he, hp⟩ := List.mem_flatMap.1 hp
  have ht := List.mem_zipIdx_iff_getElem?.1 he
  have hblank {x : List Char} (hx : plan.spaces.get? i = some x) : x.all isBlank = true :=
    h.blank _ (IndexMap.mem_of_get? hx)
  unfold partsAt at hp
  split at hp
  · obtain ⟨x, hx, rfl⟩ := List.mem_map.1 hp
    exact .inl (hblank (Option.mem_toList.1 hx))
  · rcases List.mem_cons.1 hp with rfl | hp
    · unfold site at hsolid ⊢
      cases hx : plan.spaces.get? i with
      | some x => exact .inl (hblank hx)
      | none =>
        refine .inr ⟨t, i, rfl, ht, ?_, hx⟩
        simpa [hx, Part.solid?] using hsolid
    · rw [eq_space_of_mem_insertedParts hp hmove]
      exact .inl rfl

/-- What is written under a plan that passes its check conserves the tokens: those that stay are
there as they were, once and in order, and the qualifiers that go are each put in once, behind their
anchors and in the order of the plan; all else is blank or white space as it was. -/
theorem render_conserves (h : plan.check tokens = .ok ()) :
    ∃ parts, plan.render tokens = parts.flatMap Part.text ∧ plan.Conserves tokens parts := by
  have hsound := check_eq_ok_iff.1 h
  have hforward := hsound.toForward
  have hmoves := hforward.parts_moves
  have hperm : ((plan.parts tokens).filterMap Part.move?).Perm plan.moves := by
    rw [hmoves]
    exact flatMap_filter_perm hforward.inRange
  refine ⟨plan.parts tokens, render_eq_parts plan tokens, hsound.parts_kept, fun i => ?_,
    fun m hm => ?_, fun a => ?_, fun before m after hparts => hsound.parts_anchored hparts,
    fun p hp hsolid hmove => hsound.parts_others hp hsolid hmove⟩
  · rw [hperm.countP_eq, hforward.countP_index]
  · have hmem : m ∈ plan.moves := hperm.mem_iff.1 (List.mem_filterMap.2 ⟨_, hm, rfl⟩)
    obtain ⟨t, ht, hq⟩ := Option.bind_eq_some_iff.1 (hforward.qualifier m hmem)
    exact ⟨t, ht, Token.text_of_qualifier hq⟩
  · rw [hmoves, filter_flatMap_filter hforward.inRange]

end

/-- Moves out of order, behind white space that is changed itself. -/
theorem render_conserves_unordered :
    (⟨[⟨2, 5, .volatile⟩, ⟨0, 5, .const⟩], ⟨[(1, []), (5, ['\t'])]⟩, ⟨[(5, ())]⟩⟩ : Plan).check
        (EastConst.tokens "const volatile int x;".toList) = .ok () ∧
      ∃ parts, " int\t volatile const x;".toList = parts.flatMap Part.text ∧
        (⟨[⟨2, 5, .volatile⟩, ⟨0, 5, .const⟩], ⟨[(1, []), (5, ['\t'])]⟩, ⟨[(5, ())]⟩⟩ :
          Plan).Conserves
          (EastConst.tokens "const volatile int x;".toList) parts := by
  have hcheck : (⟨[⟨2, 5, .volatile⟩, ⟨0, 5, .const⟩], ⟨[(1, []), (5, ['\t'])]⟩,
      ⟨[(5, ())]⟩⟩ : Plan).check
      (EastConst.tokens "const volatile int x;".toList) = .ok () := by decide +kernel
  obtain ⟨parts, htext, hparts⟩ := render_conserves hcheck
  have hrender : (⟨[⟨2, 5, .volatile⟩, ⟨0, 5, .const⟩], ⟨[(1, []), (5, ['\t'])]⟩,
      ⟨[(5, ())]⟩⟩ : Plan).render
      (EastConst.tokens "const volatile int x;".toList) = " int\t volatile const x;".toList := by
    decide +kernel
  exact ⟨hcheck, parts, hrender ▸ htext, hparts⟩

end EastConst.Plan
