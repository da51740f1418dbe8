import Mathlib.Data.List.Pairwise
import EastConst.Proofs.Plan.Pieces

/-!
# Moves do not cross

Every type is scanned by itself, with its own counters. Still, a scan that starts inside another one
ends before it. Seen from a bracket that is open around it, a phrase does nothing
(`Phrase.rest?_eq_none`), while a qualifier inside a phrase stands in a bracket that the rest of the
phrase closes (`Phrase.exists_rest?_of_qualifier`): so the type of a group that stands in an outer
type ends before the outer type does (`anchor_lt_of_inside`).

The main statement is `moves_never_cross`: two moves of a plan belong to one group, or are apart, or
one is inside the other.
-/

namespace EastConst

/-! ## Phrases and brackets -/

theorem Token.mark?_eq_none {t : Token} (h : t.kind ≠ .punctuation) : t.mark? = none := by
  rw [Token.mark?, if_neg h]

theorem Token.mark?_of_isKeyword {t : Token} {word : String} (h : t.isKeyword word = true) :
    t.mark? = none := by
  have hk := beq_iff_eq.1 (Bool.and_eq_true_iff.1 h).1
  exact Token.mark?_eq_none (by simp [hk])

theorem Token.mark?_of_isBuiltinType {t : Token} (h : t.isBuiltinType = true) : t.mark? = none := by
  have hword := (Bool.and_eq_true_iff.1 h).1
  apply Token.mark?_eq_none
  intro hk
  simp [Token.isWord, hk] at hword

theorem Token.mark?_of_qualifier {t : Token} {q : Qualifier} (h : Qualifier.ofToken? t = some q) :
    t.mark? = none := by
  have hk := Token.kind_of_qualifier h
  exact Token.mark?_eq_none (by simp [hk])

theorem Token.isKeyword_of_qualifier {t : Token} {q : Qualifier} {word : String}
    (h : Qualifier.ofToken? t = some q) (hw : q.text ≠ word.toList) : t.isKeyword word = false := by
  simp [Token.isKeyword, Token.text_of_qualifier h, hw]

namespace TypeExtent

/-- The bracket that is open where the reading of a name stands, inside another bracket. -/
def Enclosure.within (o : Enclosure) : NameState → Enclosure
  | .arguments d => o.around d
  | _ => o

/-- Whether the list that is being read, if any, is open by its counters. -/
def NameState.IsOpen : NameState → Prop
  | .arguments d => 1 ≤ d.angles
  | _ => True

section

variable {o : Enclosure} {state state' : NameState} {t : Token} {ts us : List Token} {q : Qualifier}

/-- Reading on in a name, a list that is open by its counters stays so until it is closed. -/
theorem NameState.IsOpen.reads (h : state.IsOpen) (ht : state.Reads t state') : state'.IsOpen := by
  cases ht with
  | less => exact Nat.le_refl 1
  | more hd => exact Depths.one_le_angles_of_more h hd
  | _ => trivial

/-- The step lemma: a token of a name moves a bracket around the name as it moves the name. -/
theorem Enclosure.after_within (ho : o.IsOpen) (hs : state.IsOpen) (ht : state.Reads t state') :
    (o.within state).after t = .on (o.within state') := by
  have hword (ht : t.mark? = none) : o.after t = .on o := o.after_of_plain (.inl ht)
  have hscope (ht : t.isMark .scope = true) : o.after t = .on o :=
    o.after_of_plain (.inr (beq_iff_eq.1 ht))
  cases ht with
  | global ht => exact hscope ht
  | template hs ht => rcases hs with rfl | rfl <;> exact hword (Token.mark?_of_isKeyword ht)
  | identifier hs ht =>
    have hm : t.mark? = none := Token.mark?_eq_none (by simp [ht])
    rcases hs with rfl | rfl | rfl <;> exact hword hm
  | scope hs ht => rcases hs with rfl | rfl <;> exact hscope ht
  | less ht => exact o.after_of_less ht
  | more hd => exact Enclosure.after_around_of_more ho hs hd
  | closed hd => exact Enclosure.after_around_of_closed ho hs hd

/-- The run lemma: a name leaves a bracket around it as it was. -/
theorem Completes.rest?_within (h : Completes state ts) (ho : o.IsOpen) (hs : state.IsOpen)
    (us : List Token) : (o.within state).rest? (ts ++ us) = o.rest? us := by
  induction h with
  | identifier => rfl
  | argued => rfl
  | step ht hts ih =>
    rw [List.cons_append, Enclosure.rest?_of_on (Enclosure.after_within ho hs ht)]
    exact ih (hs.reads ht)

/-- A complete name closes no bracket that was open before it. -/
theorem Completes.rest?_eq_none (h : Completes .start ts) (ho : o.IsOpen) : o.rest? ts = none := by
  have hrun := h.rest?_within ho trivial []
  rwa [List.append_nil] at hrun

/-- A phrase does not close a bracket around it. -/
theorem Phrase.rest?_eq_none (h : Phrase ts) (ho : o.IsOpen) : o.rest? ts = none := by
  cases h with
  | fundamental _ h =>
    have hskip := o.rest?_append_of_plain (fun t ht => Token.mark?_of_isBuiltinType (h t ht)) []
    rwa [List.append_nil] at hskip
  | name h => exact h.rest?_eq_none ho
  | elaborated ht _ h =>
    rw [Enclosure.rest?_of_on (o.after_of_plain (.inl (Token.mark?_eq_none (by simp [ht]))))]
    exact h.rest?_eq_none ho
  | decltype ht hu h =>
    rw [Enclosure.rest?_of_on (o.after_of_plain (.inl (Token.mark?_of_isKeyword ht)))]
    -- after the parenthesis, the bracket has as many parentheses open as the operand
    obtain ⟨o', hstep, hparens⟩ := Enclosure.after_of_parenOpen ho hu
    rw [Enclosure.rest?_of_on hstep]
    exact Enclosure.rest?_eq_none_of_operand (Nat.le_refl 1) hparens h

/-! ## Qualifiers inside a phrase -/

/-- A name has a qualifier only inside template arguments. -/
theorem NameState.Reads.of_qualifier (h : state.Reads t state')
    (hq : Qualifier.ofToken? t = some q) :
    ∃ d, state = .arguments d ∧ state' = .arguments d := by
  have hm := Token.mark?_of_qualifier hq
  have hmark (m : Mark) : t.isMark m = false := by simp [Token.isMark, hm]
  cases h with
  | global ht => simp [hmark] at ht
  | template _ ht =>
    rw [Token.isKeyword_of_qualifier hq (by cases q <;> decide)] at ht
    cases ht
  | identifier _ ht => simp [Token.kind_of_qualifier hq] at ht
  | scope _ ht => simp [hmark] at ht
  | less ht => simp [hmark] at ht
  | @more d d' _ hd =>
    have hsame : d.after t = .more d := by simp [Depths.after, hm]
    obtain rfl := Arguments.more.inj (hsame.symm.trans hd)
    exact ⟨d, rfl, rfl⟩
  | closed hd =>
    obtain ⟨-, -, ⟨ht, -⟩ | ⟨ht, -⟩⟩ := Depths.after_eq_closed hd <;> simp [hm] at ht

theorem Completes.isSome_rest? {d : Depths} (h : Completes (.arguments d) ts) :
    ((Enclosure.arguments d).rest? ts).isSome := by
  induction ts generalizing d with
  | nil => cases h
  | cons t ts ih =>
    cases h with
    | step ht hts =>
      cases ht with
      | template hs => simp at hs
      | identifier hs => simp at hs
      | scope hs => simp at hs
      | more hd =>
        rw [Enclosure.rest?_of_on (Enclosure.after_arguments_of_more hd)]
        exact ih hts
      | closed hd =>
        rw [Enclosure.rest?_of_closed (Enclosure.after_arguments_of_closed hd)]
        rfl

/-- A qualifier inside a name stands inside a bracket of it, which the rest of the name closes. -/
theorem Completes.exists_rest?_of_qualifier (h : Completes state (ts ++ t :: us))
    (hs : state.IsOpen)
    (hq : Qualifier.ofToken? t = some q) : ∃ o : Enclosure, o.IsOpen ∧ (o.rest? us).isSome := by
  induction ts generalizing state with
  | nil =>
    cases h with
    | step ht hts =>
      have hopen := hs.reads ht
      obtain ⟨d, -, rfl⟩ := ht.of_qualifier hq
      exact ⟨.arguments d, hopen, hts.isSome_rest?⟩
  | cons u ts ih =>
    cases h with
    | step ht hts => exact ih hts (hs.reads ht)

/-- A qualifier in a phrase stands in a bracket, which the rest of the phrase closes. -/
theorem Phrase.exists_rest?_of_qualifier (h : Phrase (ts ++ t :: us))
    (hq : Qualifier.ofToken? t = some q) : ∃ o : Enclosure, o.IsOpen ∧ (o.rest? us).isSome := by
  generalize hl : ts ++ t :: us = l at h
  cases h with
  | fundamental _ h =>
    have hb := h t (by rw [← hl]; simp)
    have hend := Token.endsType_of_qualifier hq
    simp [Token.endsType, hb] at hend
  | name h => exact (hl ▸ h).exists_rest?_of_qualifier trivial hq
  | @elaborated u _ hu he h =>
    cases ts with
    | nil =>
      obtain ⟨rfl, -⟩ := List.cons.inj hl
      have hne : Vocabulary.isElaborator q.text = false := by cases q <;> decide
      rw [Token.text_of_qualifier hq, hne] at he
      cases he
    | cons v ts =>
      obtain ⟨-, rfl⟩ := List.cons.inj hl
      exact h.exists_rest?_of_qualifier trivial hq
  | @decltype u v _ hu hv h =>
    cases ts with
    | nil =>
      obtain ⟨rfl, -⟩ := List.cons.inj hl
      rw [Token.isKeyword_of_qualifier hq (by cases q <;> decide)] at hu
      cases hu
    | cons w ts =>
      obtain ⟨-, hl⟩ := List.cons.inj hl
      cases ts with
      | nil =>
        obtain ⟨rfl, -⟩ := List.cons.inj hl
        simp [Token.isMark, Token.mark?_of_qualifier hq] at hv
      | cons w ts =>
        obtain ⟨-, rfl⟩ := List.cons.inj hl
        have hopen : (Enclosure.operand 1).IsOpen := Nat.le_refl 1
        exact Enclosure.exists_rest?_of_inside hopen (Token.mark?_of_qualifier hq) h

end

end TypeExtent

/-! ## Groups inside a type -/

/-- Whether the members of a group come after the type of another has started. -/
def Group.Precedes (g g' : Group) : Prop :=
  ∀ m ∈ g'.members, g.typeStart ≤ m

section

variable {options : Options} {tokens : List Token} {e e' : Group × Nat}

open TypeExtent in
/-- A group moves over a phrase, from the start of its type to its anchor. -/
theorem phrase_of_mem_movable (he : e ∈ movable options tokens) :
    Phrase ((significantBetween tokens e.1.typeStart (e.2 + 1)).map Prod.fst) := by
  obtain ⟨-, extent, hext, hlast⟩ := mem_movable_iff.1 he
  rw [← hlast]
  exact phrase_of_find hext

open TypeExtent in
/-- A phrase that a qualifier in another phrase leads in to ends before the other one. -/
theorem last_lt_of_inside {start last start' last' m : Nat} {t : Token} {q : Qualifier}
    (h : Phrase ((significantBetween tokens start (last + 1)).map Prod.fst))
    (h' : Phrase ((significantBetween tokens start' (last' + 1)).map Prod.fst))
    (ht : tokens[m]? = some t) (hq : Qualifier.ofToken? t = some q) (hstart : start ≤ m)
    (hle : m ≤ last) (hm : m < start') (hle' : start' ≤ last')
    (hlead : ∀ k u, m < k → k < start' → tokens[k]? = some u → u.mark? = none) : last' < last := by
  refine Decidable.byContradiction fun hlt => ?_
  have hsig : t.isSignificant = true := by
    simp [Token.isSignificant, Token.isTrivia, Token.kind_of_qualifier hq]
  -- in the outer phrase, a bracket is open after the qualifier and closed before the end
  rw [significantBetween_append hstart (Nat.le_succ_of_le hle),
    significantBetween_cons ht hsig (Nat.lt_succ_of_le hle), List.map_append, List.map_cons] at h
  obtain ⟨o, ho, hclosed⟩ := h.exists_rest?_of_qualifier hq
  -- it is closed then before the inner phrase ends, too
  have hclosed' := Enclosure.isSome_rest?_append hclosed
    ((significantBetween tokens (last + 1) (last' + 1)).map Prod.fst)
  rw [← List.map_append, ← significantBetween_append (by omega) (by omega)] at hclosed'
  -- but neither what leads in to the inner phrase nor the phrase closes it
  have hplain : ∀ u ∈ (significantBetween tokens (m + 1) start').map Prod.fst, u.mark? = none := by
    intro u hu
    obtain ⟨⟨u, k⟩, hk, rfl⟩ := List.mem_map.1 hu
    obtain ⟨hmk, hk, hu, -⟩ := mem_significantBetween hk
    exact hlead k u hmk hk hu
  rw [significantBetween_append hm (Nat.le_succ_of_le hle'), List.map_append,
    Enclosure.rest?_append_of_plain o hplain, h'.rest?_eq_none ho] at hclosed'
  cases hclosed'

/-- The type of a group that stands in the type of another ends before it. -/
theorem anchor_lt_of_inside (hts : Terminated tokens) (he : e ∈ movable options tokens)
    (he' : e' ∈ movable options tokens) {m : Nat} (hm : m ∈ e'.1.members)
    (hstart : e.1.typeStart ≤ m) (hle : m ≤ e.2) : e'.2 < e.2 := by
  have hmoves := mem_movable hts he'
  obtain ⟨hmstart, t, q, ht, hq⟩ := hmoves.member m hm
  exact last_lt_of_inside (phrase_of_mem_movable he) (phrase_of_mem_movable he') ht hq
    hstart hle hmstart hmoves.anchored.1 fun k u hk hk' hu =>
      Token.mark?_of_isLeadIn (hmoves.isLeadIn hm (Nat.le_of_lt hk) hk' hu)

/-- Of two groups that move, one comes before the other. -/
theorem movable_cases (hts : Terminated tokens) (he : e ∈ movable options tokens)
    (he' : e' ∈ movable options tokens) :
    e = e' ∨ e.1.Precedes e'.1 ∨ e'.1.Precedes e.1 := by
  have hsymm : Std.Symm fun e e' : Group × Nat => e.1.Precedes e'.1 ∨ e'.1.Precedes e.1 :=
    ⟨fun _ _ h => h.symm⟩
  have hpair : (movable options tokens).Pairwise fun e e' =>
      e.1.Precedes e'.1 ∨ e'.1.Precedes e.1 :=
    (movable_pairwise hts).imp fun h => .inl h
  by_cases heq : e = e'
  · exact .inl heq
  · exact .inr (hpair.forall he he' heq)

/-- Groups that move have anchors of their own. -/
theorem movable_pairwise_anchor (hts : Terminated tokens) :
    (movable options tokens).Pairwise (·.2 ≠ ·.2) := by
  refine (movable_pairwise hts).imp_of_mem fun {e e'} he he' hle => ?_
  intro h
  have hmoves := mem_movable hts he'
  obtain ⟨m, hm⟩ := List.exists_mem_of_ne_nil _ hmoves.nonempty
  have hlt := (hmoves.member m hm).1
  have hanchor := hmoves.anchored.1
  have hinside := anchor_lt_of_inside hts he he' hm (hle m hm) (by omega)
  omega

/-- No two groups move to the same anchor. -/
theorem eq_of_anchor_eq (hts : Terminated tokens) (he : e ∈ movable options tokens)
    (he' : e' ∈ movable options tokens) (h : e.2 = e'.2) : e = e' := by
  have hsymm : Std.Symm fun e e' : Group × Nat => e.2 ≠ e'.2 := ⟨fun _ _ h => h.symm⟩
  refine Decidable.byContradiction fun hne => ?_
  exact (movable_pairwise_anchor hts).forall he he' hne h

end

/-! ## Moves -/

namespace Plan

section

variable {options : Options} {tokens : List Token} {anchor : Nat} {members : List Nat}

/-- The moves of qualifiers to an anchor, one for each of them. -/
theorem movesTo_cons {m : Nat} {t : Token} {q : Qualifier} (ht : tokens[m]? = some t)
    (hq : Qualifier.ofToken? t = some q) :
    movesTo tokens anchor (m :: members) = ⟨m, anchor, q⟩ :: movesTo tokens anchor members := by
  simp [movesTo, ht, hq]

theorem movesTo_map_index
    (h : ∀ m ∈ members, ∃ t q, tokens[m]? = some t ∧ Qualifier.ofToken? t = some q) :
    (movesTo tokens anchor members).map (·.index) = members := by
  induction members with
  | nil => rfl
  | cons m members ih =>
    obtain ⟨t, q, ht, hq⟩ := h m List.mem_cons_self
    rw [movesTo_cons ht hq, List.map_cons, ih fun k hk => h k (List.mem_cons_of_mem _ hk)]

theorem movesTo_flatMap_text
    (h : ∀ m ∈ members, ∃ t q, tokens[m]? = some t ∧ Qualifier.ofToken? t = some q) :
    (movesTo tokens anchor members).flatMap (fun m => ' ' :: m.qualifier.text) =
      (members.filterMap (tokens[·]?)).flatMap fun t => ' ' :: t.text := by
  induction members with
  | nil => rfl
  | cons m members ih =>
    obtain ⟨t, q, ht, hq⟩ := h m List.mem_cons_self
    rw [movesTo_cons ht hq, List.filterMap_cons_some ht, List.flatMap_cons, List.flatMap_cons,
      ih fun k hk => h k (List.mem_cons_of_mem _ hk), Token.text_of_qualifier hq]

/-- The moves to the anchor of a group are those of the group. -/
theorem ofTokens_moves_filter (hts : Terminated tokens) {e : Group × Nat}
    (he : e ∈ movable options tokens) :
    (ofTokens options tokens).moves.filter (·.anchor == e.2) = movesTo tokens e.2 e.1.members := by
  have hpair : (movable options tokens).Pairwise (·.2 ≠ ·.2) := movable_pairwise_anchor hts
  rw [ofTokens_moves]
  obtain ⟨before, after, hsplit⟩ := List.append_of_mem he
  rw [hsplit, List.pairwise_append, List.pairwise_cons] at hpair
  obtain ⟨-, ⟨hafter, -⟩, hbefore⟩ := hpair
  have hother {es : List (Group × Nat)} (hes : ∀ e' ∈ es, e'.2 ≠ e.2) :
      (es.flatMap fun e => movesTo tokens e.2 e.1.members).filter (·.anchor == e.2) = [] := by
    refine List.filter_eq_nil_iff.2 fun m hm => ?_
    obtain ⟨e', he', hm⟩ := List.mem_flatMap.1 hm
    rw [(mem_movesTo.1 hm).2.1]
    simpa using hes e' he'
  have hself : (movesTo tokens e.2 e.1.members).filter (·.anchor == e.2) =
      movesTo tokens e.2 e.1.members :=
    List.filter_eq_self.2 fun m hm => by simp [(mem_movesTo.1 hm).2.1]
  rw [hsplit, List.flatMap_append, List.flatMap_cons, List.filter_append, List.filter_append, hself,
    hother fun e' he' => hbefore e' he' e List.mem_cons_self,
    hother fun e' he' => (hafter e' he').symm, List.nil_append, List.append_nil]

/-- Behind its anchor a group is put in whole, in its order, and perhaps a space. -/
theorem insertion_of_mem_movable (hts : Terminated tokens) {e : Group × Nat}
    (he : e ∈ movable options tokens) :
    ∃ pad, (pad = [] ∨ pad = [' ']) ∧ (ofTokens options tokens).insertion e.2 =
      ((e.1.members.filterMap (tokens[·]?)).flatMap fun t => ' ' :: t.text) ++ pad := by
  have hmoves := mem_movable hts he
  have hmember := fun m hm => (hmoves.member m hm).2
  have hne : (movesTo tokens e.2 e.1.members).isEmpty = false := by
    have hmembers : (movesTo tokens e.2 e.1.members).map (·.index) = e.1.members :=
      movesTo_map_index hmember
    cases hms : movesTo tokens e.2 e.1.members with
    | nil =>
      rw [hms] at hmembers
      exact absurd hmembers.symm hmoves.nonempty
    | cons m ms => rfl
  refine ⟨if (ofTokens options tokens).padded.contains e.2 then [' '] else [], ?_, ?_⟩
  · split
    · exact .inr rfl
    · exact .inl rfl
  · unfold insertion
    dsimp only
    rw [ofTokens_moves_filter hts he, movesTo_flatMap_text hmember, if_neg (by simp [hne])]

end

/-- Two moves belong to one group: they go to one anchor, and between what they take away there is
only what may lead in to the type. -/
structure Together (options : Options) (tokens : List Token) (a b : Move) : Prop where
  anchor : a.anchor = b.anchor
  group : ∃ g ∈ groups options tokens, a.index ∈ g.members ∧ b.index ∈ g.members
  between : ∀ k t, a.index < k → k < b.index → tokens[k]? = some t → t.isLeadIn options = true

/-- Exactly one of three statements holds. -/
def ExactlyOne (p q r : Prop) : Prop :=
  (p ∧ ¬ q ∧ ¬ r) ∨ (¬ p ∧ q ∧ ¬ r) ∨ (¬ p ∧ ¬ q ∧ r)

section

variable {options : Options} {source : List Char} {a b : Move}

/-- Two moves belong to one group, or are apart, or the second is inside the first. -/
theorem moves_trichotomy (ha : a ∈ (planOf options source).moves)
    (hb : b ∈ (planOf options source).moves) (h : a.index < b.index) :
    Together options (tokens source) a b ∨ a.anchor < b.index ∨ b.anchor < a.anchor := by
  have hts := tokens_terminated source
  obtain ⟨e, he, hmoves, hae, haanchor, -⟩ := exists_group_of_move ha
  obtain ⟨e', he', hmoves', hbe, hbanchor, -⟩ := exists_group_of_move hb
  rcases movable_cases hts he he' with rfl | hle | hle
  · left
    refine ⟨haanchor.trans hbanchor.symm, ⟨e.1, (mem_movable_iff.1 he).1, hae, hbe⟩, ?_⟩
    intro k t hk hk' ht
    have hlt := (hmoves.member _ hbe).1
    exact hmoves.isLeadIn hae (Nat.le_of_lt hk) (by omega) ht
  · right
    by_cases hout : a.anchor < b.index
    · exact .inl hout
    · have hinside := anchor_lt_of_inside hts he he' hbe (hle _ hbe) (by omega)
      exact .inr (by omega)
  · -- the group of the second move would come first
    have hstart := hle _ hae
    have hlt := (hmoves'.member _ hbe).1
    omega

/-- Moves never cross. Of two moves, either both belong to one group, or the second takes its
qualifier from behind the first's anchor, or it puts it before that. Groups have anchors of their
own, and what is written there are the qualifiers of the group in their order. -/
theorem moves_never_cross (options : Options) (source : List Char) :
    (planOf options source).moves.Pairwise (·.index < ·.index) ∧
      (∀ a ∈ (planOf options source).moves, ∀ b ∈ (planOf options source).moves, a.index < b.index →
        ExactlyOne (Together options (tokens source) a b) (a.anchor < b.index)
          (b.anchor < a.anchor)) ∧
      ∀ g ∈ groups options (tokens source), ∀ extent,
        g.extent options (tokens source) = .ok extent →
        (∀ g' ∈ groups options (tokens source), ∀ extent',
          g'.extent options (tokens source) = .ok extent' → extent'.last = extent.last → g' = g) ∧
        g.members.Pairwise (· < ·) ∧
        ((planOf options source).moves.filter (·.anchor == extent.last)).map (·.index) = g.members ∧
        ∃ pad, (pad = [] ∨ pad = [' ']) ∧ (planOf options source).insertion extent.last =
          ((g.members.filterMap ((tokens source)[·]?)).flatMap fun t => ' ' :: t.text) ++ pad := by
  have hts := tokens_terminated source
  refine ⟨ofTokens_moves_pairwise hts, fun a ha b hb hlt => ?_, fun g hg extent hext => ?_⟩
  · have ha' := index_lt_anchor ha
    have hb' := index_lt_anchor hb
    rcases moves_trichotomy ha hb hlt with h | h | h
    · have hanchor := h.anchor
      exact .inl ⟨h, by omega, by omega⟩
    · exact .inr (.inl ⟨fun h => by have := h.anchor; omega, h, by omega⟩)
    · exact .inr (.inr ⟨fun h => by have := h.anchor; omega, by omega, h⟩)
  · have he : (g, extent.last) ∈ movable options (tokens source) :=
      mem_movable_iff.2 ⟨hg, extent, hext, rfl⟩
    have hmoves := mem_movable hts he
    have hmember := fun m hm => (hmoves.member m hm).2
    have hfilter := ofTokens_moves_filter hts he
    refine ⟨fun g' hg' extent' hext' hlast => ?_, hmoves.ascending, ?_, ?_⟩
    · have he' : (g', extent.last) ∈ movable options (tokens source) :=
        mem_movable_iff.2 ⟨hg', extent', hext', hlast⟩
      exact (Prod.mk.inj (eq_of_anchor_eq hts he' he rfl)).1
    · rw [hfilter]
      exact movesTo_map_index hmember
    · exact insertion_of_mem_movable hts he

/-- A group in the arguments of the type of another one moves inside it. -/
theorem moves_never_cross_nested :
    (planOf {} "const volatile A<const int> x;".toList).moves =
        [⟨0, 9, .const⟩, ⟨2, 9, .volatile⟩, ⟨6, 8, .const⟩] ∧
      ExactlyOne
        (Together {} (tokens "const volatile A<const int> x;".toList) ⟨0, 9, .const⟩ ⟨6, 8, .const⟩)
        (9 < 6) (8 < 9) ∧
      ⟨[0, 2], 4, 13⟩ ∈ groups {} (tokens "const volatile A<const int> x;".toList) ∧
      ∃ pad, (pad = [] ∨ pad = [' ']) ∧
        (planOf {} "const volatile A<const int> x;".toList).insertion 9 =
          " const volatile".toList ++ pad := by
  have hmoves : (planOf {} "const volatile A<const int> x;".toList).moves =
      [⟨0, 9, .const⟩, ⟨2, 9, .volatile⟩, ⟨6, 8, .const⟩] := by decide +kernel
  have hmovable : (⟨[0, 2], 4, 13⟩, 9) ∈
      movable {} (tokens "const volatile A<const int> x;".toList) := by decide +kernel
  obtain ⟨hgroup, extent, hext, hlast⟩ := mem_movable_iff.1 hmovable
  obtain ⟨-, hpairs, hgroups⟩ := moves_never_cross {} "const volatile A<const int> x;".toList
  refine ⟨hmoves, hpairs _ ?_ _ ?_ (by decide), hgroup, ?_⟩
  · rw [hmoves]
    decide
  · rw [hmoves]
    decide
  · have hinsertion := (hgroups _ hgroup extent hext).2.2.2
    rw [hlast] at hinsertion
    have htext : (([0, 2].filterMap ((tokens "const volatile A<const int> x;".toList)[·]?)).flatMap
        fun t => ' ' :: t.text) = " const volatile".toList := by decide +kernel
    rwa [htext] at hinsertion

end

end Plan

end EastConst
