import Mathlib.Data.List.Perm.Basic
import EastConst.Proofs.Diagnostic
import EastConst.Proofs.Plan.Noncrossing

/-!
# Every leading qualifier is accounted for

* The members of the groups are the leading qualifiers that are to be moved, each of them once
  (`groups_flatMap_members`): no group takes a qualifier from another, and none is left over.
* A group moves as a whole or is refused as a whole, so what a plan takes away and what is refused
  are together these qualifiers (`accounted_perm`).
* A refused group is reported once, at the offset of its first member (`filter_diagnostics`). No
  other diagnostic has that offset: those of lexemes are never at a word.
-/

namespace EastConst

/-! ## Groups are a partition -/

/-- The indices of the leading qualifiers that are to be moved. -/
def leadingIndices (options : Options) (tokens : List Token) : List Nat :=
  ((occurrences options tokens).filter fun o =>
    o.role == .leading && options.relocates o.qualifier).map (·.index)

section

variable {options : Options} {tokens : List Token}

/-- The leading qualifiers that the options relocate, by their indices. -/
theorem mem_leadingIndices {i : Nat} :
    i ∈ leadingIndices options tokens ↔
      ∃ o ∈ occurrences options tokens, o.role = .leading ∧ options.relocates o.qualifier = true ∧
        o.index = i := by
  simp [leadingIndices, and_assoc]

theorem leadingIndices_pairwise (options : Options) (tokens : List Token) :
    (leadingIndices options tokens).Pairwise (· < ·) := by
  apply List.pairwise_map.2
  apply List.Pairwise.filter
  exact occurrencesInSegments_pairwise _ _ _ _ _

/-- There is one occurrence at an index. -/
theorem occurrence_eq_of_index {o o' : Occurrence} (ho : o ∈ occurrences options tokens)
    (ho' : o' ∈ occurrences options tokens) (h : o.index = o'.index) : o = o' := by
  have hpair : (occurrences options tokens).Pairwise (·.index < ·.index) :=
    occurrencesInSegments_pairwise _ _ _ _ _
  have hfilter := Plan.filter_key_eq hpair ho
  rw [h, Plan.filter_key_eq hpair ho'] at hfilter
  exact (List.cons.inj hfilter).1.symm

theorem nodup_of_ascending {xs : List Nat} (h : xs.Pairwise (· < ·)) : xs.Nodup :=
  h.imp Nat.ne_of_lt

/-- The members of all groups, in the order of the groups, stand in the order of the tokens. -/
theorem flatMap_members_pairwise (options : Options) (hts : Terminated tokens) :
    ((groups options tokens).flatMap (·.members)).Pairwise (· < ·) := by
  refine List.pairwise_flatMap.2 ⟨fun g hg => (leads_of_mem_groups hts hg).ascending, ?_⟩
  refine (groups_pairwise hts).imp_of_mem ?_
  intro g g' hg _ hle i hi j hj
  exact Nat.lt_of_lt_of_le ((leads_of_mem_groups hts hg).member i hi).1 (hle j hj)

/-- The members of all groups are the leading qualifiers that are to be moved, each once and in
order. -/
theorem groups_flatMap_members (hts : Terminated tokens) :
    (groups options tokens).flatMap (·.members) = leadingIndices options tokens := by
  have hasc := flatMap_members_pairwise options hts
  have hasc' := leadingIndices_pairwise options tokens
  refine List.Perm.eq_of_pairwise
    (fun i j _ _ hij hji => absurd hij (Nat.lt_asymm hji)) hasc hasc' ?_
  rw [List.perm_ext_iff_of_nodup (nodup_of_ascending hasc) (nodup_of_ascending hasc')]
  intro i
  rw [List.mem_flatMap, mem_leadingIndices]
  constructor
  · intro ⟨g, hg, hi⟩
    obtain ⟨o, ho, hindex, hrole, -, hrel⟩ := (leads_of_mem_groups hts hg).leading i hi
    exact ⟨o, ho, hrole, hrel, hindex⟩
  · intro ⟨o, ho, hrole, hrel, hindex⟩
    obtain ⟨g, hg, hi⟩ := exists_group_of_leading hts ho hrole hrel
    exact ⟨g, hg, hindex ▸ hi⟩

/-! ## A group moves or is refused -/

theorem mem_refusedGroups_iff {refused : RefusedGroup} :
    refused ∈ refusedGroups options tokens ↔
      refused.group ∈ groups options tokens ∧
        refused.group.extent options tokens = .error refused.refusal := by
  obtain ⟨g, refusal⟩ := refused
  rw [refusedGroups, List.mem_filterMap]
  constructor
  · intro ⟨g', hg', he⟩
    split at he
    · cases he
    · rename_i refusal' hext
      obtain ⟨rfl, rfl⟩ := RefusedGroup.mk.inj (Option.some.inj he)
      exact ⟨hg', hext⟩
  · intro ⟨hg, hext⟩
    exact ⟨g, hg, by rw [hext]⟩

/-- Every member of a group moves or is refused, and none does both. -/
theorem movable_append_refused_perm (options : Options) (tokens : List Token) :
    ((movable options tokens).flatMap (·.1.members) ++
      (refusedGroups options tokens).flatMap (·.group.members)).Perm
      ((groups options tokens).flatMap (·.members)) := by
  unfold movable refusedGroups
  induction groups options tokens with
  | nil => exact .nil
  | cons g rest ih =>
    rw [List.filterMap_cons, List.filterMap_cons, List.flatMap_cons]
    cases g.extent options tokens with
    | ok extent =>
      simp only [List.flatMap_cons, List.append_assoc]
      exact ih.append_left _
    | error refusal =>
      simp only [List.flatMap_cons]
      refine List.Perm.trans ?_ (ih.append_left _)
      rw [← List.append_assoc, ← List.append_assoc]
      exact List.perm_append_comm.append_right _

/-- What a plan moves are the members of the groups that move. -/
theorem moves_map_index (hts : Terminated tokens) :
    (Plan.ofTokens options tokens).moves.map (·.index) =
      (movable options tokens).flatMap (·.1.members) := by
  rw [Plan.ofTokens_moves, List.map_flatMap]
  apply List.flatMap_congr
  intro e he
  exact Plan.movesTo_map_index fun m hm => ((mem_movable hts he).member m hm).2

/-- What a plan takes away and what is refused are together the leading qualifiers that are to be
moved. -/
theorem accounted_perm (hts : Terminated tokens) :
    ((Plan.ofTokens options tokens).moves.map (·.index) ++
      (refusedGroups options tokens).flatMap (·.group.members)).Perm
      (leadingIndices options tokens) := by
  rw [moves_map_index hts, ← groups_flatMap_members hts]
  exact movable_append_refused_perm options tokens

theorem count_flatMap_of_nodup {α : Type} {xs : List α} {f : α → List Nat} {i : Nat}
    (h : ∀ x ∈ xs, (f x).Nodup) : (xs.flatMap f).count i = xs.countP fun x => (f x).contains i := by
  induction xs with
  | nil => rfl
  | cons x xs ih =>
    rw [List.flatMap_cons, List.count_append, List.countP_cons,
      ih fun y hy => h y (List.mem_cons_of_mem _ hy), (h x List.mem_cons_self).count, Nat.add_comm]
    simp

/-- Each leading qualifier that is to be moved is moved once or refused once, and no other is. -/
theorem countP_moves_add_refused (options : Options) (hts : Terminated tokens) (i : Nat) :
    (Plan.ofTokens options tokens).moves.countP (·.index == i) +
        (refusedGroups options tokens).countP (·.group.members.contains i) =
      if i ∈ leadingIndices options tokens then 1 else 0 := by
  have hnodup : ∀ refused ∈ refusedGroups options tokens, refused.group.members.Nodup := by
    intro refused h
    exact nodup_of_ascending (leads_of_mem_groups hts (mem_refusedGroups_iff.1 h).1).ascending
  rw [← (nodup_of_ascending (leadingIndices_pairwise options tokens)).count,
    ← (accounted_perm hts).count_eq, List.count_append, count_flatMap_of_nodup hnodup,
    List.count_eq_countP, List.countP_map]
  rfl

theorem removes_iff_countP {plan : Plan} {i : Nat} :
    plan.removes i = true ↔ 0 < plan.moves.countP (·.index == i) := by
  rw [Plan.removes, List.any_eq_true, List.countP_pos_iff]

theorem countP_refused_pos {i : Nat} {refused : RefusedGroup}
    (h : refused ∈ refusedGroups options tokens) (hi : i ∈ refused.group.members) :
    0 < (refusedGroups options tokens).countP (·.group.members.contains i) :=
  List.countP_pos_iff.2 ⟨refused, h, by simpa using hi⟩

/-- What is refused stays. -/
theorem removes_of_refused (hts : Terminated tokens) {i : Nat} {refused : RefusedGroup}
    (h : refused ∈ refusedGroups options tokens) (hi : i ∈ refused.group.members) :
    (Plan.ofTokens options tokens).removes i = false := by
  apply Bool.eq_false_iff.2
  intro hr
  have hmoved := removes_iff_countP.1 hr
  have hrefused := countP_refused_pos h hi
  have hsum := countP_moves_add_refused options hts i
  split at hsum <;> omega

/-- A qualifier that goes is leading, and one that the options relocate. -/
theorem leading_of_removes (hts : Terminated tokens) {o : Occurrence}
    (ho : o ∈ occurrences options tokens)
    (h : (Plan.ofTokens options tokens).removes o.index = true) :
    o.role = .leading ∧ options.relocates o.qualifier = true := by
  obtain ⟨e, he, hmem⟩ := (Plan.ofTokens_removes_iff hts).1 h
  obtain ⟨o', ho', hindex, hrole, -, hrel⟩ := (mem_movable hts he).leading _ hmem
  obtain rfl := occurrence_eq_of_index ho' ho hindex
  exact ⟨hrole, hrel⟩

end

/-! ## A refused group is reported once -/

section

variable {options : Options} {source : List Char}

/-- The first member of a refused group, where the group is reported. -/
theorem exists_first_of_refused {refused : RefusedGroup}
    (h : refused ∈ refusedGroups options (tokens source)) :
    ∃ first ∈ refused.group.members, (∀ i ∈ refused.group.members, first ≤ i) ∧
      (refused.diagnostic (tokens source)).offset = offsetAt (tokens source) first := by
  have hleads := leads_of_mem_groups (tokens_terminated source) (mem_refusedGroups_iff.1 h).1
  have hasc := hleads.ascending
  obtain ⟨first, rest, hmembers⟩ := List.exists_cons_of_ne_nil hleads.nonempty
  rw [hmembers, List.pairwise_cons] at hasc
  refine ⟨first, by simp [hmembers], ?_,
    by simp [RefusedGroup.diagnostic, Diagnostic.warning, hmembers]⟩
  intro i hi
  rw [hmembers] at hi
  rcases List.mem_cons.1 hi with rfl | hi
  · exact Nat.le_refl _
  · exact Nat.le_of_lt (hasc.1 i hi)

theorem exists_keyword_of_refused {refused : RefusedGroup} {i : Nat}
    (h : refused ∈ refusedGroups options (tokens source)) (hi : i ∈ refused.group.members) :
    ∃ t, (tokens source)[i]? = some t ∧ t.kind = .keyword := by
  have hleads := leads_of_mem_groups (tokens_terminated source) (mem_refusedGroups_iff.1 h).1
  obtain ⟨-, t, q, ht, hq⟩ := hleads.member i hi
  exact ⟨t, ht, Token.kind_of_qualifier hq⟩

theorem refusedGroups_sublist (options : Options) (tokens : List Token) :
    ((refusedGroups options tokens).map (·.group)).Sublist (groups options tokens) := by
  unfold refusedGroups
  rw [List.map_filterMap]
  induction groups options tokens with
  | nil => exact List.Sublist.refl _
  | cons g gs ih =>
    cases hext : g.extent options tokens with
    | ok extent =>
      rw [List.filterMap_cons_none (by simp [hext])]
      exact ih.cons g
    | error refusal =>
      rw [List.filterMap_cons_some (b := g) (by simp [hext])]
      exact ih.cons_cons g

/-- Refused groups are reported in the order of the source. -/
theorem refusedGroups_pairwise (options : Options) (source : List Char) :
    (refusedGroups options (tokens source)).Pairwise fun r r' =>
      (r.diagnostic (tokens source)).offset < (r'.diagnostic (tokens source)).offset := by
  have hts := tokens_terminated source
  have hpair : (refusedGroups options (tokens source)).Pairwise fun r r' =>
      ∀ i ∈ r'.group.members, r.group.typeStart ≤ i :=
    List.pairwise_map.1 ((groups_pairwise hts).sublist
      (refusedGroups_sublist options (tokens source)))
  refine hpair.imp_of_mem ?_
  intro r r' hr hr' hle
  obtain ⟨first, hfirst, -, hoffset⟩ := exists_first_of_refused hr
  obtain ⟨first', hfirst', -, hoffset'⟩ := exists_first_of_refused hr'
  have hlt := ((leads_of_mem_groups hts (mem_refusedGroups_iff.1 hr).1).member _ hfirst).1
  obtain ⟨t, ht, -⟩ := exists_keyword_of_refused hr' hfirst'
  rw [hoffset, hoffset']
  apply offsetAt_lt
  · exact Nat.lt_of_lt_of_le hlt (hle _ hfirst')
  · exact (List.getElem?_eq_some_iff.1 ht).1

/-- Of all diagnostics, only that of a refused group is at its offset. -/
theorem filter_diagnostics {refused : RefusedGroup}
    (h : refused ∈ refusedGroups options (tokens source)) :
    (diagnostics options source).filter (·.offset == (refused.diagnostic (tokens source)).offset) =
      [refused.diagnostic (tokens source)] := by
  obtain ⟨first, hfirst, -, hoffset⟩ := exists_first_of_refused h
  obtain ⟨t, ht, hk⟩ := exists_keyword_of_refused h hfirst
  have hlexical : (lexicalDiagnostics source).filter
      (·.offset == (refused.diagnostic (tokens source)).offset) = [] := by
    apply List.filter_eq_nil_iff.2
    intro d hd
    simpa [hoffset] using offset_ne_of_keyword hd ht hk
  have hrefused : ((refusedGroups options (tokens source)).map
      (·.diagnostic (tokens source))).filter
      (·.offset == (refused.diagnostic (tokens source)).offset) =
      [refused.diagnostic (tokens source)] := by
    rw [List.filter_map]
    exact congrArg _ (Plan.filter_key_eq (refusedGroups_pairwise options source) h)
  have hperm := (Diagnostic.merge_perm (lexicalDiagnostics source)
    ((refusedGroups options (tokens source)).map (·.diagnostic (tokens source)))).filter
      (·.offset == (refused.diagnostic (tokens source)).offset)
  rw [List.filter_append, hlexical, hrefused] at hperm
  exact List.perm_singleton.1 hperm

/-- Whether the plan of a source and its refused groups account for its leading qualifiers. -/
structure Accounts (options : Options) (source : List Char) : Prop where
  /-- One move takes a leading qualifier away, or one refused group has it. -/
  once : ∀ o ∈ occurrences options (tokens source),
    o.role = .leading → options.relocates o.qualifier = true →
    (planOf options source).moves.countP (·.index == o.index) = 1 ∧
        (refusedGroups options (tokens source)).countP (·.group.members.contains o.index) = 0 ∨
      (planOf options source).moves.countP (·.index == o.index) = 0 ∧
        (refusedGroups options (tokens source)).countP (·.group.members.contains o.index) = 1
  /-- A group moves as a whole or is refused as a whole. -/
  whole : ∀ g ∈ groups options (tokens source),
    (∀ i ∈ g.members, (planOf options source).removes i = true) ∧
        (∀ refused ∈ refusedGroups options (tokens source), refused.group ≠ g) ∨
      (∀ i ∈ g.members, (planOf options source).removes i = false) ∧
        ∃ refused ∈ refusedGroups options (tokens source), refused.group = g
  /-- A refused group has one diagnostic, where its first leading qualifier that is to be moved
  starts. -/
  reported : ∀ refused ∈ refusedGroups options (tokens source),
    refused.group ∈ groups options (tokens source) ∧
      ∃ first ∈ refused.group.members, (∀ i ∈ refused.group.members, first ≤ i) ∧
        (∃ o ∈ occurrences options (tokens source), o.index = first ∧ o.role = .leading ∧
          options.relocates o.qualifier = true) ∧
        (diagnostics options source).filter (·.offset == offsetAt (tokens source) first) =
          [refused.diagnostic (tokens source)]
  /-- What a move takes away is an occurrence. -/
  taken : ∀ m ∈ (planOf options source).moves, ∃ o ∈ occurrences options (tokens source),
    o.index = m.index ∧ o.qualifier = m.qualifier
  /-- What does not lead, or is not to be moved, stays. -/
  kept : ∀ o ∈ occurrences options (tokens source),
    o.role ≠ .leading ∨ options.relocates o.qualifier = false →
    (planOf options source).moves.countP (·.index == o.index) = 0

/-- Every leading qualifier that is to be moved is moved once or refused once, together with its
group, and no other qualifier is moved. -/
theorem leading_accounted_once (options : Options) (source : List Char) :
    Accounts options source := by
  have hts := tokens_terminated source
  refine ⟨?_, ?_, ?_, ?_, ?_⟩
  · intro o ho hrole hrel
    have hsum := countP_moves_add_refused options hts o.index
    rw [if_pos (mem_leadingIndices.2 ⟨o, ho, hrole, hrel, rfl⟩)] at hsum
    rw [planOf]
    omega
  · intro g hg
    cases hext : g.extent options (tokens source) with
    | ok extent =>
      refine .inl ⟨fun i hi => ?_, fun refused h heq => ?_⟩
      · exact (Plan.ofTokens_removes_iff hts).2 ⟨_, mem_movable_iff.2 ⟨hg, extent, hext, rfl⟩, hi⟩
      · have herror := (mem_refusedGroups_iff.1 h).2
        rw [heq, hext] at herror
        cases herror
    | error refusal =>
      have hrefused : ⟨g, refusal⟩ ∈ refusedGroups options (tokens source) :=
        mem_refusedGroups_iff.2 ⟨hg, hext⟩
      exact .inr ⟨fun i hi => removes_of_refused hts hrefused hi, _, hrefused, rfl⟩
  · intro refused h
    have hg := (mem_refusedGroups_iff.1 h).1
    obtain ⟨first, hfirst, hleast, hoffset⟩ := exists_first_of_refused h
    obtain ⟨o, ho, hindex, hrole, -, hrel⟩ := (leads_of_mem_groups hts hg).leading first hfirst
    refine ⟨hg, first, hfirst, hleast, ⟨o, ho, hindex, hrole, hrel⟩, ?_⟩
    rw [← hoffset]
    exact filter_diagnostics h
  · intro m hm
    obtain ⟨e, -, hmoves, hmem, -, hq⟩ := exists_group_of_move hm
    obtain ⟨o, ho, hindex, -⟩ := hmoves.leading _ hmem
    obtain ⟨⟨t, ht, hqt⟩, -⟩ := mem_occurrences_index hts ho
    refine ⟨o, ho, hindex, ?_⟩
    rw [← hindex, ht, Option.bind_some, hqt] at hq
    exact Option.some.inj hq
  · intro o ho hnot
    have hsum := countP_moves_add_refused options hts o.index
    rw [if_neg] at hsum
    · rw [planOf]
      omega
    · intro hmem
      obtain ⟨o', ho', hrole, hrel, hindex⟩ := mem_leadingIndices.1 hmem
      obtain rfl := occurrence_eq_of_index ho' ho hindex
      rcases hnot with hnot | hnot
      · exact hnot hrole
      · rw [hrel] at hnot
        cases hnot

end

/-- A qualifier without a type is refused next to one that moves. -/
theorem leading_accounted_in_call :
    ⟨8, .const, .leading, 11⟩ ∈ occurrences {} (tokens "const int x;f(const);".toList) ∧
      (planOf {} "const int x;f(const);".toList).moves = [⟨0, 2, .const⟩] ∧
      (refusedGroups {} (tokens "const int x;f(const);".toList)).countP
        (·.group.members.contains 8) = 1 := by
  have hoccurrence : ⟨8, .const, .leading, 11⟩ ∈
      occurrences {} (tokens "const int x;f(const);".toList) := by decide +kernel
  have hmoves : (planOf {} "const int x;f(const);".toList).moves = [⟨0, 2, .const⟩] := by
    decide +kernel
  refine ⟨hoccurrence, hmoves, ?_⟩
  rcases (leading_accounted_once {} "const int x;f(const);".toList).once _ hoccurrence rfl rfl with
    ⟨hmoved, -⟩ | ⟨-, hrefused⟩
  · rw [hmoves] at hmoved
    cases hmoved
  · exact hrefused

end EastConst
