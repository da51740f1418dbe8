import EastConst.Proofs.Change
import EastConst.Proofs.Plan.Following
import EastConst.Proofs.Plan.Staying

/-!
# Relocating again

A plan that moves something changes the text. So a relocation is left as it is by a second one
exactly if the second plan moves nothing. That is so if the moves of the first one settle
(`moves_eq_nil_of_settles`): what leads in the output is in a group that has been refused, and what
its type is read from respects the refusal.
-/

namespace EastConst

open TypeExtent

section

variable {options : Options} {source : List Char}

/-! ## What a type is read from -/

/-- The tokens behind a qualifier that its type can reach. -/
def stretch (options : Options) (source : List Char) (i : Nat) : List Token :=
  if (readerAt options source i).isOutside then tokensFrom source (i + 1)
  else (tokensFrom source (i + 1)).takeWhile (!·.endsLine)

theorem exists_drop_eq_stretch (options : Options) {i : Nat}
    (hi : i < (beforeEnd (tokens source)).length) :
    ∃ rest, (tokens source).drop (i + 1) = stretch options source i ++ rest := by
  have hdrop : (tokens source).drop (i + 1) = tokensFrom source (i + 1) ++ [Token.endOfInput] := by
    rw [tokensFrom, ← List.drop_append_of_le_length hi, ← tokens_terminated source]
  rw [hdrop, stretch]
  split
  · exact ⟨_, rfl⟩
  · refine ⟨(tokensFrom source (i + 1)).dropWhile (!·.endsLine) ++ [Token.endOfInput], ?_⟩
    rw [← List.append_assoc, List.takeWhile_append_dropWhile]

/-- The stretch behind a qualifier ends where its type cannot reach. -/
theorem length_stretch {o : Occurrence} (ho : o ∈ occurrences options (tokens source)) :
    o.index + 1 + (stretch options source o.index).length = o.boundary := by
  obtain ⟨t, -, ht, hq, -⟩ := occurrence_iff.1 ⟨o, ho, rfl, rfl, rfl⟩
  obtain ⟨hlt, -⟩ := List.getElem?_eq_some_iff.1 ht
  rw [boundary_of_occurrence ho, stretch]
  split
  · rw [tokensFrom, List.length_drop, (tokens_terminated source).length_beforeEnd] at *
    omega
  · rw [tokensFrom_cons ht, List.takeWhile_cons_of_pos (by simp [Token.endsLine_of_qualifier hq]),
      List.length_cons]
    omega

theorem significantBetween_eq_stretch {o : Occurrence}
    (ho : o ∈ occurrences options (tokens source)) :
    significantBetween (tokens source) (o.index + 1) o.boundary =
      significantFrom o.boundary (o.index + 1) (stretch options source o.index) := by
  obtain ⟨t, -, ht, -⟩ := occurrence_iff.1 ⟨o, ho, rfl, rfl, rfl⟩
  obtain ⟨hlt, -⟩ := List.getElem?_eq_some_iff.1 ht
  obtain ⟨rest, hrest⟩ := exists_drop_eq_stretch options hlt
  rw [significantBetween, hrest, significantFrom_append (length_stretch ho)]

theorem filter_stretch {o : Occurrence} (ho : o ∈ occurrences options (tokens source)) :
    (significantBetween (tokens source) (o.index + 1) o.boundary).map Prod.fst =
      (stretch options source o.index).filter Token.isSignificant := by
  have hlen := length_stretch ho
  rw [significantBetween_eq_stretch ho, map_fst_significantFrom,
    List.take_of_length_le (by omega)]

/-- What is written for the stretch behind a qualifier. -/
theorem filter_weave_stretch {o : Occurrence} (ho : o ∈ occurrences options (tokens source)) :
    (((planOf options source).weave [] (o.index + 1) (stretch options source o.index)).map
        Prod.snd).filter Token.isSignificant =
      Requalified.new ((significantBetween (tokens source) (o.index + 1) o.boundary).map
        (planOf options source).requalify) := by
  obtain ⟨t, -, ht, -⟩ := occurrence_iff.1 ⟨o, ho, rfl, rfl, rfl⟩
  obtain ⟨hlt, -⟩ := List.getElem?_eq_some_iff.1 ht
  obtain ⟨rest, hrest⟩ := exists_drop_eq_stretch options hlt
  rw [significantBetween_eq_stretch ho]
  refine filter_weave (fun j u hu => ?_) (Nat.le_of_eq (length_stretch ho))
  rw [← List.getElem?_drop, hrest, List.getElem?_append_left (List.getElem?_eq_some_iff.1 hu).1, hu]

/-- Where the readers are at the same place, the type of a qualifier is read in the output from what
is written for the stretch behind it. -/
theorem filter_stretch_output {output : List Char} {o : Occurrence} {i : Nat}
    (ho : o ∈ occurrences options (tokens source))
    (hout : (readerAt options source o.index).isOutside = (readerAt options output i).isOutside)
    (hgaps : Token.gaps [] (tokensFrom output (i + 1)) =
      (planOf options source).weave [] (o.index + 1) (tokensFrom source (o.index + 1))) :
    (stretch options output i).filter Token.isSignificant =
      Requalified.new ((significantBetween (tokens source) (o.index + 1) o.boundary).map
        (planOf options source).requalify) := by
  have hfilter (ts : List Token) :
      (ts.filter (·.kind != .whitespace)).filter Token.isSignificant =
        ts.filter Token.isSignificant := by
    rw [List.filter_filter]
    refine List.filter_congr fun t _ => ?_
    cases hk : t.kind <;> simp [Token.isSignificant, Token.isTrivia, hk]
  obtain ⟨t, w, ht, hq, hhere, -⟩ := occurrence_iff.1 ⟨o, ho, rfl, rfl, rfl⟩
  rw [← filter_weave_stretch ho, stretch, stretch, ← hout]
  cases hcase : (readerAt options source o.index).isOutside with
  | true =>
    rw [if_pos rfl, if_pos rfl, ← hgaps, Token.map_snd_gaps, hfilter]
  | false =>
    have hin : (readerAt options source (o.index + 1)).isOutside = false := by
      rw [readerAt_succ ht]
      exact Reader.isOutside_read options hcase (Token.endsLine_of_qualifier hq)
    have hspaces : Token.SpacesApart (tokensFrom output (i + 1)) := by
      have h := spacesApart output
      rw [← List.take_append_drop (i + 1) (beforeEnd (tokens output))] at h
      exact h.of_append
    rw [if_neg (by simp), if_neg (by simp), ← takeWhile_weave hin rfl fun _ => joins_nil _, ← hgaps,
      Token.takeWhile_gaps hspaces (joins_nil _) rfl, hfilter]

/-! ## What leads in to a type -/

theorem Group.Leads.forall_isLeadIn {ts : List Token} {g : Group} (h : g.Leads options ts) {m : Nat}
    (hm : m ∈ g.members) :
    ∀ t ∈ (significantBetween ts (m + 1) g.typeStart).map Prod.fst, t.isLeadIn options = true := by
  intro t ht
  obtain ⟨⟨t, i⟩, hi, rfl⟩ := List.mem_map.1 ht
  obtain ⟨hle, hlt, ht, -⟩ := mem_significantBetween hi
  exact h.isLeadIn hm (by omega) hlt ht

/-- The type of a group is read from behind what leads in to it. -/
theorem dropWhile_stretch {ts : List Token} (hts : Terminated ts) {g : Group}
    (h : g ∈ groups options ts) {m : Nat} (hm : m ∈ g.members) :
    ((significantBetween ts (m + 1) g.boundary).map Prod.fst).dropWhile (Token.isLeadIn options) =
      (significantBetween ts g.typeStart g.boundary).map Prod.fst := by
  have hleads := leads_of_mem_groups hts h
  rw [significantBetween_append (hleads.member m hm).1 (Group.typeStart_le_boundary hts h),
    List.map_append, List.dropWhile_append_of_pos (hleads.forall_isLeadIn hm)]
  rcases Nat.lt_or_ge g.typeStart g.boundary with hlt | hge
  · obtain ⟨t, ht, hnot, hsig⟩ := hleads.exists_type hts hlt
    rw [significantBetween_cons ht hsig hlt, List.map_cons,
      List.dropWhile_cons_of_neg (by simp [hnot])]
  · rw [significantBetween_of_le hge]
    rfl

/-- Nothing goes and nothing comes between a refused group and its type. -/
theorem dropWhile_new {refused : RefusedGroup} (h : refused ∈ refusedGroups options (tokens source))
    {k : Nat} (hk : k ∈ refused.group.members) :
    (Requalified.new ((significantBetween (tokens source) (k + 1) refused.group.boundary).map
        (planOf options source).requalify)).dropWhile (Token.isLeadIn options) =
      Requalified.new ((significantBetween (tokens source) refused.group.typeStart
        refused.group.boundary).map (planOf options source).requalify) := by
  have hts := tokens_terminated source
  have hleads := RefusedGroup.leads h
  have hkept : Requalified.new ((significantBetween (tokens source) (k + 1)
        refused.group.typeStart).map (planOf options source).requalify) =
      (significantBetween (tokens source) (k + 1) refused.group.typeStart).map Prod.fst := by
    rw [Requalified.new_eq_old, old_requalify]
    intro c hc
    obtain ⟨⟨t, i⟩, hi, rfl⟩ := List.mem_map.1 hc
    obtain ⟨hle, hlt, -⟩ := mem_significantBetween hi
    refine ⟨removes_leadIn h hk (by omega) hlt, ?_⟩
    rw [Plan.requalify, filter_anchor_leadIn h hk hle hlt]
    rfl
  rw [significantBetween_append (hleads.member k hk).1
    (Group.typeStart_le_boundary hts (mem_refusedGroups_iff.1 h).1), List.map_append,
    Requalified.new_append, hkept, List.dropWhile_append_of_pos (hleads.forall_isLeadIn hk)]
  rcases Nat.lt_or_ge refused.group.typeStart refused.group.boundary with hlt | hge
  · obtain ⟨t, ht, hnot, hsig⟩ := hleads.exists_type hts hlt
    rw [significantBetween_cons ht hsig hlt, List.map_cons,
      Requalified.new_cons_of_kept (removes_typeStart h hlt)]
    exact List.dropWhile_cons_of_neg (Bool.eq_false_iff.1 hnot)
  · rw [significantBetween_of_le hge]
    rfl

/-- A second plan moves nothing if the moves of the first one settle. -/
theorem moves_eq_nil_of_settles (hs : Settles options source) :
    (planOf options (outFrom options source 0)).moves = [] := by
  have hevery : Reader.Every options (Reappears options source) {}
      (Token.gaps [] (beforeEnd (tokens (outFrom options source 0)))) := by
    rw [gaps_output hs.openings]
    exact Follows.every hs (i := 0) (.outside rfl rfl (fun _ => rfl) (.inl (.same _)))
      fun _ => joins_nil _
  generalize outFrom options source 0 = output at hevery
  refine List.eq_nil_iff_forall_not_mem.2 fun move hmove => ?_
  obtain ⟨⟨g, anchor⟩, he, hmoves, hm, -, -⟩ := exists_group_of_move hmove
  generalize move.index = i at hm
  obtain ⟨o', ho', rfl, hrole', hboundary', hrel⟩ := hmoves.leading i hm
  obtain ⟨t, w, ht, hq, hhere, hw⟩ := occurrence_iff.1 ⟨o', ho', rfl, rfl, rfl⟩
  obtain ⟨hlt, hget⟩ := List.getElem?_eq_some_iff.1 ht
  have hsplit : beforeEnd (tokens output) =
      (beforeEnd (tokens output)).take o'.index ++ t :: tokensFrom output (o'.index + 1) := by
    rw [← hget, tokensFrom, ← List.drop_eq_getElem_cons hlt, List.take_append_drop]
  -- the qualifier leads in the source, too
  obtain ⟨k, hk, hkept, hherek, houtside, hgaps⟩ :=
    hevery.of_gaps (spacesApart output) (joins_nil _) hsplit
    (by simp [Token.kind_of_qualifier hq]) _ w hq hrel hhere (hw.trans hrole')
  obtain ⟨o, ho, rfl, hqo, hrole⟩ := occurrence_iff.2 ⟨t, w, hk, hq, hherek, hw.trans hrole'⟩
  -- and its group is refused
  obtain ⟨g₀, hg₀, hmem⟩ := exists_group_of_leading (tokens_terminated source) ho hrole (hqo ▸ hrel)
  cases hextent : g₀.extent options (tokens source) with
  | ok extent =>
    have hr := removes_of_mem_movable (mem_movable_iff.2 ⟨hg₀, extent, hextent, rfl⟩) hmem
    rw [hkept] at hr
    cases hr
  | error refusal =>
    have hrefused : (⟨g₀, refusal⟩ : RefusedGroup) ∈ refusedGroups options (tokens source) :=
      mem_refusedGroups_iff.2 ⟨hg₀, hextent⟩
    obtain ⟨o₀, ho₀, hindex, -, hboundary, -⟩ := (RefusedGroup.leads hrefused).leading o.index hmem
    rw [occurrence_eq_of_index ho₀ ho hindex] at hboundary
    have hstretch : (significantBetween (tokens output) g.typeStart g.boundary).map Prod.fst =
        Requalified.new ((significantBetween (tokens source) g₀.typeStart g₀.boundary).map
          (planOf options source).requalify) := by
      rw [← dropWhile_stretch (tokens_terminated output) (mem_movable_iff.1 he).1 hm, ← hboundary',
        filter_stretch ho', filter_stretch_output ho houtside hgaps, hboundary,
        dropWhile_new hrefused hmem]
    -- with what moves around it, its type has no extent either
    obtain ⟨-, extent, hext, -⟩ := mem_movable_iff.1 he
    have hnew := exists_scan_iff.1 ⟨extent, hext⟩
    rw [hstretch] at hnew
    have hold := Requalified.hasExtent_old (respects_of_refused hrefused) hnew
    rw [old_requalify] at hold
    obtain ⟨extent₀, hscan⟩ := exists_scan_iff.2 hold
    rw [Group.extent, find, hscan] at hextent
    cases hextent

/-- A relocation is left as it is by a second one exactly if the second plan moves nothing, and that
is so if the moves of the first one settle. -/
theorem relocate_relocated_iff {r : Relocated} (hrel : relocate options source = .ok r) :
    ((∃ found, relocate options r.output = .ok ⟨r.output, found⟩) ↔
      (planOf options r.output).moves = []) ∧
    (Settles options source → ∃ found, relocate options r.output = .ok ⟨r.output, found⟩) := by
  refine ⟨⟨?_, ?_⟩, ?_⟩
  · rintro ⟨found, h⟩
    exact moves_eq_nil_of_output (output_of_relocate h).symm
  · intro h
    exact ⟨_, relocate_of_moves_eq_nil h⟩
  · intro hs
    have h := moves_eq_nil_of_settles hs
    rw [← output_of_relocate hrel] at h
    exact ⟨_, relocate_of_moves_eq_nil h⟩

end

/-- Qualifiers move in a directive and in template arguments, and one stays for want of a type. -/
theorem relocate_relocated_nested :
    ∃ r, relocate {} "#define M const int\nconst A<const int> x = f(const);".toList = .ok r ∧
      r.output = "#define M int const\nA<int const> const x = f(const);".toList ∧
      ∃ found, relocate {} r.output = .ok ⟨r.output, found⟩ := by
  have hfacts :
      (relocate {} "#define M const int\nconst A<const int> x = f(const);".toList).toOption.map
          Relocated.output = some "#define M int const\nA<int const> const x = f(const);".toList ∧
        (∀ m ∈ (planOf {} "#define M const int\nconst A<const int> x = f(const);".toList).moves,
          (readerAt {} "#define M const int\nconst A<const int> x = f(const);".toList
              (m.anchor + 1)).unsettles = false ∧
            joinsNext {} "#define M const int\nconst A<const int> x = f(const);".toList m.anchor =
              false) ∧
        ∀ d ∈ lexicalDiagnostics "#define M const int\nconst A<const int> x = f(const);".toList,
          d.code ≠ some "unterminated-raw-string" := by
    decide +kernel
  obtain ⟨hout, hplaced, hclosed⟩ := hfacts
  obtain ⟨r, hrel, hr⟩ := exists_relocated hout
  exact ⟨r, hrel, hr, (relocate_relocated_iff hrel).2
    ⟨fun m hm => (hplaced m hm).1, fun m hm => (hplaced m hm).2, keepsOpening_of_closed hclosed⟩⟩

/-- A qualifier that comes between a parenthesis and an arrow takes the arrow for a member access,
and the qualifiers after it lead again. -/
theorem relocate_relocated_arrow :
    ∃ r r', relocate {} "const decltype(x) -> A<const int> y;".toList = .ok r ∧
      relocate {} r.output = .ok r' ∧ r'.output ≠ r.output := by
  have hfirst :
      (relocate {} "const decltype(x) -> A<const int> y;".toList).toOption.map Relocated.output =
        some "decltype(x) const -> A<const int> y;".toList := by decide +kernel
  have hsecond :
      (relocate {} "decltype(x) const -> A<const int> y;".toList).toOption.map Relocated.output =
        some "decltype(x) const -> A<int const> y;".toList := by decide +kernel
  obtain ⟨r, hrel, hout⟩ := exists_relocated hfirst
  obtain ⟨r', hrel', hout'⟩ := exists_relocated hsecond
  refine ⟨r, r', hrel, by rw [hout, hrel'], ?_⟩
  rw [hout, hout']
  decide

end EastConst
