import EastConst.Proofs.Occurrence.Complete
import EastConst.Proofs.Plan.Accounting
import EastConst.Proofs.Plan.Rewalking
import EastConst.Proofs.TypeExtent.Requalified

/-!
# Groups that stay

What moves around a refused group does not get in the way of its type. Between its qualifiers and
the type nothing goes and nothing comes (`removes_leadIn`, `filter_anchor_leadIn`). From the type
on, what goes and what comes respects the type (`respects_of_refused`): a type that ends together
with another one, or inside it, starts together with it or inside it. So a group that has been
refused is refused again.
-/

namespace EastConst

open TypeExtent

/-! ## The tokens of a stretch after the moves -/

section

variable {options : Options} {source : List Char} {plan : Plan} {gap gap' : List Char}
  {i j stop : Nat} {t : Token} {ts : List Token}

/-- What a plan makes of a significant token. -/
def Plan.requalify (plan : Plan) (e : Token × Nat) : Requalified :=
  ⟨e.1, plan.removes e.2,
    (plan.moves.filter (·.anchor == e.2)).map fun m => ⟨.keyword, m.qualifier.text⟩⟩

/-- Before the moves, a stretch has the tokens that it has. -/
theorem old_requalify (plan : Plan) (sig : List (Token × Nat)) :
    Requalified.old (sig.map plan.requalify) = sig.map Prod.fst := by
  rw [Requalified.old, List.map_map]
  rfl

theorem significantFrom_append {index : Nat} {ts' : List Token} (h : index + ts.length = stop) :
    significantFrom stop index (ts ++ ts') = significantFrom stop index ts := by
  induction ts generalizing index with
  | nil =>
    obtain rfl : index = stop := h
    cases ts' with
    | nil => rfl
    | cons t ts' => exact if_pos (Nat.le_refl _)
  | cons t ts ih =>
    have h' : index + 1 + ts.length = stop := by simpa [Nat.add_assoc, Nat.add_comm 1] using h
    rw [List.cons_append, significantFrom, significantFrom, ih h']

/-- A token of a stretch after the moves, with what is before it and after it. -/
theorem exists_of_map_requalify {start : Nat} {pre post : List Requalified} {c : Requalified}
    (h : (significantBetween ts start stop).map plan.requalify = pre ++ c :: post) :
    ∃ t j, c = plan.requalify (t, j) ∧ pre = (significantBetween ts start j).map plan.requalify ∧
      post = (significantBetween ts (j + 1) stop).map plan.requalify ∧ start ≤ j ∧ j < stop ∧
      ts[j]? = some t ∧ t.isSignificant = true := by
  obtain ⟨init, rest, hsig, rfl, hrest⟩ := List.map_eq_append_iff.1 h
  obtain ⟨⟨t, j⟩, rest, rfl, rfl, rfl⟩ := List.map_eq_cons_iff.1 hrest
  obtain ⟨hinit, hrest⟩ := significantBetween_eq_append hsig
  have hmem : (t, j) ∈ significantBetween ts start stop := by
    rw [hsig]
    exact List.mem_append_right _ List.mem_cons_self
  exact ⟨t, j, rfl, by rw [hinit], by rw [hrest], mem_significantBetween hmem⟩

/-- The significant tokens that are written for a stretch of the source. -/
theorem filter_weave (hts : ∀ j t, ts[j]? = some t → (tokens source)[i + j]? = some t)
    (hstop : i + ts.length ≤ stop) :
    (((planOf options source).weave gap i ts).map Prod.snd).filter Token.isSignificant =
      Requalified.new ((significantFrom stop i ts).map (planOf options source).requalify) := by
  induction ts generalizing gap i with
  | nil => rfl
  | cons t ts ih =>
    have ht : (tokens source)[i]? = some t := hts 0 t rfl
    rw [List.length_cons] at hstop
    have hrest (gap : List Char) :
        (((planOf options source).weave gap (i + 1) ts).map Prod.snd).filter Token.isSignificant =
          Requalified.new ((significantFrom stop (i + 1) ts).map
            (planOf options source).requalify) :=
      ih (fun j u hu => by rw [Nat.add_assoc, Nat.add_comm 1]; exact hts (j + 1) u hu) (by omega)
    rw [Plan.weave, significantFrom, if_neg (by omega : ¬ stop ≤ i)]
    cases hsig : t.isSignificant with
    | false =>
      have hends := endsType_of_isSignificant hsig
      rw [if_neg Bool.false_ne_true]
      split
      · exact hrest _
      · rw [filter_anchor_eq_nil ht hends, List.map_nil, List.singleton_append, List.map_cons,
          List.filter_cons_of_neg (by simp [hsig]), hrest]
    | true =>
      have hk : t.kind ≠ .whitespace := fun hk => by
        simp [Token.isSignificant, Token.isTrivia, hk] at hsig
      rw [if_pos rfl, List.map_cons, Requalified.new_cons]
      cases hr : (planOf options source).removes i with
      | true =>
        have hnone : (planOf options source).moves.filter (·.anchor == i) = [] :=
          filter_anchor_eq_nil ht (kind_of_removes hr ht).2
        rw [if_pos (.inl rfl), hrest, Plan.requalify, Requalified.result]
        simp [hr, hnone]
      | false =>
        have hcome (ms : List Move) :
            (ms.map fun m => (⟨.keyword, m.qualifier.text⟩ : Token)).filter Token.isSignificant =
              ms.map fun m => ⟨.keyword, m.qualifier.text⟩ := by
          refine List.filter_eq_self.2 fun u hu => ?_
          obtain ⟨m, -, rfl⟩ := List.mem_map.1 hu
          rfl
        rw [if_neg (by simp [hk]), Plan.requalify, Requalified.result, List.cons_append,
          List.map_cons, List.map_append, List.map_map, List.filter_cons_of_pos hsig,
          List.filter_append, hrest, if_neg (by simp [hr])]
        exact congrArg (t :: · ++ _) (hcome _)

end

/-! ## Around a refused group -/

section

variable {options : Options} {source : List Char} {refused : RefusedGroup} {e : Group × Nat}
  {j k m last : Nat} {t : Token} {q : Qualifier}

/-- A refused group leads in to its type like any other. -/
theorem RefusedGroup.leads (h : refused ∈ refusedGroups options (tokens source)) :
    refused.group.Leads options (tokens source) :=
  leads_of_mem_groups (tokens_terminated source) (mem_refusedGroups_iff.1 h).1

theorem removes_of_mem_movable (he : e ∈ movable options (tokens source)) (hm : m ∈ e.1.members) :
    (planOf options source).removes m = true :=
  (Plan.ofTokens_removes_iff (tokens_terminated source)).2 ⟨e, he, hm⟩

/-- No qualifier goes between a refused group and its type. -/
theorem removes_leadIn (h : refused ∈ refusedGroups options (tokens source))
    (hk : k ∈ refused.group.members) (hle : k ≤ j) (hlt : j < refused.group.typeStart) :
    (planOf options source).removes j = false := by
  refine Bool.eq_false_iff.2 fun hr => ?_
  obtain ⟨e, -, hmem, hmoves⟩ := exists_group_of_removes hr
  obtain ⟨o, ho, rfl, hrole, -, hrel⟩ := hmoves.leading j hmem
  have hmem' := (RefusedGroup.leads h).complete k hk o ho hle hlt hrole hrel
  rw [planOf, removes_of_refused (tokens_terminated source) h hmem'] at hr
  cases hr

/-- A group that moves, and starts before a refused one, has met its type before it. -/
theorem typeStart_le_of_refused (h : refused ∈ refusedGroups options (tokens source))
    (hk : k ∈ refused.group.members) (he : e ∈ movable options (tokens source))
    (hm : m ∈ e.1.members) (hlt : m < k) : e.1.typeStart ≤ k := by
  refine Nat.le_of_not_lt fun hlt' => ?_
  obtain ⟨o, ho, rfl, hrole, -, hrel⟩ := (RefusedGroup.leads h).leading k hk
  have hmoves := mem_movable (tokens_terminated source) he
  have hmem := hmoves.complete m hm o ho (Nat.le_of_lt hlt) hlt' hrole hrel
  have hr := removes_of_mem_movable he hmem
  rw [planOf, removes_of_refused (tokens_terminated source) h hk] at hr
  cases hr

/-- The members of a group that moves stand before a refused one or from its type on. -/
theorem lt_or_typeStart_le (h : refused ∈ refusedGroups options (tokens source))
    (hk : k ∈ refused.group.members) (he : e ∈ movable options (tokens source))
    (hm : m ∈ e.1.members) : m < k ∨ refused.group.typeStart ≤ m := by
  refine Decidable.byContradiction fun hnot => ?_
  have hr := removes_leadIn h hk (j := m) (by omega) (by omega)
  rw [removes_of_mem_movable he hm] at hr
  cases hr

theorem mark?_leadIn (h : refused ∈ refusedGroups options (tokens source))
    (hk : k ∈ refused.group.members) (hle : k < j) (hlt : j < refused.group.typeStart)
    (ht : (tokens source)[j]? = some t) : t.mark? = none :=
  Token.mark?_of_isLeadIn ((RefusedGroup.leads h).isLeadIn hk (Nat.le_of_lt hle) hlt ht)

/-- No qualifier comes between a refused group and its type. -/
theorem filter_anchor_leadIn (h : refused ∈ refusedGroups options (tokens source))
    (hk : k ∈ refused.group.members) (hle : k < j) (hlt : j < refused.group.typeStart) :
    (planOf options source).moves.filter (·.anchor == j) = [] := by
  refine List.filter_eq_nil_iff.2 fun move hmove ha => ?_
  obtain ⟨e, he, hmoves, hm, hanchor, -⟩ := exists_group_of_move hmove
  rw [beq_iff_eq, hanchor] at ha
  have hstart := (hmoves.member _ hm).1
  have hle' := hmoves.anchored.1
  obtain ⟨hk', t, q, ht, hq⟩ := (RefusedGroup.leads h).member k hk
  rcases lt_or_typeStart_le h hk he hm with hmk | hge
  · -- the bracket that the qualifier would stand in is not closed before the type
    have hs := typeStart_le_of_refused h hk he hm hmk
    have hphrase := phrase_of_mem_movable he
    rw [significantBetween_append hs (by omega), significantBetween_cons ht
      (Walk.isSignificant_of_qualifier hq) (by omega), List.map_append, List.map_cons] at hphrase
    obtain ⟨o, -, hclosed⟩ := hphrase.exists_rest?_of_qualifier hq
    have hplain : ∀ u ∈ (significantBetween (tokens source) (k + 1) (e.2 + 1)).map Prod.fst,
        u.mark? = none := by
      intro u hu
      obtain ⟨⟨u, n⟩, hn, rfl⟩ := List.mem_map.1 hu
      obtain ⟨hkn, hn, hu, -⟩ := mem_significantBetween hn
      exact mark?_leadIn h hk hkn (by omega) hu
    have hnone := Enclosure.rest?_append_of_plain o hplain []
    rw [List.append_nil] at hnone
    rw [hnone] at hclosed
    cases hclosed
  · omega

/-- A group that moves, and stands in what a refused group leads in to, has its anchor there. -/
theorem anchor_lt_of_phrase
    (hphrase : Phrase ((significantBetween (tokens source) refused.group.typeStart (last + 1)).map
      Prod.fst))
    (he : e ∈ movable options (tokens source)) (hm : m ∈ e.1.members)
    (hstart : refused.group.typeStart ≤ m) (hle : m ≤ last) : e.2 < last := by
  have hmoves := mem_movable (tokens_terminated source) he
  obtain ⟨hlt, t, q, ht, hq⟩ := hmoves.member m hm
  exact last_lt_of_inside hphrase (phrase_of_mem_movable he) ht hq hstart hle hlt hmoves.anchored.1
    fun n u hn hn' hu => Token.mark?_of_isLeadIn (hmoves.isLeadIn hm (Nat.le_of_lt hn) hn' hu)

/-- A type that a refused group leads in to does not end at an anchor. -/
theorem anchor_ne_of_phrase (h : refused ∈ refusedGroups options (tokens source))
    (hphrase : Phrase ((significantBetween (tokens source) refused.group.typeStart (last + 1)).map
      Prod.fst))
    (he : e ∈ movable options (tokens source)) (hle : refused.group.typeStart ≤ last) :
    e.2 ≠ last := by
  rintro rfl
  have hmoves := mem_movable (tokens_terminated source) he
  obtain ⟨m, hm⟩ := List.exists_mem_of_ne_nil _ hmoves.nonempty
  obtain ⟨k, hk⟩ := List.exists_mem_of_ne_nil _ (RefusedGroup.leads h).nonempty
  have hstart := (hmoves.member m hm).1
  have hanchor := hmoves.anchored.1
  obtain ⟨hk', t, q, ht, hq⟩ := (RefusedGroup.leads h).member k hk
  rcases lt_or_typeStart_le h hk he hm with hmk | hge
  · have hs := typeStart_le_of_refused h hk he hm hmk
    have hlt := last_lt_of_inside (phrase_of_mem_movable he) hphrase ht hq hs (by omega) hk' hle
      fun n u hn hn' hu => mark?_leadIn h hk hn hn' hu
    exact Nat.lt_irrefl _ hlt
  · exact Nat.lt_irrefl _ (anchor_lt_of_phrase hphrase he hm hge (by omega))

/-! ## Before the first name of a type -/

/-- Behind a token that announces a name, no qualifier leads. -/
theorem Walk.preceding_of_opensName {options : Options} {w : Walk} {t : Token}
    (h : opensName t = true) : (w.step options t).preceding = .other := by
  have hq := ofToken?_of_opensName h
  cases hscope : t.isMark .scope with
  | true =>
    have hmark : t.mark? = some .scope := beq_iff_eq.1 hscope
    have hk : t.kind = .punctuation := by
      apply Decidable.byContradiction
      intro hk
      simp [Token.mark?, hk] at hmark
    rw [step_of_punctuation hk, hmark, punctuate]
  | false =>
    obtain ⟨hk, -, hafter, -⟩ := word_of_opensName h hscope
    have hsig : t.isSignificant = true := by simp [Token.isSignificant, Token.isTrivia, hk]
    rw [step_of_not_qualifier hsig hq, advance, hk]
    exact hafter

theorem isMark_of_opensName {m : Mark} (h : opensName t = true) (hm : m ≠ .scope) :
    t.isMark m = false := by
  refine Bool.eq_false_iff.2 fun hmark => ?_
  rw [Token.isMark, beq_iff_eq] at hmark
  have hk : t.kind = .punctuation := by
    apply Decidable.byContradiction
    intro hk
    simp [Token.mark?, hk] at hmark
  simp [opensName, Token.isMark, hmark, hk, hm] at h

/-- The type of a refused group starts with a token that stays. -/
theorem removes_typeStart (h : refused ∈ refusedGroups options (tokens source))
    (hlt : refused.group.typeStart < refused.group.boundary) :
    (planOf options source).removes refused.group.typeStart = false := by
  refine Bool.eq_false_iff.2 fun hr => ?_
  obtain ⟨t, ht, hlead⟩ := (RefusedGroup.leads h).maximal hlt
  obtain ⟨e, -, hmem, hmoves⟩ := exists_group_of_removes hr
  obtain ⟨-, u, q, hu, hq⟩ := hmoves.member _ hmem
  obtain rfl := Option.some.inj (ht.symm.trans hu)
  simp [Token.isLeadIn, hq] at hlead

/-- Before the first name of the type of a refused group, no directive starts. -/
theorem isMark_hash_of_opensName (h : refused ∈ refusedGroups options (tokens source))
    (hk : k ∈ refused.group.members)
    (hopens : ∀ t ∈ (significantBetween (tokens source) refused.group.typeStart j).map Prod.fst,
      opensName t = true)
    (hkm : k < m) (hmj : m < j) (ht : (tokens source)[m]? = some t) : t.isMark .hash = false := by
  rcases Nat.lt_or_ge m refused.group.typeStart with hlead | hge
  · exact Token.isMark_of_isLeadIn
      ((RefusedGroup.leads h).isLeadIn hk (Nat.le_of_lt hkm) hlead ht) _
  · cases hsig : t.isSignificant with
    | true =>
      have hmem := List.mem_map_of_mem (f := Prod.fst)
        (mem_significantBetween_of_lt hge hmj ht hsig)
      exact isMark_of_opensName (hopens t hmem) (by decide)
    | false =>
      cases hkind : t.kind <;>
        simp [Token.isMark, Token.mark?, Token.isSignificant, Token.isTrivia, hkind] at hsig ⊢

/-- The step lemma before the first name of the type of a refused group: from the type on no
qualifier leads. -/
theorem preceding_step_of_opensName (h : refused ∈ refusedGroups options (tokens source))
    (hopens : ∀ t ∈ (significantBetween (tokens source) refused.group.typeStart j).map Prod.fst,
      opensName t = true)
    (hlt : m < j) (hbound : m < refused.group.boundary) (ht : (tokens source)[m]? = some t)
    {w : Walk} (hw : refused.group.typeStart < m → w.preceding = .other)
    (hle : refused.group.typeStart < m + 1) : (w.step options t).preceding = .other := by
  cases hsig : t.isSignificant with
  | true =>
    have hmem := List.mem_map_of_mem (f := Prod.fst)
      (mem_significantBetween_of_lt (Nat.le_of_lt_succ hle) hlt ht hsig)
    exact Walk.preceding_of_opensName (hopens t hmem)
  | false =>
    rw [Walk.step_insignificant hsig]
    -- the type starts with a significant token, so the walk is behind its start already
    refine hw (Nat.lt_of_le_of_ne (Nat.le_of_lt_succ hle) fun heq => ?_)
    obtain ⟨u, hu, -, hsig'⟩ :=
      (RefusedGroup.leads h).exists_type (tokens_terminated source) (by omega)
    rw [heq, ht] at hu
    rw [← Option.some.inj hu, hsig] at hsig'
    cases hsig'

/-- No qualifier goes before the first name of the type of a refused group. -/
theorem exists_not_opensName (h : refused ∈ refusedGroups options (tokens source))
    (hr : (planOf options source).removes j = true) (hle : refused.group.typeStart ≤ j)
    (hlt : j < refused.group.boundary) :
    ∃ t ∈ (significantBetween (tokens source) refused.group.typeStart j).map Prod.fst,
      opensName t = false := by
  refine Decidable.byContradiction fun hnot => ?_
  have hopens : ∀ t ∈ (significantBetween (tokens source) refused.group.typeStart j).map Prod.fst,
      opensName t = true := by simpa using hnot
  have hleads := RefusedGroup.leads h
  obtain ⟨k, hk⟩ := List.exists_mem_of_ne_nil _ hleads.nonempty
  obtain ⟨hstart, -⟩ := hleads.member k hk
  obtain ⟨o, ho, rfl, -, hboundary, -⟩ := hleads.leading k hk
  have hne : refused.group.typeStart ≠ j := by
    rintro rfl
    rw [removes_typeStart h hlt] at hr
    cases hr
  obtain ⟨w, hw, -, hother⟩ := exists_holds_of_occurrence
    (p := fun n w => refused.group.typeStart < n → w.preceding = .other) ho (by omega) (by omega)
    (fun n t hn hn' => isMark_hash_of_opensName h hk hopens hn hn') (fun _ hn => by omega)
    fun n t w _ hn ht hw => preceding_step_of_opensName h hopens hn (by omega) ht hw
  obtain ⟨t, ht⟩ := exists_getElem?_beforeEnd (Nat.lt_of_lt_of_le hlt hleads.bounded)
  obtain ⟨q, w', hq, hhere, hrole⟩ := here_of_removes hr ht
  have hmark : t.isMark .hash = false := by
    simp [Token.isMark, Token.mark?, Token.kind_of_qualifier hq]
  rw [hw t hmark] at hhere
  obtain rfl := Option.some.inj hhere
  rw [Walk.role, hother (by omega), Role.decide] at hrole
  split at hrole <;> cases hrole

/-! ## As many come as go -/

/-- The moves of which a number is in a list, taken number by number. -/
theorem length_flatMap_filter (ms : List Move) (f : Move → Nat) {is : List Nat} (h : is.Nodup) :
    (is.flatMap fun i => ms.filter (f · == i)).length = ms.countP fun m => is.contains (f m) := by
  induction is with
  | nil => simp
  | cons i is ih =>
    obtain ⟨hi, his⟩ := List.nodup_cons.1 h
    rw [List.flatMap_cons, List.length_append, ih his, ← List.countP_eq_length_filter]
    clear ih h
    induction ms with
    | nil => rfl
    | cons m ms ih =>
      rw [List.countP_cons, List.countP_cons, List.countP_cons, List.contains_cons, ← ih]
      by_cases hm : f m = i
      · have hnot : is.contains (f m) = false := by simpa [hm] using hi
        simp only [hm, beq_self_eq_true, Bool.true_or, if_true] at hnot ⊢
        rw [if_neg (by simpa using hnot)]
        omega
      · have hne : (f m == i) = false := by simpa using hm
        rw [hne, Bool.false_or, if_neg (by simp)]
        omega

/-- After the moves a stretch has grown by what comes and shrunk by what goes. -/
theorem length_new_requalify (plan : Plan) (sig : List (Token × Nat)) :
    (Requalified.new (sig.map plan.requalify)).length + sig.countP (plan.removes ·.2) =
      sig.length + (sig.flatMap fun e => plan.moves.filter (·.anchor == e.2)).length := by
  induction sig with
  | nil => rfl
  | cons e sig ih =>
    have hcome : (plan.requalify e).come.length =
        (plan.moves.filter (·.anchor == e.2)).length := by
      rw [Plan.requalify, List.length_map]
    have hgone : (plan.requalify e).gone = plan.removes e.2 := rfl
    rw [List.map_cons, Requalified.new_cons, Requalified.result, List.length_append,
      List.length_append, hcome, hgone, List.countP_cons, List.length_cons, List.flatMap_cons,
      List.length_append]
    cases plan.removes e.2 with
    | true => simp only [if_true, List.length_nil]; omega
    | false => simp only [Bool.false_eq_true, if_false, List.length_singleton]; omega

theorem countP_removes_le (plan : Plan) (sig : List (Token × Nat)) :
    sig.countP (plan.removes ·.2) ≤
      (sig.flatMap fun e => plan.moves.filter (·.index == e.2)).length := by
  induction sig with
  | nil => exact Nat.le_refl 0
  | cons e sig ih =>
    rw [List.flatMap_cons, List.length_append, List.countP_cons, ← List.countP_eq_length_filter]
    split
    · rename_i hr
      have := removes_iff_countP.1 hr
      omega
    · omega

/-- Where no qualifier goes to an anchor outside a stretch, as many come as go. -/
theorem length_le_new_requalify {plan : Plan} {sig : List (Token × Nat)}
    (hsig : sig.Pairwise (·.2 < ·.2))
    (h : ∀ m ∈ plan.moves, m.index ∈ sig.map Prod.snd → m.anchor ∈ sig.map Prod.snd) :
    sig.length ≤ (Requalified.new (sig.map plan.requalify)).length := by
  have hnodup : (sig.map Prod.snd).Nodup := nodup_of_ascending (List.pairwise_map.2 hsig)
  have hgo := countP_removes_le plan sig
  have hsum := length_new_requalify plan sig
  have hindex := length_flatMap_filter plan.moves Move.index hnodup
  have hanchor := length_flatMap_filter plan.moves Move.anchor hnodup
  rw [List.flatMap_map] at hindex hanchor
  have hle : plan.moves.countP (fun m => (sig.map Prod.snd).contains m.index) ≤
      plan.moves.countP fun m => (sig.map Prod.snd).contains m.anchor := by
    refine List.countP_mono_left fun m hm hmem => ?_
    rw [List.contains_iff_mem] at hmem ⊢
    exact h m hm hmem
  omega

/-! ## What moves respects a refused type -/

/-- Of two qualifiers with the later one inside the bounds of the earlier one, the later one has no
wider bounds. -/
theorem boundary_le_of_lt {o o' : Occurrence} (ho : o ∈ occurrences options (tokens source))
    (ho' : o' ∈ occurrences options (tokens source)) (hle : o.index ≤ o'.index)
    (hlt : o'.index < o.boundary) : o'.boundary ≤ o.boundary := by
  have hts := tokens_terminated source
  rcases mem_occurrences ho with ⟨pre, post, t, hout⟩ | ⟨pre, post, front, before, after, t, hin⟩
  · rw [hout.boundary]
    exact (mem_occurrences_index hts ho').2.2
  · obtain ⟨hge, -, hboundary⟩ := hin.bounds
    have hdirective := (isDirective_of_segments hts hin.segments).1
    rw [Segment.tokens] at hboundary
    rw [← hboundary] at hdirective
    exact Nat.le_of_eq (boundary_eq_of_isDirective hts ho' hdirective (by omega) hlt)

/-- A group that moves in what a refused group can reach has its anchor there. -/
theorem anchor_lt_boundary (h : refused ∈ refusedGroups options (tokens source))
    (he : e ∈ movable options (tokens source)) (hm : m ∈ e.1.members)
    (hle : refused.group.typeStart ≤ m) (hlt : m < refused.group.boundary) :
    e.2 < refused.group.boundary := by
  have hleads := RefusedGroup.leads h
  have hmoves := mem_movable (tokens_terminated source) he
  obtain ⟨k, hk⟩ := List.exists_mem_of_ne_nil _ hleads.nonempty
  obtain ⟨o, ho, rfl, -, hboundary, -⟩ := hleads.leading k hk
  obtain ⟨o', ho', rfl, -, hboundary', -⟩ := hmoves.leading m hm
  have hstart := (hleads.member _ hk).1
  have hbound := boundary_le_of_lt ho ho' (by omega) (by omega)
  have hanchor := hmoves.anchored.2.1
  omega

theorem exists_anchor_token (he : e ∈ movable options (tokens source)) :
    ∃ t, (tokens source)[e.2]? = some t ∧ t.isSignificant = true ∧
      (planOf options source).removes e.2 = false := by
  obtain ⟨-, -, t, ht, hends⟩ := (mem_movable (tokens_terminated source) he).anchored
  refine ⟨t, ht, ?_, Bool.eq_false_iff.2 fun hr => ?_⟩
  · refine Decidable.byContradiction fun hsig => ?_
    rw [endsType_of_isSignificant (by simpa using hsig)] at hends
    cases hends
  · rw [(kind_of_removes hr ht).2] at hends
    cases hends

/-- Nothing comes at the end of a phrase that a refused group leads in to. -/
theorem filter_anchor_of_phrase (h : refused ∈ refusedGroups options (tokens source))
    (hphrase : Phrase ((significantBetween (tokens source) refused.group.typeStart (last + 1)).map
      Prod.fst))
    (hle : refused.group.typeStart ≤ last) :
    (planOf options source).moves.filter (·.anchor == last) = [] := by
  refine List.filter_eq_nil_iff.2 fun m hm ha => ?_
  obtain ⟨e, he, -, -, hanchor, -⟩ := exists_group_of_move hm
  exact anchor_ne_of_phrase h hphrase he hle (hanchor.symm.trans (beq_iff_eq.1 ha))

/-- In a phrase that a refused group leads in to, as many come as go. -/
theorem length_le_new_of_phrase
    (hphrase : Phrase ((significantBetween (tokens source) refused.group.typeStart (last + 1)).map
      Prod.fst)) :
    (significantBetween (tokens source) refused.group.typeStart (last + 1)).length ≤
      (Requalified.new ((significantBetween (tokens source) refused.group.typeStart
        (last + 1)).map (planOf options source).requalify)).length := by
  refine length_le_new_requalify (significantBetween_pairwise _ _ _) fun m hm hindex => ?_
  obtain ⟨⟨u, i⟩, hmem, hi⟩ := List.mem_map.1 hindex
  obtain rfl : i = m.index := hi
  obtain ⟨hstart, hlt, -⟩ := mem_significantBetween hmem
  obtain ⟨e, he, hmoves, hmem', hanchor, -⟩ := exists_group_of_move hm
  obtain ⟨t, ht, hsig, -⟩ := exists_anchor_token he
  have hbefore := anchor_lt_of_phrase hphrase he hmem' hstart (Nat.le_of_lt_succ hlt)
  have hmlt := (hmoves.member _ hmem').1
  have hle := hmoves.anchored.1
  rw [hanchor]
  exact List.mem_map.2 ⟨(t, e.2), mem_significantBetween_of_lt (by omega) (by omega) ht hsig, rfl⟩

/-- What goes and comes from the type of a refused group on respects the type. -/
theorem respects_of_refused (h : refused ∈ refusedGroups options (tokens source)) :
    Requalified.Respects ((significantBetween (tokens source) refused.group.typeStart
      refused.group.boundary).map (planOf options source).requalify) where
  gone := by
    intro c hc hgone
    obtain ⟨⟨t, j⟩, hmem, rfl⟩ := List.mem_map.1 hc
    obtain ⟨-, -, ht, -⟩ := mem_significantBetween hmem
    obtain ⟨e, -, hj, hmoves⟩ := exists_group_of_removes hgone
    obtain ⟨-, u, q, hu, hq⟩ := hmoves.member j hj
    obtain rfl := Option.some.inj (ht.symm.trans hu)
    refine ⟨⟨q, hq⟩, ?_⟩
    rw [Plan.requalify, filter_anchor_eq_nil ht (Token.endsType_of_qualifier hq)]
    rfl
  come := by
    intro c hc t ht
    obtain ⟨e, -, rfl⟩ := List.mem_map.1 hc
    obtain ⟨m, -, rfl⟩ := List.mem_map.1 ht
    exact ⟨m.qualifier, by cases m.qualifier <;> rfl⟩
  endsType := by
    intro c hc hcome
    obtain ⟨⟨t, j⟩, hmem, rfl⟩ := List.mem_map.1 hc
    obtain ⟨-, -, ht, -⟩ := mem_significantBetween hmem
    refine Decidable.byContradiction fun hends => hcome ?_
    rw [Plan.requalify, filter_anchor_eq_nil ht (Bool.not_eq_true _ ▸ hends)]
    rfl
  later := by
    intro pre c post hcs hgone
    obtain ⟨t, j, rfl, -, rfl, hle, hlt, ht, -⟩ := exists_of_map_requalify hcs
    obtain ⟨e, he, hj, hmoves⟩ := exists_group_of_removes hgone
    obtain ⟨u, hu, hsig, hkept⟩ := exists_anchor_token he
    have hanchor := anchor_lt_boundary h he hj hle hlt
    have hjlt := (hmoves.member j hj).1
    have hle' := hmoves.anchored.1
    rw [significantBetween_append (by omega) (Nat.le_of_lt hanchor),
      significantBetween_cons hu hsig hanchor, List.map_append, List.map_cons,
      Requalified.new_append, Requalified.new_cons_of_kept hkept]
    simp
  fresh := by
    intro pre c post hcs hgone
    obtain ⟨t, j, rfl, rfl, -, hle, hlt, -⟩ := exists_of_map_requalify hcs
    rw [old_requalify]
    exact exists_not_opensName h hgone hle hlt
  ending := by
    intro pre c post hcs hphrase
    obtain ⟨t, j, rfl, rfl, -, hle, -, ht, hsig⟩ := exists_of_map_requalify hcs
    have hphrase' : Phrase ((significantBetween (tokens source) refused.group.typeStart (j + 1)).map
        Prod.fst) := by
      rw [old_requalify] at hphrase
      rw [significantBetween_concat hle ht hsig, List.map_append]
      exact hphrase
    rw [Plan.requalify, filter_anchor_of_phrase h hphrase' hle]
    rfl
  count := by
    intro pre post hcs hphrase
    rcases List.eq_nil_or_concat pre with rfl | ⟨pre, c, rfl⟩
    · exact Nat.zero_le _
    rw [List.concat_eq_append] at hcs hphrase ⊢
    rw [List.append_assoc, List.singleton_append] at hcs
    obtain ⟨t, j, rfl, rfl, -, hle, -, ht, hsig⟩ := exists_of_map_requalify hcs
    have hstretch : (significantBetween (tokens source) refused.group.typeStart j).map
          (planOf options source).requalify ++ [(planOf options source).requalify (t, j)] =
        (significantBetween (tokens source) refused.group.typeStart (j + 1)).map
          (planOf options source).requalify := by
      rw [significantBetween_concat hle ht hsig, List.map_append]
      rfl
    rw [hstretch, old_requalify] at hphrase
    rw [hstretch, List.length_map]
    exact length_le_new_of_phrase hphrase

end

end EastConst
