import EastConst.Plan.Group
import EastConst.Proofs.Occurrence.Leading
import EastConst.Proofs.TypeExtent

/-!
# Groups that move

What is known of a group: its qualifiers stand in order before its type, with nothing but trivia and
specifiers between (`Group.Leads`), and if its type has an extent, its anchor is a token of the type
(`Group.Moves`). Groups do not overlap (`groups_pairwise`).
-/

namespace EastConst

/-- Whether a token may stand between the first qualifier of a group and its type. -/
def Token.isLeadIn (options : Options) (t : Token) : Bool :=
  t.isTrivia || (Qualifier.ofToken? t).isSome || t.isTypePrefix options

/-- What leads in to a type is never punctuation. -/
theorem Token.mark?_of_isLeadIn {options : Options} {t : Token} (h : t.isLeadIn options = true) :
    t.mark? = none := by
  have hk : t.kind ≠ .punctuation := by
    intro hk
    simp [Token.isLeadIn, Token.isTrivia, Qualifier.ofToken?, Token.isTypePrefix, hk] at h
  rw [Token.mark?, if_neg hk]

theorem Token.isMark_of_isLeadIn {options : Options} {t : Token} (h : t.isLeadIn options = true)
    (m : Mark) : t.isMark m = false := by
  simp [Token.isMark, Token.mark?_of_isLeadIn h]

namespace Group

section

variable {options : Options} {moves : Nat → Qualifier → Bool} {boundary index typeStart : Nat}
  {ts : List Token} {members : List Nat}

theorem collect_cons (t : Token) (rest : List Token) :
    collect options moves boundary index (t :: rest) =
      if boundary ≤ index then ([], boundary)
      else if t.isLeadIn options then
        let later := collect options moves boundary (index + 1) rest
        (if (Qualifier.ofToken? t).any (moves index) then index :: later.1 else later.1, later.2)
      else ([], index) := by
  rw [collect]
  split
  · rfl
  · cases ht : t.isTrivia with
    | true =>
      have hq : Qualifier.ofToken? t = none := by
        simp only [Token.isTrivia, Bool.or_eq_true, beq_iff_eq] at ht
        rcases ht with ht | ht <;> simp [Qualifier.ofToken?, ht]
      simp [Token.isLeadIn, ht, hq]
    | false =>
      cases hq : Qualifier.ofToken? t with
      | some q => simp [Token.isLeadIn, ht, hq]
      | none => cases hp : t.isTypePrefix options <;> simp [Token.isLeadIn, ht, hq, hp]

theorem getElem?_cons_sub {t : Token} {rest : List Token} {k : Nat} (h : index < k) :
    (t :: rest)[k - index]? = rest[k - (index + 1)]? := by
  rw [show k - index = (k - (index + 1)) + 1 by omega, List.getElem?_cons_succ]

/-- The tokens from a group's start to its type lead in to the type, and the type starts with one
that does not. -/
theorem collect_leadIn (h : collect options moves boundary index ts = (members, typeStart))
    (hle : index ≤ boundary) :
    (index ≤ typeStart ∧ typeStart ≤ boundary) ∧
      (∀ k t, index ≤ k → k < typeStart → ts[k - index]? = some t → t.isLeadIn options = true) ∧
      (typeStart < boundary → ∃ t, ts[typeStart - index]? = some t ∧
        t.isLeadIn options = false) := by
  induction ts generalizing index members with
  | nil =>
    obtain ⟨rfl, rfl⟩ := Prod.mk.inj h
    exact ⟨⟨hle, Nat.le_refl _⟩, by simp, fun h => absurd h (Nat.lt_irrefl _)⟩
  | cons t rest ih =>
    rw [collect_cons] at h
    split at h
    · obtain ⟨rfl, rfl⟩ := Prod.mk.inj h
      exact ⟨⟨hle, Nat.le_refl _⟩, fun k t h1 h2 => by omega, fun h => absurd h (Nat.lt_irrefl _)⟩
    · split at h
      · rename_i hlead
        obtain ⟨-, hstart⟩ := Prod.mk.inj h
        obtain ⟨⟨hlt, hle'⟩, hall, hnot⟩ := ih (Prod.ext rfl hstart) (by omega)
        refine ⟨⟨by omega, hle'⟩, fun k u hk hk' hu => ?_, fun hb => ?_⟩
        · by_cases hki : index = k
          · subst hki
            obtain rfl : t = u := by simpa using hu
            exact hlead
          · rw [getElem?_cons_sub (by omega)] at hu
            exact hall k u (by omega) hk' hu
        · rw [getElem?_cons_sub hlt]
          exact hnot hb
      · rename_i hlead
        obtain ⟨-, rfl⟩ := Prod.mk.inj h
        exact ⟨⟨Nat.le_refl _, hle⟩, fun k t h1 h2 => by omega,
          fun _ => ⟨t, by simp, by simpa using hlead⟩⟩

/-- The members of a group are its qualifiers that are to be moved, in order. -/
theorem collect_members (h : collect options moves boundary index ts = (members, typeStart))
    (hle : index ≤ boundary) :
    members.Pairwise (· < ·) ∧
      ∀ m, m ∈ members ↔ index ≤ m ∧ m < typeStart ∧
        ∃ t q, ts[m - index]? = some t ∧ Qualifier.ofToken? t = some q ∧ moves m q = true := by
  induction ts generalizing index members with
  | nil =>
    obtain ⟨rfl, rfl⟩ := Prod.mk.inj h
    simp
  | cons t rest ih =>
    rw [collect_cons] at h
    split at h
    · obtain ⟨rfl, rfl⟩ := Prod.mk.inj h
      exact ⟨.nil, fun m => ⟨fun h => (nomatch h), fun h => by omega⟩⟩
    · split at h
      · obtain ⟨hmem, hstart⟩ := Prod.mk.inj h
        have hcol : collect options moves boundary (index + 1) rest = (_, typeStart) :=
          Prod.ext rfl hstart
        obtain ⟨hasc, hiff⟩ := ih hcol (by omega)
        have hlt := (collect_leadIn hcol (by omega)).1.1
        have hself : (∃ u q, (t :: rest)[index - index]? = some u ∧ Qualifier.ofToken? u = some q ∧
            moves index q = true) ↔ (Qualifier.ofToken? t).any (moves index) = true := by
          simp [Option.any_eq_true]
        -- whatever is decided about `t`, the members after it are those of the rest
        have hlater (m : Nat) (hm : index < m) :
            m ∈ (collect options moves boundary (index + 1) rest).1 ↔ index ≤ m ∧ m < typeStart ∧
              ∃ u q, (t :: rest)[m - index]? = some u ∧ Qualifier.ofToken? u = some q ∧
                moves m q = true := by
          rw [hiff, getElem?_cons_sub hm]
          exact ⟨fun h => ⟨by omega, h.2⟩, fun h => ⟨hm, h.2⟩⟩
        have hgt (m : Nat) (h : m ∈ (collect options moves boundary (index + 1) rest).1) :
            index < m :=
          ((hiff m).1 h).1
        split at hmem
        · rename_i hpick
          subst hmem
          refine ⟨List.pairwise_cons.2 ⟨hgt, hasc⟩, fun m => ?_⟩
          by_cases hm : m = index
          · subst hm
            simp only [List.mem_cons_self, Nat.le_refl, true_and, true_iff]
            exact ⟨hlt, hself.2 hpick⟩
          · rw [List.mem_cons, or_iff_right hm]
            refine ⟨fun h => (hlater m (hgt m h)).1 h, fun h => (hlater m ?_).2 h⟩
            omega
        · rename_i hpick
          subst hmem
          refine ⟨hasc, fun m => ⟨fun h => (hlater m (hgt m h)).1 h, fun h => ?_⟩⟩
          refine (hlater m ?_).2 h
          refine Nat.lt_of_le_of_ne h.1 ?_
          rintro rfl
          exact hpick (hself.1 h.2.2)
      · obtain ⟨rfl, rfl⟩ := Prod.mk.inj h
        exact ⟨.nil, fun m => ⟨fun h => (nomatch h), fun h => by omega⟩⟩

end

/-! ## Groups and their starts -/

section

variable {options : Options} {tokens : List Token} {found : List Occurrence} {free : Nat}
  {os : List Occurrence}

/-- A group starts at a leading qualifier, and has members. -/
theorem mem_groupsFrom {g : Group} (h : g ∈ groupsFrom options tokens found free os) :
    ∃ o ∈ os, o.role = .leading ∧ g = ofOccurrence options tokens found o ∧ g.members ≠ [] := by
  induction os generalizing free with
  | nil => cases h
  | cons o rest ih =>
    have hlater {free : Nat} (h : g ∈ groupsFrom options tokens found free rest) :
        ∃ o' ∈ o :: rest, o'.role = .leading ∧ g = ofOccurrence options tokens found o' ∧
          g.members ≠ [] := by
      obtain ⟨o', ho', hg⟩ := ih h
      exact ⟨o', List.mem_cons_of_mem _ ho', hg⟩
    unfold groupsFrom at h
    split at h
    · rename_i ho
      dsimp only at h
      split at h
      · exact hlater h
      · rename_i hne
        rcases List.mem_cons.1 h with rfl | h
        · exact ⟨o, List.mem_cons_self, ho.1, rfl, by simpa using hne⟩
        · exact hlater h
    · exact hlater h

/-- The members of a group and the start of its type are collected from its first qualifier on. -/
theorem collect_ofOccurrence (options : Options) (tokens : List Token) (found : List Occurrence)
    (o : Occurrence) :
    collect options (fun index q => isLeading found index && options.relocates q) o.boundary o.index
      (tokens.drop o.index) =
      ((ofOccurrence options tokens found o).members,
       (ofOccurrence options tokens found o).typeStart) :=
  rfl

/-- Groups do not overlap: the members of a later group come after the type of an earlier one has
started. -/
theorem groupsFrom_pairwise (hos : ∀ o ∈ os, o.index ≤ o.boundary) :
    (∀ g ∈ groupsFrom options tokens found free os, ∀ m ∈ g.members, free ≤ m) ∧
      (groupsFrom options tokens found free os).Pairwise
        fun g g' => ∀ m ∈ g'.members, g.typeStart ≤ m := by
  induction os generalizing free with
  | nil => exact ⟨fun g hg => (nomatch hg), .nil⟩
  | cons o rest ih =>
    have ih {free : Nat} := @ih free fun o' ho' => hos o' (List.mem_cons_of_mem _ ho')
    unfold groupsFrom
    split
    · rename_i ho
      have hle := hos o List.mem_cons_self
      have hcol := collect_ofOccurrence options tokens found o
      have hstart := (collect_leadIn hcol hle).1.1
      obtain ⟨hfree, hpair⟩ := @ih (ofOccurrence options tokens found o).typeStart
      have hlater : ∀ g ∈ groupsFrom options tokens found
          (ofOccurrence options tokens found o).typeStart rest, ∀ m ∈ g.members, free ≤ m :=
        fun g hg m hm => Nat.le_trans (Nat.le_trans ho.2 hstart) (hfree g hg m hm)
      dsimp only
      split
      · exact ⟨hlater, hpair⟩
      · refine ⟨fun g hg m hm => ?_, List.pairwise_cons.2 ⟨hfree, hpair⟩⟩
        rcases List.mem_cons.1 hg with rfl | hg
        · exact Nat.le_trans ho.2 (((collect_members hcol hle).2 m).1 hm).1
        · exact hlater g hg m hm
    · exact ih

end

/-! ## Groups that move -/

section

variable {options : Options} {tokens : List Token} {found os : List Occurrence} {free : Nat}
  {o o' : Occurrence}

/-- A group has every leading qualifier that is to be moved from its start to its type. -/
theorem mem_members_ofOccurrence (hlt : o.index < o.boundary)
    (ho' : o' ∈ found) (hrole : o'.role = .leading) (hrel : options.relocates o'.qualifier = true)
    (htoken : ∃ t, tokens[o'.index]? = some t ∧ Qualifier.ofToken? t = some o'.qualifier)
    (hge : o.index ≤ o'.index)
    (htype : o'.index < (ofOccurrence options tokens found o).typeStart) :
    o'.index ∈ (ofOccurrence options tokens found o).members := by
  have hcol := collect_ofOccurrence options tokens found o
  obtain ⟨t, ht, hq⟩ := htoken
  refine ((collect_members hcol (Nat.le_of_lt hlt)).2 _).2 ⟨hge, htype, t, o'.qualifier, ?_, hq, ?_⟩
  · rw [List.getElem?_drop, Nat.add_sub_cancel' hge, ht]
  · rw [Bool.and_eq_true]
    exact ⟨List.any_eq_true.2 ⟨o', ho', by simp [hrole]⟩, hrel⟩

theorem lt_typeStart_ofOccurrence (hlt : o.index < o.boundary)
    (htoken : ∃ t, tokens[o.index]? = some t ∧ Qualifier.ofToken? t = some o.qualifier) :
    o.index < (ofOccurrence options tokens found o).typeStart := by
  have hcol := collect_ofOccurrence options tokens found o
  obtain ⟨⟨hle, -⟩, -, htype⟩ := collect_leadIn hcol (Nat.le_of_lt hlt)
  refine Nat.lt_of_le_of_ne hle ?_
  intro heq
  obtain ⟨t, ht, hq⟩ := htoken
  obtain ⟨u, hu, hlead⟩ := htype (heq ▸ hlt)
  rw [← heq, Nat.sub_self, List.getElem?_drop, Nat.add_zero, ht] at hu
  obtain rfl := Option.some.inj hu
  simp [Token.isLeadIn, hq] at hlead

/-- Every leading qualifier that is to be moved is in a group. -/
theorem exists_mem_groupsFrom (hos : os.Pairwise (·.index < ·.index)) (hsub : ∀ o ∈ os, o ∈ found)
    (hlt : ∀ o ∈ found, o.index < o.boundary)
    (htoken : ∀ o ∈ found, ∃ t, tokens[o.index]? = some t ∧ Qualifier.ofToken? t = some o.qualifier)
    (ho : o ∈ os) (hrole : o.role = .leading) (hrel : options.relocates o.qualifier = true)
    (hfree : free ≤ o.index) :
    ∃ g ∈ groupsFrom options tokens found free os, o.index ∈ g.members := by
  induction os generalizing free with
  | nil => cases ho
  | cons o' rest ih =>
    rw [List.pairwise_cons] at hos
    have ih' {free : Nat} (ho : o ∈ rest) (hfree : free ≤ o.index) :=
      ih hos.2 (fun o ho => hsub o (List.mem_cons_of_mem _ ho)) ho hfree
    rw [groupsFrom]
    split
    · rename_i hstart
      -- the new group has the qualifier, or leaves it to a later one
      dsimp only
      by_cases htype : (ofOccurrence options tokens found o').typeStart ≤ o.index
      · have hrest : o ∈ rest := by
          rcases List.mem_cons.1 ho with rfl | hrest
          · have hself : o.index < (ofOccurrence options tokens found o).typeStart :=
              lt_typeStart_ofOccurrence (hlt o (hsub o ho)) (htoken o (hsub o ho))
            omega
          · exact hrest
        obtain ⟨g, hg, hmem⟩ := ih' hrest htype
        refine ⟨g, ?_, hmem⟩
        split
        · exact hg
        · exact List.mem_cons_of_mem _ hg
      · have hge : o'.index ≤ o.index := by
          rcases List.mem_cons.1 ho with rfl | hrest
          · exact Nat.le_refl _
          · exact Nat.le_of_lt (hos.1 o hrest)
        have hmem : o.index ∈ (ofOccurrence options tokens found o').members :=
          mem_members_ofOccurrence (hlt o' (hsub o' List.mem_cons_self)) (hsub o ho) hrole hrel
            (htoken o (hsub o ho)) hge (Nat.lt_of_not_le htype)
        rw [if_neg (by rw [List.isEmpty_iff]; exact List.ne_nil_of_mem hmem)]
        exact ⟨_, List.mem_cons_self, hmem⟩
    · rename_i hnot
      rcases List.mem_cons.1 ho with rfl | ho
      · exact absurd ⟨hrole, hfree⟩ hnot
      · exact ih' ho hfree

end

/-- What is known of any group: its members come one after another before its type, and lead in to
it. -/
structure Leads (options : Options) (tokens : List Token) (g : Group) : Prop where
  nonempty : g.members ≠ []
  ascending : g.members.Pairwise (· < ·)
  member : ∀ m ∈ g.members, m < g.typeStart ∧
    ∃ t q, tokens[m]? = some t ∧ Qualifier.ofToken? t = some q
  leading : ∀ m ∈ g.members, ∃ o ∈ occurrences options tokens, o.index = m ∧ o.role = .leading ∧
    o.boundary = g.boundary ∧ options.relocates o.qualifier = true
  /-- From its first member on, the group has all leading qualifiers that are to be moved. -/
  complete : ∀ m ∈ g.members, ∀ o ∈ occurrences options tokens, m ≤ o.index →
    o.index < g.typeStart →
    o.role = .leading → options.relocates o.qualifier = true → o.index ∈ g.members
  /-- The group starts at a leading qualifier, and leads in to its type from there on. -/
  start : ∃ o ∈ occurrences options tokens, o.role = .leading ∧ o.boundary = g.boundary ∧
    (∀ m ∈ g.members, o.index ≤ m) ∧
    ∀ k t, o.index ≤ k → k < g.typeStart → tokens[k]? = some t → t.isLeadIn options = true
  /-- Before the boundary, the group goes on over everything that leads in. -/
  maximal : g.typeStart < g.boundary →
    ∃ t, tokens[g.typeStart]? = some t ∧ t.isLeadIn options = false
  bounded : g.boundary ≤ tokens.length - 1

/-- What is known of a group that moves behind the token at `anchor`. -/
structure Moves (options : Options) (tokens : List Token) (g : Group) (anchor : Nat) : Prop
    extends Leads options tokens g where
  type : ∃ t, tokens[g.typeStart]? = some t ∧ t.startsType = true ∧ t.isLeadIn options = false
  anchored : g.typeStart ≤ anchor ∧ anchor < g.boundary ∧
    ∃ t, tokens[anchor]? = some t ∧ t.endsType = true

/-- From a member of a group up to its type there is only what leads in to it. -/
theorem Leads.isLeadIn {options : Options} {tokens : List Token} {g : Group} {m k : Nat} {t : Token}
    (h : g.Leads options tokens) (hm : m ∈ g.members) (hk : m ≤ k) (hk' : k < g.typeStart)
    (ht : tokens[k]? = some t) : t.isLeadIn options = true := by
  obtain ⟨o, -, -, -, hle, hlead⟩ := h.start
  exact hlead k t (Nat.le_trans (hle m hm) hk) hk' ht

end Group

section

variable {options : Options} {tokens : List Token}

theorem leads_of_mem_groups (hts : Terminated tokens) {g : Group} (h : g ∈ groups options tokens) :
    g.Leads options tokens := by
  obtain ⟨o, ho, hrole, rfl, hne⟩ := Group.mem_groupsFrom h
  obtain ⟨-, hlt, hbound⟩ := mem_occurrences_index hts ho
  have hcol := Group.collect_ofOccurrence options tokens (occurrences options tokens) o
  obtain ⟨⟨hle, hle'⟩, hlead, htype⟩ := Group.collect_leadIn hcol (Nat.le_of_lt hlt)
  obtain ⟨hasc, hmem⟩ := Group.collect_members hcol (Nat.le_of_lt hlt)
  have hget {k : Nat} (hk : o.index ≤ k) :
      (tokens.drop o.index)[k - o.index]? = tokens[k]? := by
    rw [List.getElem?_drop, Nat.add_sub_cancel' hk]
  exact
    { nonempty := hne
      ascending := hasc
      member := fun m hm => by
        obtain ⟨hm1, hm2, v, q, hv, hq, -⟩ := (hmem m).1 hm
        exact ⟨hm2, v, q, hget hm1 ▸ hv, hq⟩
      leading := fun m hm => by
        obtain ⟨hm1, hm2, v, q, hv, hq, hmoves⟩ := (hmem m).1 hm
        rw [Bool.and_eq_true] at hmoves
        obtain ⟨o', ho', hlead'⟩ := List.any_eq_true.1 hmoves.1
        rw [Bool.and_eq_true, beq_iff_eq, beq_iff_eq] at hlead'
        obtain ⟨⟨u, hu, hqu⟩, -⟩ := mem_occurrences_index hts ho'
        rw [hlead'.1, ← hget hm1, hv] at hu
        obtain rfl := Option.some.inj hu
        obtain rfl := Option.some.inj (hq.symm.trans hqu)
        have hboundary := boundary_eq_of_between ho ho' (by omega)
          (by rw [hlead'.1]; exact Nat.lt_of_lt_of_le hm2 hle') fun k w hk hk' hw =>
            Token.isMark_of_isLeadIn
              (hlead k w (by omega) (by omega) ((hget (by omega)).trans hw)) _
        exact ⟨o', ho', hlead'.1, hlead'.2, hboundary, hmoves.2⟩
      complete := fun m hm o' ho' hle' hlt' hrole' hrel =>
        Group.mem_members_ofOccurrence hlt ho' hrole' hrel (mem_occurrences_index hts ho').1
          (Nat.le_trans ((hmem m).1 hm).1 hle') hlt'
      start := ⟨o, ho, hrole, rfl, fun m hm => ((hmem m).1 hm).1,
        fun k v hk hk' hv => hlead k v hk hk' ((hget hk).trans hv)⟩
      maximal := fun hlt => by
        obtain ⟨t, ht, hnot⟩ := htype hlt
        exact ⟨t, hget hle ▸ ht, hnot⟩
      bounded := hbound }

theorem Group.typeStart_le_boundary (hts : Terminated tokens) {g : Group}
    (h : g ∈ groups options tokens) : g.typeStart ≤ g.boundary := by
  obtain ⟨o, ho, -, rfl, -⟩ := Group.mem_groupsFrom h
  have hlt := (mem_occurrences_index hts ho).2.1
  have hcol := Group.collect_ofOccurrence options tokens (occurrences options tokens) o
  exact (Group.collect_leadIn hcol (Nat.le_of_lt hlt)).1.2

/-- What starts before the boundary starts with a significant token. -/
theorem Group.Leads.exists_type {g : Group} (h : g.Leads options tokens) (hts : Terminated tokens)
    (hlt : g.typeStart < g.boundary) :
    ∃ t, tokens[g.typeStart]? = some t ∧ t.isLeadIn options = false ∧ t.isSignificant = true := by
  obtain ⟨t, ht, hnot⟩ := h.maximal hlt
  have hend := hts.kind_ne (Nat.lt_of_lt_of_le hlt h.bounded) ht
  have htrivia : t.isTrivia = false := by
    simp only [Token.isLeadIn, Bool.or_eq_false_iff] at hnot
    exact hnot.1.1
  exact ⟨t, ht, hnot, by simp [Token.isSignificant, htrivia, hend]⟩

/-- A group whose type has an extent moves to the extent's end. -/
theorem mem_groups (hts : Terminated tokens) {g : Group} (h : g ∈ groups options tokens)
    {extent : TypeExtent} (he : g.extent options tokens = .ok extent) :
    g.Moves options tokens extent.last := by
  have hleads := leads_of_mem_groups hts h
  obtain ⟨t, ht, hnot, hsig⟩ := hleads.exists_type hts (TypeExtent.lt_of_find_eq_ok he)
  obtain ⟨-, hts', hanchor, hanchor', u, hu, hend⟩ := TypeExtent.find_eq_ok he ht hsig
  exact
    { toLeads := hleads
      type := ⟨t, ht, hts', hnot⟩
      anchored := ⟨hanchor, hanchor', u, hu, hend⟩ }

/-- Every leading qualifier that is to be moved is in a group. -/
theorem exists_group_of_leading (hts : Terminated tokens) {o : Occurrence}
    (ho : o ∈ occurrences options tokens) (hrole : o.role = .leading)
    (hrel : options.relocates o.qualifier = true) :
    ∃ g ∈ groups options tokens, o.index ∈ g.members := by
  apply Group.exists_mem_groupsFrom (occurrencesInSegments_pairwise _ _ _ _ _) (fun _ h => h)
  · exact fun o ho => (mem_occurrences_index hts ho).2.1
  · exact fun o ho => (mem_occurrences_index hts ho).1
  · exact ho
  · exact hrole
  · exact hrel
  · exact Nat.zero_le _

/-- The groups come in order, and none reaches into the lead-in of one before it. -/
theorem groups_pairwise (hts : Terminated tokens) :
    (groups options tokens).Pairwise fun g g' => ∀ m ∈ g'.members, g.typeStart ≤ m :=
  (Group.groupsFrom_pairwise fun _ ho => Nat.le_of_lt (mem_occurrences_index hts ho).2.1).2

/-- The groups that move, each with its anchor. -/
def movable (options : Options) (tokens : List Token) : List (Group × Nat) :=
  (groups options tokens).filterMap fun g =>
    match g.extent options tokens with
    | .ok extent => some (g, extent.last)
    | .error _ => none

/-- What moves are the groups with an extent, to the extent's last token. -/
theorem mem_movable_iff {g : Group} {anchor : Nat} :
    (g, anchor) ∈ movable options tokens ↔
      g ∈ groups options tokens ∧ ∃ extent, g.extent options tokens = .ok extent ∧
        extent.last = anchor := by
  unfold movable
  rw [List.mem_filterMap]
  constructor
  · intro h
    obtain ⟨g', hg, he⟩ := h
    split at he
    · rename_i extent hext
      obtain ⟨rfl, rfl⟩ := Prod.mk.inj (Option.some.inj he)
      exact ⟨hg, extent, hext, rfl⟩
    · cases he
  · intro h
    obtain ⟨hg, extent, hext, rfl⟩ := h
    exact ⟨g, hg, by rw [hext]⟩

theorem mem_movable (hts : Terminated tokens) {g : Group} {anchor : Nat}
    (h : (g, anchor) ∈ movable options tokens) : g.Moves options tokens anchor := by
  obtain ⟨hg, extent, hext, rfl⟩ := mem_movable_iff.1 h
  exact mem_groups hts hg hext

theorem movable_pairwise (hts : Terminated tokens) :
    (movable options tokens).Pairwise fun e e' => ∀ m ∈ e'.1.members, e.1.typeStart ≤ m := by
  have hfst {g : Group} {e : Group × Nat} (h : (match g.extent options tokens with
      | .ok extent => some (g, extent.last)
      | .error _ => none) = some e) : e.1 = g := by
    split at h
    · exact (congrArg Prod.fst (Option.some.inj h)).symm
    · cases h
  refine List.Pairwise.filterMap _ (fun g g' hgg e he e' he' => ?_) (groups_pairwise hts)
  rw [hfst he, hfst he']
  exact hgg

/-- The plan of tokens adds the groups that move one after the other. -/
theorem Plan.ofTokens_eq_foldl (options : Options) (tokens : List Token) :
    Plan.ofTokens options tokens =
      (movable options tokens).foldl (fun p e => p.addMoves options tokens e.1.members e.2) {} := by
  unfold Plan.ofTokens movable
  generalize ({} : Plan) = plan
  induction groups options tokens generalizing plan with
  | nil => rfl
  | cons g rest ih =>
    rw [List.foldl_cons, ih, List.filterMap_cons, Plan.addGroup]
    cases g.extent options tokens with
    | ok extent => rfl
    | error refusal => rfl

end

end EastConst
