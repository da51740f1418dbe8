import EastConst.Plan

/-!
# Plans that pass the check

`Plan.Sound` says what the check of a plan asks: of its moves (`Plan.Forward`) and of its changes of
white space. A plan has no fault exactly if it is sound (`fault?_eq_none_iff`), and if only its
white space is at fault, the least key that is at fault is reported (`fault?_eq_some_iff`).
-/

namespace EastConst

/-! ## Maps in order -/

namespace IndexMap

variable {α : Type}

/-- Whether the keys of a map ascend. -/
def Ascending (m : IndexMap α) : Prop :=
  m.entries.Pairwise (·.1 < ·.1)

theorem mem_insertEntry {key : Nat} {value : α} {entries : List (Nat × α)} {e : Nat × α}
    (h : e ∈ insertEntry key value entries) : e = (key, value) ∨ e ∈ entries := by
  induction entries with
  | nil => exact .inl (List.mem_singleton.1 h)
  | cons e' rest ih =>
    obtain ⟨k, v⟩ := e'
    unfold insertEntry at h
    split at h
    · rcases List.mem_cons.1 h with rfl | h
      · exact .inr List.mem_cons_self
      · exact (ih h).imp_right (List.mem_cons_of_mem _)
    · split at h
      · exact (List.mem_cons.1 h).imp_right (List.mem_cons_of_mem _)
      · exact List.mem_cons.1 h

/-- Inserting keeps a map in order. -/
theorem Ascending.insert {m : IndexMap α} (h : m.Ascending) (key : Nat) (value : α) :
    (m.insert key value).Ascending := by
  obtain ⟨entries⟩ := m
  unfold Ascending IndexMap.insert at *
  dsimp only at *
  induction entries with
  | nil => exact List.pairwise_singleton _ _
  | cons e rest ih =>
    obtain ⟨k, v⟩ := e
    obtain ⟨hlt, hrest⟩ := List.pairwise_cons.1 h
    unfold insertEntry
    split
    · rename_i hk
      refine List.pairwise_cons.2 ⟨fun e he => ?_, ih hrest⟩
      rcases mem_insertEntry he with rfl | he
      · exact hk
      · exact hlt e he
    · split
      · rename_i hk
        subst hk
        exact List.pairwise_cons.2 ⟨hlt, hrest⟩
      · refine List.pairwise_cons.2 ⟨fun e he => ?_, h⟩
        have hkey : key < k := by omega
        rcases List.mem_cons.1 he with rfl | he
        · exact hkey
        · exact Nat.lt_trans hkey (hlt e he)

theorem mem_of_get? {m : IndexMap α} {key : Nat} {value : α} (h : m.get? key = some value) :
    (key, value) ∈ m.entries := by
  obtain ⟨e, he, rfl⟩ := Option.map_eq_some_iff.1 h
  have hkey : e.1 = key := by simpa using List.find?_some he
  exact hkey ▸ List.mem_of_find?_eq_some he

/-- In a map in order every entry is the one that is found under its key. -/
theorem Ascending.get?_of_mem {m : IndexMap α} (h : m.Ascending) {key : Nat} {value : α}
    (hmem : (key, value) ∈ m.entries) : m.get? key = some value := by
  obtain ⟨entries⟩ := m
  unfold Ascending at h
  unfold get?
  dsimp only at *
  induction entries with
  | nil => cases hmem
  | cons e rest ih =>
    obtain ⟨hlt, hrest⟩ := List.pairwise_cons.1 h
    rcases List.mem_cons.1 hmem with rfl | hmem
    · simp
    · have hne : (e.1 == key) = false := by simpa using Nat.ne_of_lt (hlt _ hmem)
      rw [List.find?_cons, hne]
      exact ih hrest hmem

/-- What is found first in a map is found at its least key. -/
theorem Ascending.findSome?_eq_some_iff {β : Type} {m : IndexMap α} (h : m.Ascending)
    {f : Nat → α → Option β} {b : β} :
    m.entries.findSome? (fun e => f e.1 e.2) = some b ↔
      ∃ k v, m.get? k = some v ∧ f k v = some b ∧
        ∀ j w, m.get? j = some w → f j w ≠ none → k ≤ j := by
  rw [List.findSome?_eq_some_iff]
  constructor
  · intro ⟨before, e, after, hsplit, he, hbefore⟩
    have hmem : e ∈ m.entries := by rw [hsplit]; simp
    refine ⟨e.1, e.2, h.get?_of_mem hmem, he, fun j w hj hne => ?_⟩
    have hj := mem_of_get? hj
    rw [Ascending, hsplit, List.pairwise_append, List.pairwise_cons] at h
    rw [hsplit, List.mem_append, List.mem_cons] at hj
    rcases hj with hj | hj | hj
    · exact absurd (hbefore _ hj) hne
    · exact Nat.le_of_eq (congrArg Prod.fst hj).symm
    · exact Nat.le_of_lt (h.2.1.1 _ hj)
  · intro ⟨k, v, hget, hk, hleast⟩
    obtain ⟨before, after, hsplit⟩ := List.append_of_mem (mem_of_get? hget)
    refine ⟨before, (k, v), after, hsplit, hk, fun e he => ?_⟩
    refine Decidable.byContradiction fun hne => ?_
    have hmem : e ∈ m.entries := by rw [hsplit]; exact List.mem_append_left _ he
    have hle := hleast e.1 e.2 (h.get?_of_mem hmem) hne
    rw [Ascending, hsplit, List.pairwise_append] at h
    have hlt := h.2.2 e he _ List.mem_cons_self
    omega

end IndexMap

namespace Plan

variable {plan : Plan} {tokens : List Token}

/-! ## What the check asks -/

/-- What the check asks of the moves of a plan: each takes away a qualifier of its own, and puts it
after a later token that stays. -/
structure Forward (plan : Plan) (tokens : List Token) : Prop where
  qualifier : ∀ m ∈ plan.moves, tokens[m.index]?.bind Qualifier.ofToken? = some m.qualifier
  distinct : plan.moves.Pairwise (·.index ≠ ·.index)
  inRange : ∀ m ∈ plan.moves, m.anchor < tokens.length
  kept : ∀ m ∈ plan.moves, plan.removes m.anchor = false
  forward : ∀ m ∈ plan.moves, m.index < m.anchor

/-- What the check asks of a plan. -/
structure Sound (plan : Plan) (tokens : List Token) : Prop extends Forward plan tokens where
  whitespace : ∀ e ∈ plan.spaces.entries,
    tokens[e.1]?.map Token.kind = some .whitespace ∨ plan.removes e.1 = true
  blank : ∀ e ∈ plan.spaces.entries, e.2.all isBlank = true

theorem removalFault?_eq_none_iff {taken : List Nat} {m : Move} :
    removalFault? tokens taken m = none ↔
      tokens[m.index]?.bind Qualifier.ofToken? = some m.qualifier ∧ m.index ∉ taken := by
  unfold removalFault?
  split
  · rename_i hq
    simp [hq]
  · rename_i hq
    rw [Decidable.not_not] at hq
    split <;> simp_all

/-- Removals pass the check exactly if each names its qualifier and no two are of one token. -/
theorem removalsFault?_eq_none_iff {taken : List Nat} {ms : List Move} :
    removalsFault? tokens taken ms = none ↔
      (∀ m ∈ ms, tokens[m.index]?.bind Qualifier.ofToken? = some m.qualifier) ∧
        (∀ m ∈ ms, m.index ∉ taken) ∧ ms.Pairwise (·.index ≠ ·.index) := by
  induction ms generalizing taken with
  | nil => simp [removalsFault?]
  | cons m ms ih =>
    unfold removalsFault?
    split
    · rename_i fault hfault
      have hnot := mt removalFault?_eq_none_iff.2 (by simp [hfault] :
        ¬ removalFault? tokens taken m = none)
      simp only [reduceCtorEq, false_iff]
      intro h
      exact hnot ⟨h.1 m List.mem_cons_self, h.2.1 m List.mem_cons_self⟩
    · rename_i hnone
      obtain ⟨hq, htaken⟩ := removalFault?_eq_none_iff.1 hnone
      rw [ih]
      rw [List.forall_mem_cons, List.forall_mem_cons, List.pairwise_cons]
      simp only [List.mem_cons, not_or]
      constructor
      · intro ⟨hqs, hnew, hpair⟩
        exact ⟨⟨hq, hqs⟩, ⟨htaken, fun m' hm' => (hnew m' hm').2⟩,
          fun m' hm' he => (hnew m' hm').1 he.symm, hpair⟩
      · intro ⟨hqs, hnew, hne, hpair⟩
        exact ⟨hqs.2, fun m' hm' => ⟨fun he => hne m' hm' he.symm, hnew.2 m' hm'⟩, hpair⟩

/-- An anchor passes the check exactly if it is a later token that stays. -/
theorem anchorFault?_eq_none_iff {m : Move} :
    plan.anchorFault? tokens m = none ↔
      m.anchor < tokens.length ∧ plan.removes m.anchor = false ∧ m.index < m.anchor := by
  unfold anchorFault?
  split
  · rename_i hlen
    simp only [reduceCtorEq, false_iff]
    intro h
    omega
  · rename_i hlen
    split
    · rename_i hr
      simp [hr]
    · rename_i hr
      split
      · rename_i hle
        simp only [reduceCtorEq, false_iff]
        intro h
        omega
      · simp only [true_iff]
        exact ⟨by omega, Bool.eq_false_iff.2 hr, by omega⟩

/-- A replacement passes the check exactly if it is blank and stands for whitespace or for what
goes. -/
theorem spaceFault?_eq_none_iff {index : Nat} {text : List Char} :
    plan.spaceFault? tokens index text = none ↔
      (tokens[index]?.map Token.kind = some .whitespace ∨ plan.removes index = true) ∧
        text.all isBlank = true := by
  unfold spaceFault?
  split
  · rename_i h
    simp only [reduceCtorEq, false_iff]
    intro hor
    exact hor.1.elim h.1 h.2
  · rename_i h
    rw [Decidable.not_and_iff_not_or_not, Decidable.not_not, Decidable.not_not] at h
    split <;> simp_all

/-- The moves of a plan are in order exactly if no fault comes from them. -/
theorem forward_iff :
    plan.Forward tokens ↔
      removalsFault? tokens [] plan.moves = none ∧
        plan.moves.findSome? (plan.anchorFault? tokens) = none := by
  rw [removalsFault?_eq_none_iff, List.findSome?_eq_none_iff]
  constructor
  · intro h
    exact ⟨⟨h.qualifier, fun m hm => List.not_mem_nil, h.distinct⟩, fun m hm =>
      anchorFault?_eq_none_iff.2 ⟨h.inRange m hm, h.kept m hm, h.forward m hm⟩⟩
  · intro ⟨hremovals, hanchors⟩
    have hanchor (m : Move) (hm : m ∈ plan.moves) := anchorFault?_eq_none_iff.1 (hanchors m hm)
    exact ⟨hremovals.1, hremovals.2.2, fun m hm => (hanchor m hm).1, fun m hm => (hanchor m hm).2.1,
      fun m hm => (hanchor m hm).2.2⟩

theorem Forward.fault?_eq (h : plan.Forward tokens) :
    plan.fault? tokens =
      plan.spaces.entries.findSome? fun e => plan.spaceFault? tokens e.1 e.2 := by
  obtain ⟨hremovals, hanchors⟩ := forward_iff.1 h
  simp [fault?, hremovals, hanchors]

/-- A plan has no fault exactly if it is sound. -/
theorem fault?_eq_none_iff : plan.fault? tokens = none ↔ plan.Sound tokens := by
  constructor
  · intro h
    have hforward : plan.Forward tokens := by
      rw [forward_iff]
      unfold fault? at h
      cases hremovals : removalsFault? tokens [] plan.moves with
      | some fault => simp [hremovals] at h
      | none =>
        cases hanchors : plan.moves.findSome? (plan.anchorFault? tokens) with
        | some fault => simp [hremovals, hanchors] at h
        | none => exact ⟨rfl, rfl⟩
    rw [hforward.fault?_eq, List.findSome?_eq_none_iff] at h
    have hspace (e : Nat × List Char) (he : e ∈ plan.spaces.entries) :=
      spaceFault?_eq_none_iff.1 (h e he)
    exact ⟨hforward, fun e he => (hspace e he).1, fun e he => (hspace e he).2⟩
  · intro h
    rw [h.toForward.fault?_eq, List.findSome?_eq_none_iff]
    intro e he
    exact spaceFault?_eq_none_iff.2 ⟨h.whitespace e he, h.blank e he⟩

/-- The check passes exactly the sound plans. -/
theorem check_eq_ok_iff : plan.check tokens = .ok () ↔ plan.Sound tokens := by
  rw [← fault?_eq_none_iff, check]
  cases plan.fault? tokens <;> simp

/-- If the moves of a plan are in order and it changes nothing but white space, its fault is the
first replacement that is not blank. -/
theorem Forward.fault?_eq_some_iff {fault : Fault} (h : plan.Forward tokens)
    (hasc : plan.spaces.Ascending)
    (hspace : ∀ e ∈ plan.spaces.entries,
      tokens[e.1]?.map Token.kind = some .whitespace ∨ plan.removes e.1 = true) :
    plan.fault? tokens = some fault ↔
      ∃ k text, plan.spaces.get? k = some text ∧ text.all isBlank = false ∧
        (∀ j text', plan.spaces.get? j = some text' → text'.all isBlank = false → k ≤ j) ∧
        fault = .nonBlankReplacement k := by
  have hfault {k : Nat} {text : List Char} (hget : plan.spaces.get? k = some text) :
      plan.spaceFault? tokens k text =
        if text.all isBlank then none else some (.nonBlankReplacement k) := by
    unfold spaceFault?
    rw [if_neg]
    intro hnot
    exact (hspace _ (IndexMap.mem_of_get? hget)).elim hnot.1 hnot.2
  rw [h.fault?_eq, hasc.findSome?_eq_some_iff]
  constructor
  · intro ⟨k, text, hget, hk, hleast⟩
    rw [hfault hget] at hk
    split at hk
    · cases hk
    · rename_i hblank
      refine ⟨k, text, hget, Bool.eq_false_iff.2 hblank, ?_, (Option.some.inj hk).symm⟩
      intro j text' hj hnot
      exact hleast j text' hj (by simp [hfault hj, hnot])
  · intro ⟨k, text, hget, hblank, hleast, hk⟩
    refine ⟨k, text, hget, by simp [hfault hget, hblank, hk], ?_⟩
    intro j text' hj hnot
    rw [hfault hj] at hnot
    exact hleast j text' hj (by simpa using hnot)

end Plan

end EastConst
