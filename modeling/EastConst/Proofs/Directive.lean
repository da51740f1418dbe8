import EastConst.Proofs.Plan.CarryOut

/-!
# Directives that are left alone

A plan takes no qualifier out of a directive that is no `#define`, and changes no whitespace in it.
It can still put qualifiers in: the type of a qualifier before the directive may end inside. The
directive is written as it stands exactly if no type does.
-/

namespace EastConst

/-- Whether a directive is a `#define`. -/
def isDefine (directive : List Token) : Bool :=
  ((directive.drop 1).dropWhile Token.isTrivia).head?.any (·.text == "define".toList)

theorem macroBody?_eq_none {d : List Token} (h : isDefine d = false) : macroBody? d = none := by
  unfold macroBody?
  split
  · rfl
  · rename_i word rest hd
    rw [isDefine, hd] at h
    exact if_neg (by simpa using h)

section

variable {options : Options} {source : List Char} {pre post : List Segment}
  {d : List Token} {k : Nat}

/-- No occurrence stands in a directive that defines no macro. -/
theorem not_inside_of_occurrence {tokens : List Token} {o : Occurrence}
    (ho : o ∈ occurrences options tokens) (hsegs : segments tokens = pre ++ .directive d :: post)
    (hd : macroBody? d = none) :
    o.index < (Segment.flatten pre).length ∨ (Segment.flatten pre).length + d.length ≤ o.index := by
  refine Decidable.byContradiction fun hin => ?_
  rcases mem_occurrences ho with ⟨pre', post', t, ho⟩ | ⟨pre', post', front, before, after, t, ho⟩
  · obtain ⟨-, heq⟩ := segment_unique hsegs ho.segments (k := o.index) (by omega)
      (by rw [Segment.tokens]; omega) (by have := ho.index; omega)
      (by have := ho.index; simp [Segment.tokens]; omega)
    cases heq
  · obtain ⟨-, heq⟩ := segment_unique hsegs ho.segments (k := o.index) (by omega)
      (by rw [Segment.tokens]; omega) (by have := ho.index; omega)
      (by have := ho.index; simp [Segment.tokens]; omega)
    cases heq
    rw [ho.body] at hd
    cases hd

/-- Nothing is taken out of a directive that defines no macro. -/
theorem removes_of_directive (hsegs : segments (tokens source) = pre ++ .directive d :: post)
    (hd : macroBody? d = none) (hk : (Segment.flatten pre).length ≤ k)
    (hk' : k < (Segment.flatten pre).length + d.length) :
    (planOf options source).removes k = false := by
  refine Bool.eq_false_iff.2 fun hr => ?_
  obtain ⟨e, -, hmem, he⟩ := exists_group_of_removes hr
  obtain ⟨o, ho, rfl, -⟩ := he.leading k hmem
  rcases not_inside_of_occurrence ho hsegs hd with h | h <;> omega

/-- Nothing is taken out right after a directive: a line ends there. -/
theorem removes_after_directive (hsegs : segments (tokens source) = pre ++ .directive d :: post) :
    (planOf options source).removes ((Segment.flatten pre).length + d.length) = false := by
  refine Bool.eq_false_iff.2 fun hr => ?_
  cases post with
  | nil =>
    have hflat := congrArg List.length (segments_flatten (tokens source))
    rw [hsegs, (tokens_terminated source).length_beforeEnd] at hflat
    have hlen : (Segment.flatten pre).length + d.length = (tokens source).length - 1 := by
      simpa [Segment.tokens] using hflat
    rw [hlen, removes_end] at hr
    cases hr
  | cons s post =>
    obtain ⟨t, rfl, hline⟩ := endsLine_of_directive_append hsegs
    have hsplit : segments (tokens source) = (pre ++ [.directive d]) ++ .token t :: post := by
      simpa using hsegs
    have ht := getElem?_of_segments (k := 0) hsplit rfl
    simp only [Segment.flatten_append, List.length_append] at ht
    have hk := (kind_of_removes hr (by simpa [Segment.flatten, Segment.tokens] using ht)).1
    simp [Token.endsLine, hk] at hline

/-- Whitespace in a directive is as it was: what changes is next to a qualifier that goes, but the
first token of a directive is its `#`, and a line break comes after the last. -/
theorem spaces_of_directive (hsegs : segments (tokens source) = pre ++ .directive d :: post)
    (hd : macroBody? d = none) (hk : (Segment.flatten pre).length ≤ k)
    (hk' : k < (Segment.flatten pre).length + d.length) :
    (planOf options source).spaces.get? k = none := by
  obtain ⟨hash, rest, hcons, hhash, hline⟩ : (Segment.directive d).IsLine :=
    isLine_of_mem_segments (by rw [hsegs]; simp)
  cases hx : (planOf options source).spaces.get? k with
  | none => rfl
  | some x =>
    cases (Plan.ofTokens_settled (tokens_terminated source) (k + 1)).shape k x hx with
    | keep hm =>
      rw [removes_of_directive hsegs hd hk hk'] at hm
      cases hm
    | @drop m t hm ht hs =>
      rcases Nat.lt_or_ge m (Segment.flatten pre).length with hlt | hge
      · have hget : (tokens source)[(Segment.flatten pre).length + 0]? = some hash :=
          getElem?_of_segments hsegs (by simp [Segment.tokens, hcons])
        rw [show (Segment.flatten pre).length + 0 = m + 1 by omega, ht] at hget
        obtain rfl := Option.some.inj hget
        simp [Token.isMark, Token.mark?, Token.kind_of_isHorizontalSpace hs] at hhash
      · rw [removes_of_directive hsegs hd hge (by omega)] at hm
        cases hm
    | @trim _ t u hm ht hkt hlen hu hku hsu =>
      rcases Nat.lt_or_ge (k + 1) ((Segment.flatten pre).length + d.length) with hlt | hge
      · rw [removes_of_directive hsegs hd (by omega) hlt] at hm
        cases hm
      · have hend : (planOf options source).removes ((Segment.flatten pre).length + d.length) =
            false :=
          removes_after_directive hsegs
        rw [show (Segment.flatten pre).length + d.length = k + 1 by omega, hm] at hend
        cases hend

/-! ## What is written for a directive -/

theorem insertion_eq_nil_iff {plan : Plan} :
    plan.insertion k = [] ↔ ∀ m ∈ plan.moves, m.anchor ≠ k := by
  have hnil : plan.insertion k = [] ↔ plan.moves.filter (·.anchor == k) = [] := by
    rw [Plan.insertion]
    cases plan.moves.filter (·.anchor == k) <;> simp
  rw [hnil, List.filter_eq_nil_iff]
  simp

/-- Of a directive without a body every token is written as it is, with what is put in after it. -/
theorem pieces_of_directive (hsegs : segments (tokens source) = pre ++ .directive d :: post)
    (hd : macroBody? d = none) :
    (((planOf options source).pieces (tokens source)).drop (Segment.flatten pre).length).take
      d.length =
      (d.zipIdx (Segment.flatten pre).length).map fun (t, k) =>
        t.text ++ (planOf options source).insertion k := by
  refine List.ext_getElem? fun j => ?_
  rw [List.getElem?_take, List.getElem?_drop, List.getElem?_map, List.getElem?_zipIdx]
  split
  · rename_i hj
    have ht := getElem?_of_segments hsegs (List.getElem?_eq_getElem (l := Segment.tokens _) hj)
    rw [Plan.pieces, List.getElem?_map, List.getElem?_zipIdx, ht, Nat.zero_add,
      List.getElem?_eq_getElem hj]
    simp [Plan.piece, Segment.tokens,
      removes_of_directive hsegs hd (Nat.le_add_right _ j) (by omega),
      spaces_of_directive hsegs hd (Nat.le_add_right _ j) (by omega)]
  · rename_i hj
    rw [List.getElem?_eq_none (by omega)]
    rfl

theorem length_flatMap_text_le (ts : List Token) (start : Nat) (added : Nat → List Char) :
    (ts.flatMap Token.text).length ≤
      ((ts.zipIdx start).flatMap fun (t, k) => t.text ++ added k).length := by
  induction ts generalizing start with
  | nil => simp
  | cons t ts ih =>
    have := ih (start + 1)
    simp only [List.flatMap_cons, List.zipIdx_cons, List.length_append] at this ⊢
    omega

/-- Texts with something added after each are the same only if nothing is added. -/
theorem flatMap_text_eq_iff (ts : List Token) (start : Nat) (added : Nat → List Char) :
    ((ts.zipIdx start).flatMap fun (t, k) => t.text ++ added k) = ts.flatMap Token.text ↔
      ∀ k, start ≤ k → k < start + ts.length → added k = [] := by
  induction ts generalizing start with
  | nil =>
    simp
    omega
  | cons t ts ih =>
    have hle := length_flatMap_text_le ts (start + 1) added
    rw [List.zipIdx_cons, List.flatMap_cons, List.flatMap_cons, List.append_assoc,
      List.append_cancel_left_eq]
    constructor
    · intro h
      have hlen := congrArg List.length h
      rw [List.length_append] at hlen
      have hnil : added start = [] := List.length_eq_zero_iff.1 (by omega)
      rw [hnil, List.nil_append, ih] at h
      intro k hk hk'
      rcases Nat.eq_or_lt_of_le hk with rfl | hlt
      · exact hnil
      · exact h k hlt (by simp at hk'; omega)
    · intro h
      rw [h start (Nat.le_refl _) (by simp), List.nil_append, ih]
      exact fun k hk hk' => h k (by omega) (by simp; omega)

/-- A directive that is no `#define` loses no qualifier and no blank, and is padded only after
qualifiers that are put in. It is written as it stands exactly if no qualifier from before it is put
in, that is, if no type that starts before it ends inside. -/
theorem directive_unchanged_iff (hsegs : segments (tokens source) = pre ++ .directive d :: post)
    (hd : isDefine d = false) :
    (∀ k, (Segment.flatten pre).length ≤ k → k < (Segment.flatten pre).length + d.length →
      (planOf options source).removes k = false ∧ (planOf options source).spaces.get? k = none ∧
      ((planOf options source).padded.contains k = true →
        ∃ m ∈ (planOf options source).moves, m.anchor = k)) ∧
    (((((planOf options source).pieces (tokens source)).drop
        (Segment.flatten pre).length).take d.length).flatten = d.flatMap Token.text ↔
      ¬ ∃ m ∈ (planOf options source).moves, m.index < (Segment.flatten pre).length ∧
        (Segment.flatten pre).length ≤ m.anchor ∧
        m.anchor < (Segment.flatten pre).length + d.length) := by
  have hbody := macroBody?_eq_none hd
  refine ⟨fun k hk hk' => ⟨?_, ?_, exists_move_of_padded⟩, ?_⟩
  · exact removes_of_directive hsegs hbody hk hk'
  · exact spaces_of_directive hsegs hbody hk hk'
  · rw [pieces_of_directive hsegs hbody, ← List.flatMap_def, flatMap_text_eq_iff]
    simp only [insertion_eq_nil_iff]
    constructor
    · rintro h ⟨m, hm, -, hanchor, hanchor'⟩
      exact h m.anchor hanchor hanchor' m hm rfl
    · rintro h k hk hk' m hm rfl
      refine h ⟨m, hm, ?_, hk, hk'⟩
      have hlt := index_lt_anchor hm
      refine Nat.lt_of_not_le fun hle => ?_
      have hr : (planOf options source).removes m.index = true := Plan.removes_iff.2 ⟨m, hm, rfl⟩
      rw [removes_of_directive hsegs hbody hle (by omega)] at hr
      cases hr

end

/-- A directive between the arguments of a type that a qualifier moves behind. -/
theorem directive_unchanged_in_arguments :
    segments (tokens "const A<\n#if B\nint> x;".toList) =
        (segments (tokens "const A<\n#if B\nint> x;".toList)).take 5 ++
          .directive (tokens "#if B".toList).dropLast ::
          (segments (tokens "const A<\n#if B\nint> x;".toList)).drop 6 ∧
      isDefine (tokens "#if B".toList).dropLast = false ∧
      ((((planOf {} "const A<\n#if B\nint> x;".toList).pieces
        (tokens "const A<\n#if B\nint> x;".toList)).drop 5).take 4).flatten = "#if B".toList := by
  have hsegs : segments (tokens "const A<\n#if B\nint> x;".toList) =
      (segments (tokens "const A<\n#if B\nint> x;".toList)).take 5 ++
        .directive (tokens "#if B".toList).dropLast ::
        (segments (tokens "const A<\n#if B\nint> x;".toList)).drop 6 := by decide +kernel
  obtain ⟨hdefine, hstart, hlength, htext, hmoves⟩ :
      isDefine (tokens "#if B".toList).dropLast = false ∧
      (Segment.flatten ((segments (tokens "const A<\n#if B\nint> x;".toList)).take 5)).length = 5 ∧
      (tokens "#if B".toList).dropLast.length = 4 ∧
      (tokens "#if B".toList).dropLast.flatMap Token.text = "#if B".toList ∧
      (planOf {} "const A<\n#if B\nint> x;".toList).moves = [⟨0, 11, .const⟩] := by decide +kernel
  refine ⟨hsegs, hdefine, ?_⟩
  rw [← htext, ← hlength, ← hstart]
  refine (directive_unchanged_iff hsegs hdefine).2.2 ?_
  rw [hmoves, hstart, hlength]
  decide

/-- The type of a qualifier before a directive ends at an operator in it. -/
theorem directive_changed_by_operator :
    segments (tokens "const A<int\n#if B > 1\n> x;".toList) =
        (segments (tokens "const A<int\n#if B > 1\n> x;".toList)).take 6 ++
          .directive (tokens "#if B > 1".toList).dropLast ::
          (segments (tokens "const A<int\n#if B > 1\n> x;".toList)).drop 7 ∧
      isDefine (tokens "#if B > 1".toList).dropLast = false ∧
      ∃ r, relocate {} "const A<int\n#if B > 1\n> x;".toList = .ok r ∧
        r.output = "A<int\n#if B > const 1\n> x;".toList := by
  exact and_assoc.1 ⟨by decide +kernel, exists_relocated (by decide +kernel)⟩

end EastConst
