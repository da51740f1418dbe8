import EastConst.Proofs.Layout.Spaced
import EastConst.Proofs.Plan.Settled
import EastConst.Proofs.TypeExtent.Relabel

/-!
# Layout plays no part

Every function between the tokens and the plan looks through comments and white space, each in a way
of its own: the walk steps over them, a directive holds them, a group and a type skip them. So with
fillers put in (`Spaced`), each gives what it gave, at the indices where the tokens have come to
stand. `layout_independent` puts these together: the same roles, the same moves and the same
refusals.
-/

namespace EastConst

/-- An occurrence with other indices. -/
def Occurrence.relabel (φ : Nat → Nat) (o : Occurrence) : Occurrence :=
  { o with index := φ o.index, boundary := φ o.boundary }

/-- Whether a place is right after the name of a macro that is being defined. -/
def Place.endsName : Place → Bool
  | .directive held => afterName? held == some []
  | _ => false

namespace Spaced

/-! ## Occurrences -/

section

variable {options : Options} {φ : Nat → Nat} {b i i' : Nat} {w : Walk} {g : List Token}

/-- Fillers change nothing in a walk. -/
theorem run_fillers (hg : ∀ t ∈ g, t.isFiller = true) (ts : List Token) :
    w.run options (g ++ ts) = w.run options ts := by
  induction g with
  | nil => rfl
  | cons t g ih =>
    rw [List.forall_mem_cons] at hg
    rw [List.cons_append, Walk.run_cons,
      Walk.step_insignificant (Token.isSignificant_of_isFiller hg.1), ih hg.2]

theorem run_widened (hg : ∀ t ∈ g, t.isFiller = true) (ss : List Spaced) :
    w.run options (widened ss ++ g) = w.run options (original ss) := by
  induction ss generalizing w with
  | nil =>
    rw [widened_nil, List.nil_append, ← List.append_nil g, run_fillers hg, original_nil]
  | cons s ss ih =>
    rw [widened_cons, original_cons, List.append_assoc, run_fillers s.isFiller, List.cons_append,
      Walk.run_cons, Walk.run_cons, ih]

theorem occurrencesIn_fillers (hg : ∀ t ∈ g, t.isFiller = true) (ts : List Token) :
    occurrencesIn options b w i (g ++ ts) = occurrencesIn options b w (i + g.length) ts := by
  induction g generalizing i with
  | nil => rfl
  | cons t g ih =>
    rw [List.forall_mem_cons] at hg
    rw [List.cons_append, occurrencesIn, Token.ofToken?_of_isFiller hg.1,
      Walk.step_insignificant (Token.isSignificant_of_isFiller hg.1), List.length_cons]
    dsimp only
    rw [ih hg.2, show i + 1 + g.length = i + (g.length + 1) by omega]

/-- Qualifiers outside directives are found where their tokens have gone, with their roles. -/
theorem occurrencesIn_widened (hg : ∀ t ∈ g, t.isFiller = true) {ss more : List Spaced}
    (h : Relabels φ i i' (ss ++ more)) :
    occurrencesIn options (φ b) w i' (widened ss ++ g) =
      (occurrencesIn options b w i (original ss)).map (·.relabel φ) := by
  induction ss generalizing w i i' with
  | nil =>
    rw [widened_nil, List.nil_append, ← List.append_nil g, occurrencesIn_fillers hg]
    rfl
  | cons s ss ih =>
    have hrest := ih (w := w.step options s.token) (Relabels.tail h)
    rw [widened_cons, original_cons, List.append_assoc, occurrencesIn_fillers s.isFiller,
      List.cons_append, occurrencesIn, occurrencesIn, hrest, ← Relabels.head h]
    cases Qualifier.ofToken? s.token <;> rfl

/-- A directive does the same to a walk with fillers between its tokens. -/
theorem directive_widened (hg : ∀ t ∈ g, t.isFiller = true) {s : Spaced} (hs : s.gap = [])
    {ss : List Spaced} (hintact : Intact (s :: ss)) :
    w.directive options (widened (s :: ss) ++ g) = w.directive options (original (s :: ss)) := by
  rw [Walk.directive, Walk.directive]
  rcases macroBody?_widened hg hs hintact with
    ⟨horiginal, hwidened⟩ | ⟨horiginal, hwidened⟩ | ⟨pre, post, -, horiginal, hwidened⟩
  · rw [horiginal, hwidened]
  · rw [horiginal, hwidened]
  · rw [horiginal, hwidened]
    dsimp only
    rw [run_widened hg]

/-- The fillers before the token that ends a directive belong to the directive, so its macro's body
ends where that token stands. -/
theorem occurrencesInDirective_widened {s last : Spaced} (hs : s.gap = []) {ss more : List Spaced}
    (hintact : Intact (s :: ss)) (h : Relabels φ i i' (s :: ss ++ last :: more)) :
    occurrencesInDirective options w i' (widened (s :: ss) ++ last.gap) =
      (occurrencesInDirective options w i (original (s :: ss))).map (·.relabel φ) := by
  have hstop : i' + (widened (s :: ss) ++ last.gap).length =
      φ (i + (original (s :: ss)).length) := by
    rw [length_original, Relabels.head (Relabels.drop h), List.length_append, Nat.add_assoc]
  rw [occurrencesInDirective, occurrencesInDirective, hstop]
  rcases macroBody?_widened last.isFiller hs hintact with
    ⟨horiginal, hwidened⟩ | ⟨horiginal, hwidened⟩ | ⟨pre, post, hss, horiginal, hwidened⟩
  · rw [horiginal, hwidened]
    rfl
  · rw [horiginal, hwidened]
    rfl
  · rw [horiginal, hwidened]
    have hstart : φ (i + (original (s :: ss)).length) - (widened post ++ last.gap).length =
        i' + (widened pre).length := by
      rw [← hstop, hss, widened_append, List.append_assoc, List.length_append, ← Nat.add_assoc,
        Nat.add_sub_cancel]
    have hstart' : i + (original (s :: ss)).length - (original post).length = i + pre.length := by
      rw [hss, original_append, List.length_append, ← Nat.add_assoc, Nat.add_sub_cancel,
        length_original]
    dsimp only
    rw [hstart, hstart']
    rw [hss, List.append_assoc] at h
    exact occurrencesIn_widened last.isFiller (Relabels.drop h)

/-- Fillers outside directives are stepped over. -/
theorem occurrencesInSegments_fillers (hg : ∀ t ∈ g, t.isFiller = true) {place : Place}
    (hplace : ∀ held, place ≠ .directive held) (ts : List Token) :
    occurrencesInSegments options b w i (segmentsFrom place (g ++ ts)) =
      occurrencesInSegments options b w (i + g.length) (segmentsFrom place ts) := by
  induction g generalizing i with
  | nil => rfl
  | cons t g ih =>
    rw [List.forall_mem_cons] at hg
    have hcons : segmentsFrom place (t :: (g ++ ts)) =
        .token t :: segmentsFrom place (g ++ ts) := by
      cases place with
      | lineStart =>
        rw [segmentsFrom_lineStart, Token.isMark_of_isFiller hg.1, Token.isTrivia_of_isFiller hg.1]
        rfl
      | midLine =>
        rw [segmentsFrom_midLine, Token.endsLine_of_isFiller hg.1]
        rfl
      | directive held => exact absurd rfl (hplace held)
    rw [List.cons_append, hcons, occurrencesInSegments_cons, Segment.occurrences, occurrencesIn,
      occurrencesIn, Token.ofToken?_of_isFiller hg.1, Walk.segment,
      Walk.step_insignificant (Token.isSignificant_of_isFiller hg.1), Segment.tokens,
      List.nil_append,
      List.length_singleton, ih hg.2, List.length_cons,
      show i + 1 + g.length = i + (g.length + 1) by omega]

end

/-- A place among tokens, and the same place among the tokens with fillers. In a directive, both
hold the tokens of the directive so far. -/
inductive Alike : Place → Place → List Spaced → Prop
  | lineStart : Alike .lineStart .lineStart []
  | midLine : Alike .midLine .midLine []
  | directive {s : Spaced} {ss : List Spaced} (gap : s.gap = []) (intact : Intact (s :: ss)) :
    Alike (.directive (original (s :: ss))) (.directive (widened (s :: ss))) (s :: ss)

theorem Alike.outside (atStart : Bool) :
    Alike (if atStart then .lineStart else .midLine)
      (if atStart then .lineStart else .midLine) [] := by
  cases atStart with
  | true => exact .lineStart
  | false => exact .midLine

/-- Whether no filler comes between the name of a macro and a parenthesis that touches it, in tokens
that follow a place. -/
def keepsNames : Place → List Spaced → Bool
  | _, [] => true
  | place, s :: ss =>
    (!(s.token.isMark .parenOpen && place.endsName) || s.gap.isEmpty) &&
      keepsNames (place.after s.token) ss

section

variable {options : Options} {φ : Nat → Nat} {b i i' : Nat} {w : Walk}

/-- Inside a directive, fillers belong to it. -/
theorem segmentsFrom_fillers {g : List Token} (hg : ∀ t ∈ g, t.isFiller = true)
    (held ts : List Token) :
    segmentsFrom (.directive held) (g ++ ts) = segmentsFrom (.directive (held ++ g)) ts := by
  induction g generalizing held with
  | nil => rw [List.nil_append, List.append_nil]
  | cons t g ih =>
    rw [List.forall_mem_cons] at hg
    rw [List.cons_append, segmentsFrom_directive,
      if_neg (by simp [Token.endsLine_of_isFiller hg.1]),
      ih hg.2, List.append_assoc, List.singleton_append]

theorem occurrencesInSegments_token {t : Token} {segs segs' : List Segment}
    (hrest : occurrencesInSegments options (φ b) (w.step options t) (φ i + 1) segs' =
      (occurrencesInSegments options b (w.step options t) (i + 1) segs).map (·.relabel φ)) :
    occurrencesInSegments options (φ b) w (φ i) (.token t :: segs') =
      (occurrencesInSegments options b w i (.token t :: segs)).map (·.relabel φ) := by
  rw [occurrencesInSegments_cons, occurrencesInSegments_cons, List.map_append]
  congr 1
  simp only [Segment.occurrences, occurrencesIn]
  cases Qualifier.ofToken? t <;> rfl

/-- Directives that give the same qualifiers and the same walk can stand for each other. -/
theorem occurrencesInSegments_directive {d d' : List Token} {segs segs' : List Segment}
    (hfound : occurrencesInDirective options w i' d' =
      (occurrencesInDirective options w i d).map (·.relabel φ))
    (hwalk : w.directive options d' = w.directive options d)
    (hrest : occurrencesInSegments options (φ b) (w.directive options d) (i' + d'.length) segs' =
      (occurrencesInSegments options b (w.directive options d) (i + d.length) segs).map
        (·.relabel φ)) :
    occurrencesInSegments options (φ b) w i' (.directive d' :: segs') =
      (occurrencesInSegments options b w i (.directive d :: segs)).map (·.relabel φ) := by
  rw [occurrencesInSegments_cons, occurrencesInSegments_cons, List.map_append]
  simp only [Segment.occurrences, Walk.segment, Segment.tokens]
  rw [hfound, hwalk, hrest]

/-- A token by itself, with no filler before it. -/
abbrev bare (t : Token) : Spaced := { gap := [], token := t }

theorem intact_bare (t : Token) : Intact [bare t] := by
  intro pre s post heq _ _
  cases pre with
  | nil =>
    obtain ⟨rfl, -⟩ := List.cons.inj heq
    rfl
  | cons u pre => simp at heq

theorem Relabels.bare {s : Spaced} {ss : List Spaced} (h : Relabels φ i i' (s :: ss)) :
    Relabels φ i (φ i) (bare s.token :: ss) := by
  intro j
  rw [h j, Relabels.head h]
  cases j with
  | zero => rfl
  | succ j =>
    rw [position, position, List.length_nil]
    omega

/-- The run lemma: the walk finds the same from alike places on. -/
theorem occurrencesInSegments_widened {place place' : Place} {hs ss : List Spaced} {last : Spaced}
    (halike : Alike place place' hs) (hnames : keepsNames place ss = true)
    (h : Relabels φ i i' (hs ++ (ss ++ [last]))) :
    occurrencesInSegments options (φ b) w i' (segmentsFrom place' (widened ss ++ last.gap)) =
      (occurrencesInSegments options b w i (segmentsFrom place (original ss))).map
        (·.relabel φ) := by
  induction ss generalizing place place' hs w i i' with
  | nil =>
    rw [widened_nil, List.nil_append, ← List.append_nil last.gap]
    cases halike with
    | lineStart =>
      rw [occurrencesInSegments_fillers last.isFiller (by simp)]
      rfl
    | midLine =>
      rw [occurrencesInSegments_fillers last.isFiller (by simp)]
      rfl
    | directive hgap hintact =>
      rw [segmentsFrom_fillers last.isFiller, original_nil, segmentsFrom, segmentsFrom]
      exact occurrencesInSegments_directive (occurrencesInDirective_widened hgap hintact h)
        (directive_widened last.isFiller hgap hintact) rfl
  | cons s ss ih =>
    rw [keepsNames, Bool.and_eq_true] at hnames
    obtain ⟨hname, hnames⟩ := hnames
    rw [widened_cons, original_cons, List.append_assoc, List.cons_append]
    cases halike with
    | lineStart =>
      rw [occurrencesInSegments_fillers s.isFiller (by simp), ← Relabels.head h,
        segmentsFrom_lineStart, segmentsFrom_lineStart]
      cases hash : s.token.isMark .hash with
      | true =>
        rw [Place.after, if_pos hash] at hnames
        exact ih (.directive rfl (intact_bare s.token)) hnames (Relabels.bare h)
      | false =>
        rw [Place.after, if_neg (by simp [hash])] at hnames
        have htail : Relabels φ (i + 1) (φ i + 1) ([] ++ (ss ++ [last])) :=
          Relabels.head h ▸ Relabels.tail h
        exact occurrencesInSegments_token (ih (.outside _) hnames htail)
    | midLine =>
      rw [occurrencesInSegments_fillers s.isFiller (by simp), ← Relabels.head h,
        segmentsFrom_midLine, segmentsFrom_midLine]
      have htail : Relabels φ (i + 1) (φ i + 1) ([] ++ (ss ++ [last])) :=
        Relabels.head h ▸ Relabels.tail h
      exact occurrencesInSegments_token (ih (.outside _) hnames htail)
    | @directive first rest hgap hintact =>
      rw [segmentsFrom_fillers s.isFiller, segmentsFrom_directive, segmentsFrom_directive]
      rw [Place.after] at hnames
      cases hl : s.token.endsLine with
      | true =>
        -- the directive ends before this token, and its last fillers are those before the token
        rw [if_pos hl] at hnames
        have htoken := Relabels.drop h
        have htail := Relabels.tail htoken
        rw [← Relabels.head htoken] at htail
        rw [if_pos rfl, if_pos rfl]
        refine occurrencesInSegments_directive (occurrencesInDirective_widened hgap hintact h)
          (directive_widened s.isFiller hgap hintact) ?_
        rw [List.length_append, ← Nat.add_assoc, ← Relabels.head htoken, length_original]
        exact occurrencesInSegments_token (ih .lineStart hnames htail)
      | false =>
        rw [if_neg (by simp [hl])] at hnames
        have hintact' : Intact (first :: (rest ++ [s])) := by
          refine hintact.concat fun hparen hafter => ?_
          rw [hparen, Place.endsName, hafter] at hname
          simpa using hname
        have hwidened : widened (first :: rest) ++ s.gap ++ [s.token] =
            widened (first :: (rest ++ [s])) := by
          simp
        have horiginal : original (first :: rest) ++ [s.token] =
            original (first :: (rest ++ [s])) := by
          simp
        rw [if_neg (by simp), if_neg (by simp), hwidened, horiginal]
        rw [horiginal] at hnames
        refine ih (.directive hgap hintact') hnames ?_
        simpa using h

end

theorem beforeEnd_concat {ts : List Token} {t : Token} (hts : ∀ u ∈ ts, u.kind ≠ .endOfInput)
    (ht : t.kind = .endOfInput) : beforeEnd (ts ++ [t]) = ts := by
  rw [beforeEnd, List.takeWhile_append_of_pos (by simpa using hts),
    List.takeWhile_cons_of_neg (by simp [ht]), List.append_nil]

section

variable {options : Options} {ss : List Spaced} {last : Spaced}

/-- The qualifiers found are the same, where the fillers have put them. -/
theorem occurrences_widened (hend : last.token.kind = .endOfInput)
    (hss : ∀ s ∈ ss, s.token.kind ≠ .endOfInput) (hnames : keepsNames .lineStart ss = true) :
    occurrences options (widened (ss ++ [last])) =
      (occurrences options (original (ss ++ [last]))).map
        (·.relabel (position (ss ++ [last]))) := by
  have hrelabels := relabels_position (ss ++ [last])
  have hlast : (widened (ss ++ [last])).length - 1 =
      position (ss ++ [last]) ((original (ss ++ [last])).length - 1) := by
    have h := Relabels.head (Relabels.drop hrelabels)
    rw [Nat.zero_add, Nat.zero_add] at h
    rw [length_original, List.length_append, List.length_singleton, Nat.add_sub_cancel, h,
      widened_append,
      List.length_append, widened_cons, List.length_append, widened_nil, List.length_singleton,
      ← Nat.add_assoc, Nat.add_sub_cancel]
  have horiginal : beforeEnd (original (ss ++ [last])) = original ss := by
    rw [original_append]
    refine beforeEnd_concat ?_ hend
    intro t ht
    obtain ⟨s, hs, rfl⟩ := List.mem_map.1 ht
    exact hss s hs
  have hwidened : beforeEnd (widened (ss ++ [last])) = widened ss ++ last.gap := by
    rw [widened_append, widened_cons, widened_nil, ← List.append_assoc]
    refine beforeEnd_concat ?_ hend
    intro t ht
    rw [List.mem_append, widened, List.mem_flatMap] at ht
    rcases ht with ⟨s, hs, hmem⟩ | hgap
    · rcases List.mem_append.1 hmem with hgap | htoken
      · exact Token.kind_ne_of_isFiller (s.isFiller t hgap)
      · rw [List.mem_singleton.1 htoken]
        exact hss s hs
    · exact Token.kind_ne_of_isFiller (last.isFiller t hgap)
  rw [occurrences, occurrences, hlast, segments, segments, horiginal, hwidened]
  exact occurrencesInSegments_widened .lineStart hnames hrelabels

end

/-! ## Groups -/

/-- From the place of a token on stand the tokens from it on, up to the fillers before it. -/
theorem exists_drop (ss : List Spaced) (i : Nat) :
    ∃ gap start, (∀ t ∈ gap, t.isFiller = true) ∧
      widened (ss.drop i) = gap ++ (widened ss).drop (position ss i) ∧
      position ss i = start + gap.length ∧ Relabels (position ss) i start (ss.drop i) := by
  induction ss generalizing i with
  | nil => exact ⟨[], i, by simp, by simp, rfl, fun j => by rw [List.drop_nil]; rfl⟩
  | cons s ss ih =>
    cases i with
    | zero =>
      refine ⟨s.gap, 0, s.isFiller, ?_, (Nat.zero_add _).symm, relabels_position (s :: ss)⟩
      rw [position, List.drop_zero, widened_cons, List.drop_left]
    | succ i =>
      obtain ⟨gap, start, hgap, hdrop, hposition, hrelabels⟩ := ih i
      refine ⟨gap, s.gap.length + 1 + start, hgap, ?_, ?_, fun j => ?_⟩
      · have hskip : (s.gap ++ s.token :: widened ss).drop (s.gap.length + 1 + position ss i) =
            (widened ss).drop (position ss i) := by
          rw [Nat.add_assoc, ← List.drop_drop, List.drop_left, Nat.add_comm 1, List.drop_succ_cons]
        rw [List.drop_succ_cons, hdrop, position, widened_cons, hskip]
      · rw [position, hposition]
        omega
      · rw [List.drop_succ_cons, show i + 1 + j = i + j + 1 by omega, position, hrelabels j]
        omega

section

variable {options : Options} {moves moves' : Nat → Qualifier → Bool} {φ : Nat → Nat} {b i i' : Nat}
  {g : List Token}

theorem collect_of_le (h : b ≤ i) (ts : List Token) :
    Group.collect options moves b i ts = ([], b) := by
  cases ts with
  | nil => rfl
  | cons t ts => rw [Group.collect, if_pos h]

theorem collect_fillers (hg : ∀ t ∈ g, t.isFiller = true) (ts : List Token) :
    Group.collect options moves b i (g ++ ts) =
      Group.collect options moves b (i + g.length) ts := by
  induction g generalizing i with
  | nil => rfl
  | cons t g ih =>
    rw [List.forall_mem_cons] at hg
    rw [List.cons_append, Group.collect, List.length_cons, ih hg.2,
      if_pos (Token.isTrivia_of_isFiller hg.1), show i + 1 + g.length = i + (g.length + 1) by omega]
    split
    · rw [collect_of_le (by omega)]
    · rfl

/-- The members of a group and the start of its type are the same, where the fillers have put
them. -/
theorem collect_widened (hφ : ∀ {i j}, φ i ≤ φ j ↔ i ≤ j)
    (hmoves : ∀ i q, moves' (φ i) q = moves i q) {ss : List Spaced} (h : Relabels φ i i' ss) :
    Group.collect options moves' (φ b) i' (widened ss) =
      Prod.map (List.map φ) φ (Group.collect options moves b i (original ss)) := by
  induction ss generalizing i i' with
  | nil => rfl
  | cons s ss ih =>
    have hrest := ih (Relabels.tail h)
    rw [← Relabels.head h] at hrest
    rw [widened_cons, original_cons, collect_fillers s.isFiller, ← Relabels.head h, Group.collect,
      Group.collect, hrest]
    simp only [hφ, hmoves]
    split
    · rfl
    · split
      · rfl
      · split
        · split <;> rfl
        · split <;> rfl

theorem significantFrom_of_le (h : b ≤ i) (ts : List Token) :
    TypeExtent.significantFrom b i ts = [] := by
  cases ts with
  | nil => rfl
  | cons t ts => rw [TypeExtent.significantFrom, if_pos h]

theorem significantFrom_fillers (hg : ∀ t ∈ g, t.isFiller = true) (ts : List Token) :
    TypeExtent.significantFrom b i (g ++ ts) = TypeExtent.significantFrom b (i + g.length) ts := by
  induction g generalizing i with
  | nil => rfl
  | cons t g ih =>
    rw [List.forall_mem_cons] at hg
    rw [List.cons_append, TypeExtent.significantFrom, List.length_cons, ih hg.2,
      if_neg (by simp [Token.isSignificant_of_isFiller hg.1] : ¬ t.isSignificant = true),
      show i + 1 + g.length = i + (g.length + 1) by omega]
    split
    · rw [significantFrom_of_le (by omega)]
    · rfl

theorem significantFrom_widened (hφ : ∀ {i j}, φ i ≤ φ j ↔ i ≤ j) {ss : List Spaced}
    (h : Relabels φ i i' ss) :
    TypeExtent.significantFrom (φ b) i' (widened ss) =
      TypeExtent.relabelAll φ (TypeExtent.significantFrom b i (original ss)) := by
  induction ss generalizing i i' with
  | nil => rfl
  | cons s ss ih =>
    have hrest := ih (Relabels.tail h)
    rw [← Relabels.head h] at hrest
    rw [widened_cons, original_cons, significantFrom_fillers s.isFiller, ← Relabels.head h,
      TypeExtent.significantFrom, TypeExtent.significantFrom, hrest]
    simp only [hφ]
    split
    · rfl
    · split <;> rfl

end

end Spaced

/-- A group with other indices. -/
def Group.relabel (φ : Nat → Nat) (group : Group) : Group :=
  ⟨group.members.map φ, φ group.typeStart, φ group.boundary⟩

/-- A move with other indices. -/
def Move.relabel (φ : Nat → Nat) (m : Move) : Move :=
  { m with index := φ m.index, anchor := φ m.anchor }

namespace Spaced

section

variable {options : Options} {ss : List Spaced} {found os : List Occurrence}

theorem position_inj {i j : Nat} : position ss i = position ss j ↔ i = j := by
  rw [Nat.le_antisymm_iff, position_le_iff, position_le_iff, ← Nat.le_antisymm_iff]

theorem isLeading_widened (i : Nat) :
    Group.isLeading (found.map (·.relabel (position ss))) (position ss i) =
      Group.isLeading found i := by
  rw [Group.isLeading, Group.isLeading, List.any_map]
  congr 1
  funext o
  have hindex : (position ss o.index == position ss i) = (o.index == i) := by
    rw [Bool.eq_iff_iff, beq_iff_eq, beq_iff_eq, position_inj]
  exact congrArg (· && o.role == .leading) hindex

/-- The group of a qualifier has the same members, and its type the same start. -/
theorem ofOccurrence_widened (o : Occurrence) :
    Group.ofOccurrence options (widened ss) (found.map (·.relabel (position ss)))
      (o.relabel (position ss)) =
      (Group.ofOccurrence options (original ss) found o).relabel (position ss) := by
  obtain ⟨gap, start, hgap, hdrop, hposition, hrelabels⟩ := exists_drop ss o.index
  have hcollect : Group.collect options
      (fun i q => Group.isLeading (found.map (·.relabel (position ss))) i && options.relocates q)
      (position ss o.boundary) start (widened (ss.drop o.index)) =
        Prod.map (List.map (position ss)) (position ss)
        (Group.collect options
          (fun i q => Group.isLeading found i && options.relocates q) o.boundary
          o.index (original (ss.drop o.index))) :=
    collect_widened position_le_iff (fun i q => by rw [isLeading_widened]) hrelabels
  rw [hdrop, collect_fillers hgap, ← hposition, original, List.map_drop, ← original,
    Group.collect_ofOccurrence] at hcollect
  have hmembers := congrArg Prod.fst hcollect
  have hstart := congrArg Prod.snd hcollect
  exact (Group.mk.injEq ..).mpr ⟨hmembers, hstart, rfl⟩

/-- The groups that start at the same occurrences are the same, where the fillers have put them. -/
theorem groupsFrom_widened {free free' : Nat}
    (hfree : ∀ o ∈ os, free' ≤ position ss o.index ↔ free ≤ o.index) :
    Group.groupsFrom options (widened ss) (found.map (·.relabel (position ss))) free'
        (os.map (·.relabel (position ss))) =
      (Group.groupsFrom options (original ss) found free os).map (·.relabel (position ss)) := by
  induction os generalizing free free' with
  | nil => rfl
  | cons o os ih =>
    rw [List.forall_mem_cons] at hfree
    have hstarts : (o.relabel (position ss)).role = .leading ∧
        free' ≤ (o.relabel (position ss)).index ↔
        o.role = .leading ∧ free ≤ o.index := and_congr_right fun _ => hfree.1
    have hlater := @ih (Group.ofOccurrence options (original ss) found o).typeStart _
      fun _ _ => position_le_iff
    rw [List.map_cons, Group.groupsFrom, Group.groupsFrom, ofOccurrence_widened]
    by_cases h : o.role = .leading ∧ free ≤ o.index
    · rw [if_pos (hstarts.2 h), if_pos h]
      dsimp only [Group.relabel]
      rw [hlater, List.isEmpty_map]
      split <;> rfl
    · rw [if_neg (mt hstarts.1 h), if_neg h]
      exact ih hfree.2

/-- A type has the same extent, and is refused for the same reason. -/
theorem extent_widened (group : Group) :
    (group.relabel (position ss)).extent options (widened ss) =
      (group.extent options (original ss)).map (TypeExtent.relabel (position ss)) := by
  obtain ⟨gap, start, hgap, hdrop, hposition, hrelabels⟩ := exists_drop ss group.typeStart
  have hsignificant : TypeExtent.significantFrom (position ss group.boundary) start
      (widened (ss.drop group.typeStart)) = _ := significantFrom_widened position_le_iff hrelabels
  rw [hdrop, significantFrom_fillers hgap, ← hposition, original,
    List.map_drop, ← original] at hsignificant
  rw [Group.extent, Group.extent, TypeExtent.find, TypeExtent.find, TypeExtent.significantBetween,
    TypeExtent.significantBetween, ← TypeExtent.scan_relabel, ← hsignificant]
  rfl

theorem movesTo_widened (anchor : Nat) (members : List Nat) :
    Plan.movesTo (widened ss) (position ss anchor) (members.map (position ss)) =
      (Plan.movesTo (original ss) anchor members).map (·.relabel (position ss)) := by
  rw [Plan.movesTo, Plan.movesTo, List.filterMap_map, List.map_filterMap]
  congr 1
  funext i
  rw [Function.comp_apply, getElem?_position, Option.map_map]
  rfl

end

section

variable {options : Options} {ss : List Spaced} {last : Spaced}

/-- The groups of widened tokens are those of the original ones, at their new places. -/
theorem groups_widened (hend : last.token.kind = .endOfInput)
    (hss : ∀ s ∈ ss, s.token.kind ≠ .endOfInput) (hnames : keepsNames .lineStart ss = true) :
    groups options (widened (ss ++ [last])) =
      (groups options (original (ss ++ [last]))).map (·.relabel (position (ss ++ [last]))) := by
  rw [groups, groups, occurrences_widened hend hss hnames]
  exact groupsFrom_widened fun o _ => iff_of_true (Nat.zero_le _) (Nat.zero_le _)

theorem movable_widened (hend : last.token.kind = .endOfInput)
    (hss : ∀ s ∈ ss, s.token.kind ≠ .endOfInput) (hnames : keepsNames .lineStart ss = true) :
    movable options (widened (ss ++ [last])) =
      (movable options (original (ss ++ [last]))).map fun e =>
        (e.1.relabel (position (ss ++ [last])), position (ss ++ [last]) e.2) := by
  rw [movable, movable, groups_widened hend hss hnames, List.filterMap_map, List.map_filterMap]
  congr 1
  funext group
  rw [Function.comp_apply, extent_widened]
  cases group.extent options (original (ss ++ [last])) <;> rfl

/-- Groups are refused for the same reasons in the same order. -/
theorem refusals_widened (hend : last.token.kind = .endOfInput)
    (hss : ∀ s ∈ ss, s.token.kind ≠ .endOfInput) (hnames : keepsNames .lineStart ss = true) :
    (refusedGroups options (widened (ss ++ [last]))).map (·.refusal) =
      (refusedGroups options (original (ss ++ [last]))).map (·.refusal) := by
  rw [refusedGroups, refusedGroups, groups_widened hend hss hnames, List.filterMap_map,
    List.map_filterMap, List.map_filterMap]
  congr 1
  funext group
  rw [Function.comp_apply, extent_widened]
  cases group.extent options (original (ss ++ [last])) <;> rfl

/-- Fillers put before any tokens, but not between the name of a macro and a parenthesis that
touches it, change no role, no move and no refusal. Only the indices differ, and they name the same
tokens. -/
theorem layout_independent (options : Options) (hend : last.token.kind = .endOfInput)
    (hss : ∀ s ∈ ss, s.token.kind ≠ .endOfInput) (hnames : keepsNames .lineStart ss = true) :
    (∀ i, (widened (ss ++ [last]))[position (ss ++ [last]) i]? = (original (ss ++ [last]))[i]?) ∧
    (∀ i j, i < j → position (ss ++ [last]) i < position (ss ++ [last]) j) ∧
    occurrences options (widened (ss ++ [last])) =
      (occurrences options (original (ss ++ [last]))).map (·.relabel (position (ss ++ [last]))) ∧
    (Plan.ofTokens options (widened (ss ++ [last]))).moves =
      (Plan.ofTokens options (original (ss ++ [last]))).moves.map
        (·.relabel (position (ss ++ [last]))) ∧
    (refusedGroups options (widened (ss ++ [last]))).map (·.refusal.code) =
      (refusedGroups options (original (ss ++ [last]))).map (·.refusal.code) := by
  refine ⟨getElem?_position _, fun i j => position_lt, occurrences_widened hend hss hnames, ?_, ?_⟩
  · rw [Plan.ofTokens_moves, Plan.ofTokens_moves, movable_widened hend hss hnames, List.flatMap_map,
      List.map_flatMap]
    congr 1
    funext e
    exact movesTo_widened e.2 e.1.members
  · have hrefusals : _ = (refusedGroups options (original (ss ++ [last]))).map (·.refusal) :=
      refusals_widened hend hss hnames
    have hcodes := congrArg (List.map Refusal.code) hrefusals
    rwa [List.map_map, List.map_map] at hcodes

/-- A macro with parameters whose body is refused, and a qualifier that moves, with comments and
blanks in both. -/
theorem layout_independent_define :
    ∃ ss, original ss = tokens "#define F()const T;\nconst int x;".toList ∧
      widened ss = tokens "# define F() const/**/ T;\nconst /**/int x;/**/".toList ∧
      (Plan.ofTokens {} (original ss)).moves = [⟨11, 13, .const⟩] ∧
      (Plan.ofTokens {} (widened ss)).moves = [⟨14, 17, .const⟩] ∧
      (refusedGroups {} (widened ss)).map (·.refusal.code) = ["implicit-int"] := by
  obtain ⟨ss, hss⟩ : ∃ ss : List Spaced, ss =
      [bare ⟨.punctuation, ['#']⟩,
       { gap := [⟨.whitespace, [' ']⟩], token := ⟨.identifier, "define".toList⟩ },
       bare ⟨.whitespace, [' ']⟩, bare ⟨.identifier, ['F']⟩, bare ⟨.punctuation, ['(']⟩,
       bare ⟨.punctuation, [')']⟩,
       { gap := [⟨.whitespace, [' ']⟩], token := ⟨.keyword, "const".toList⟩ },
       { gap := [⟨.comment, "/**/".toList⟩], token := ⟨.whitespace, [' ']⟩ },
       bare ⟨.identifier, ['T']⟩, bare ⟨.punctuation, [';']⟩, bare ⟨.whitespace, ['\n']⟩,
       bare ⟨.keyword, "const".toList⟩, bare ⟨.whitespace, [' ']⟩,
       { gap := [⟨.comment, "/**/".toList⟩], token := ⟨.keyword, "int".toList⟩ },
       bare ⟨.whitespace, [' ']⟩, bare ⟨.identifier, ['x']⟩, bare ⟨.punctuation, [';']⟩] := ⟨_, rfl⟩
  obtain ⟨last, hlast⟩ : ∃ last : Spaced, last =
      { gap := [⟨.comment, "/**/".toList⟩], token := .endOfInput } := ⟨_, rfl⟩
  have hend : last.token.kind = .endOfInput := by rw [hlast]; rfl
  have hkinds : ∀ s ∈ ss, s.token.kind ≠ .endOfInput := by rw [hss]; decide
  have hnames : keepsNames .lineStart ss = true := by rw [hss]; decide +kernel
  have horiginal : (Plan.ofTokens {} (original (ss ++ [last]))).moves = [⟨11, 13, .const⟩] := by
    rw [hss, hlast]
    decide +kernel
  obtain ⟨-, -, -, hmoves, hrefusals⟩ := layout_independent {} hend hkinds hnames
  refine ⟨ss ++ [last], ?_, ?_, horiginal, ?_, ?_⟩
  · rw [hss, hlast]
    decide +kernel
  · rw [hss, hlast]
    decide +kernel
  · rw [hmoves, horiginal, hss, hlast]
    rfl
  · rw [hrefusals, hss, hlast]
    decide +kernel

end

end Spaced

end EastConst
