import EastConst.Proofs.Directive
import EastConst.Proofs.Layout
import EastConst.Proofs.Occurrence.Around

/-!
# Directives that are passed over

A directive that is no `#define` leaves the walk as it was, and no qualifier is found in it. So the
walk finds with the directive what it finds without it, and only the indices after the directive are
others (`occurrences_insert_directive`).

`occurrencesInSegments_relabel` says this of segments by themselves: wherever their tokens come to
stand, the same qualifiers are found there.
-/

namespace EastConst

/-! ## Segments at another place -/

section

variable {options : Options} {φ : Nat → Nat} {b b' i i' : Nat} {w : Walk}

/-- The same tokens at another place have the same qualifiers, at that place. -/
theorem occurrencesIn_relabel {ts : List Token} (hindex : ∀ j < ts.length, φ (i + j) = i' + j)
    (hb : φ b = b') :
    occurrencesIn options b' w i' ts = (occurrencesIn options b w i ts).map (·.relabel φ) := by
  induction ts generalizing w i i' with
  | nil => rfl
  | cons t ts ih =>
    have hhead : φ i = i' := hindex 0 (Nat.zero_lt_succ _)
    have htail : ∀ j < ts.length, φ (i + 1 + j) = i' + 1 + j := by
      intro j hj
      rw [Nat.add_right_comm, Nat.add_right_comm i' 1 j]
      exact hindex (j + 1) (Nat.succ_lt_succ hj)
    have hrest := ih (w := w.step options t) htail
    rw [occurrencesIn, occurrencesIn, hrest]
    cases Qualifier.ofToken? t with
    | none => rfl
    | some q =>
      rw [List.map_cons, Occurrence.relabel, hhead, hb]

theorem occurrencesInDirective_relabel {d : List Token}
    (hindex : ∀ j ≤ d.length, φ (i + j) = i' + j) :
    occurrencesInDirective options w i' d =
      (occurrencesInDirective options w i d).map (·.relabel φ) := by
  rw [occurrencesInDirective, occurrencesInDirective]
  cases hbody : macroBody? d with
  | none => rfl
  | some body =>
    obtain ⟨front, rfl, -⟩ := macroBody?_eq_some hbody
    have hstart (k : Nat) : k + (front ++ body).length - body.length = k + front.length := by
      rw [List.length_append]
      omega
    dsimp only
    rw [hstart, hstart]
    refine occurrencesIn_relabel ?_ (hindex _ (Nat.le_refl _))
    intro j hj
    rw [Nat.add_assoc, Nat.add_assoc]
    apply hindex
    rw [List.length_append]
    omega

/-- Segments have the same qualifiers wherever their tokens come to stand. The end of a directive is
the boundary of the qualifiers in it. -/
theorem occurrencesInSegments_relabel {segs : List Segment}
    (hindex : ∀ j < (Segment.flatten segs).length, φ (i + j) = i' + j)
    (hstop : ∀ pre d post, segs = pre ++ .directive d :: post →
      φ (i + (Segment.flatten (pre ++ [.directive d])).length) =
        i' + (Segment.flatten (pre ++ [.directive d])).length) :
    occurrencesInSegments options (φ b) w i' segs =
      (occurrencesInSegments options b w i segs).map (·.relabel φ) := by
  induction segs generalizing w i i' with
  | nil => rfl
  | cons s segs ih =>
    rw [Segment.flatten_cons, List.length_append] at hindex
    have hrest : occurrencesInSegments options (φ b) (w.segment options s)
        (i' + s.tokens.length) segs =
        (occurrencesInSegments options b (w.segment options s) (i + s.tokens.length) segs).map
          (·.relabel φ) := by
      apply ih
      · intro j hj
        rw [Nat.add_assoc, Nat.add_assoc]
        exact hindex _ (Nat.add_lt_add_left hj _)
      · intro pre d post hsegs
        have hend := hstop (s :: pre) d post (congrArg (s :: ·) hsegs)
        rwa [List.cons_append, Segment.flatten_cons, List.length_append, ← Nat.add_assoc,
          ← Nat.add_assoc] at hend
    rw [occurrencesInSegments_cons, occurrencesInSegments_cons, List.map_append, hrest]
    congr 1
    cases s with
    | token t =>
      refine occurrencesIn_relabel (fun j hj => hindex j ?_) rfl
      rw [Segment.tokens]
      omega
    | directive d =>
      refine occurrencesInDirective_relabel fun j hj => ?_
      rcases Nat.lt_or_eq_of_le hj with hlt | rfl
      · exact hindex j (Nat.lt_add_right _ hlt)
      · simpa [Segment.tokens] using hstop [] d segs rfl

end

/-! ## A directive put in -/

/-- Where an index comes to stand when a number of tokens are put in before the token at `start`. -/
def shiftFrom (start count index : Nat) : Nat :=
  if index < start then index else index + count

theorem shiftFrom_of_lt {start count index : Nat} (h : index < start) :
    shiftFrom start count index = index := if_pos h

theorem shiftFrom_of_le {start count index : Nat} (h : start ≤ index) :
    shiftFrom start count index = index + count := if_neg (Nat.not_lt.2 h)

/-- Whether what follows some tokens is at the start of a line outside directives, or behind the end
of the input. -/
def ReachesLineStart (before : List Token) : Prop :=
  before.foldl Place.after .lineStart = .lineStart ∨ ∃ t ∈ before, t.kind = .endOfInput

/-- What comes after the end of the input is not read. -/
theorem beforeEnd_append_of_ended {before : List Token} (h : ∃ t ∈ before, t.kind = .endOfInput)
    (after : List Token) :
    beforeEnd (before ++ after) = beforeEnd before ∧ (beforeEnd before).length < before.length := by
  obtain ⟨t, ht, hk⟩ := h
  have hlt : (beforeEnd before).length < before.length := by
    refine Nat.lt_of_le_of_ne (List.takeWhile_prefix _).length_le fun heq => ?_
    have hself : beforeEnd before = before := (List.takeWhile_prefix _).eq_of_length heq
    have hall : ∀ u ∈ beforeEnd before, (u.kind != .endOfInput) = true :=
      List.all_eq_true.1 List.all_takeWhile
    rw [hself] at hall
    simpa [hk] using hall t ht
  refine ⟨?_, hlt⟩
  rw [beforeEnd, List.takeWhile_append]
  exact if_neg (Nat.ne_of_lt hlt)

section

variable {options : Options} {before d after : List Token}

/-- Before a directive that is put in, all indices stay: a line ends after each directive there. -/
theorem Directs.relabel_before (h : Directs before d after) (b : Nat) :
    occurrencesInSegments options (shiftFrom before.length d.length b) {} 0 (segments before) =
      (occurrencesInSegments options b {} 0 (segments before)).map
        (·.relabel (shiftFrom before.length d.length)) := by
  have hflat := h.flatten_segments_before
  apply occurrencesInSegments_relabel
  · intro j hj
    rw [hflat] at hj
    exact shiftFrom_of_lt (by omega)
  · intro pre d' post hsegs
    have hlt : (Segment.flatten (pre ++ [.directive d'])).length < before.length := by
      have hseg := h.segments_eq
      rw [hsegs] at hseg hflat
      rw [← hflat]
      cases post with
      | nil =>
        -- the directive would be followed by the one that is put in
        have hseg' : segments (before ++ d ++ after) =
            pre ++ .directive d' :: .directive d :: segments after := by simpa using hseg
        obtain ⟨t, heq, -⟩ := endsLine_of_directive_append hseg'
        cases heq
      | cons s post =>
        obtain ⟨t, rfl, -⟩ := endsLine_of_directive_append hsegs
        simp [Segment.tokens]
    exact shiftFrom_of_lt (by omega)

/-- After a directive that is put in, all indices are shifted. -/
theorem relabel_after (w : Walk) (b : Nat) :
    occurrencesInSegments options (shiftFrom before.length d.length b) w (before.length + d.length)
        (segments after) =
      (occurrencesInSegments options b w before.length (segments after)).map
        (·.relabel (shiftFrom before.length d.length)) := by
  apply occurrencesInSegments_relabel
  · intro j _
    rw [shiftFrom_of_le (by omega)]
    omega
  · intro pre d' post _
    rw [shiftFrom_of_le (by omega)]
    omega

/-- A directive without a body is passed over. -/
theorem Directs.occurrences_relabel (h : Directs before d after)
    (hbody : macroBody? d = none) (b : Nat) :
    occurrencesInSegments options (shiftFrom before.length d.length b) {} 0
      (segments (before ++ d ++ after)) =
      (occurrencesInSegments options b {} 0 (segments (before ++ after))).map
        (·.relabel (shiftFrom before.length d.length)) := by
  have hinput : ∀ t ∈ before, t.kind ≠ .endOfInput :=
    fun t ht => h.inInput t (List.mem_append_left _ ht)
  have hwalk (w : Walk) : w.segment options (.directive d) = w := by
    rw [Walk.segment, Walk.directive, hbody]
  have hnone (b : Nat) (w : Walk) (i : Nat) :
      (Segment.directive d).occurrences options b w i = [] := by
    rw [Segment.occurrences, occurrencesInDirective, hbody]
  rw [h.segments_eq, segments_append_of_lineStart h.start hinput, occurrencesInSegments_append,
    occurrencesInSegments_append, occurrencesInSegments_cons, hnone, hwalk, List.nil_append,
    Segment.tokens,
    h.flatten_segments_before, Nat.zero_add, List.map_append, h.relabel_before, relabel_after]

/-- The walk does not come to what is put in behind the end of the input. -/
theorem occurrences_relabel_of_ended (hended : ∃ t ∈ before, t.kind = .endOfInput) (n b : Nat)
    (ts us : List Token) :
    occurrencesInSegments options (shiftFrom before.length n b) {} 0 (segments (before ++ ts)) =
      (occurrencesInSegments options b {} 0 (segments (before ++ us))).map
        (·.relabel (shiftFrom before.length n)) := by
  have hsegs (ts : List Token) : segments (before ++ ts) = segments before :=
    congrArg (segmentsFrom .lineStart) (beforeEnd_append_of_ended hended ts).1
  have hlen : (Segment.flatten (segments before)).length < before.length := by
    rw [segments_flatten]
    exact (beforeEnd_append_of_ended hended []).2
  rw [hsegs, hsegs]
  apply occurrencesInSegments_relabel
  · exact fun j hj => shiftFrom_of_lt (by omega)
  · intro pre d' post hsegs'
    rw [hsegs'] at hlen
    simp only [Segment.flatten_append, Segment.flatten_cons, List.length_append] at hlen
    refine shiftFrom_of_lt ?_
    simp only [Segment.flatten_append, Segment.flatten_cons, Segment.flatten_nil,
      List.length_append, List.length_nil]
    omega

/-- A directive that is no `#define` is invisible to the walk: with it, the same qualifiers are
found as without it, and those after it are shifted by its length. None is found in it. -/
theorem occurrences_insert_directive (options : Options) {before d after : List Token}
    (hbefore : ReachesLineStart before) (hhash : ∃ t rest, d = t :: rest ∧ t.isMark .hash = true)
    (hline : ∀ t ∈ d, t.endsLine = false ∧ t.kind ≠ .endOfInput) (hdefine : isDefine d = false)
    (hafter : ∃ t rest, after = t :: rest ∧ (t.endsLine = true ∨ t.kind = .endOfInput)) :
    occurrences options (before ++ d ++ after) =
        (occurrences options (before ++ after)).map (·.relabel (shiftFrom before.length d.length)) ∧
      ∀ o ∈ occurrences options (before ++ d ++ after),
        o.index < before.length ∨ before.length + d.length ≤ o.index := by
  obtain ⟨t, rest, rfl, ht⟩ := hafter
  have hboundary : (before ++ d ++ t :: rest).length - 1 =
      shiftFrom before.length d.length ((before ++ t :: rest).length - 1) := by
    rw [shiftFrom_of_le]
    · simp only [List.length_append, List.length_cons]
      omega
    · simp only [List.length_append, List.length_cons]
      omega
  have heq : occurrences options (before ++ d ++ t :: rest) =
      (occurrences options (before ++ t :: rest)).map
        (·.relabel (shiftFrom before.length d.length)) := by
    rw [occurrences, occurrences, hboundary]
    by_cases hended : ∃ t ∈ before, t.kind = .endOfInput
    · rw [List.append_assoc]
      exact occurrences_relabel_of_ended hended _ _ _ _
    · have hdirects : Directs before d (t :: rest) :=
        { start := hbefore.resolve_right hended
          inInput := fun u hu =>
            (List.mem_append.1 hu).elim (fun hu hk => hended ⟨u, hu, hk⟩) fun hu =>
            (hline u hu).2
          hash := hhash
          onLine := fun u hu => (hline u hu).1
          stop := by simpa [StopsLine] using ht }
      exact hdirects.occurrences_relabel (macroBody?_eq_none hdefine) _
  refine ⟨heq, fun o ho => ?_⟩
  rw [heq] at ho
  obtain ⟨o', -, rfl⟩ := List.mem_map.1 ho
  rw [Occurrence.relabel, shiftFrom]
  dsimp only
  split
  · rename_i hlt
    exact .inl hlt
  · right
    omega

/-- A directive with a qualifier in it, in the middle of parameters. -/
theorem occurrences_insert_directive_in_call :
    ∃ before d after, tokens "f(\n#if const\nconst int a);".toList = before ++ d ++ after ∧
      occurrences {} (before ++ after) = [⟨4, .const, .leading, 11⟩] ∧
      occurrences {} (before ++ d ++ after) = [⟨8, .const, .leading, 15⟩] := by
  have hfound : occurrences {}
      ([⟨.identifier, ['f']⟩, ⟨.punctuation, ['(']⟩, ⟨.whitespace, ['\n']⟩] ++
        [⟨.whitespace, ['\n']⟩, ⟨.keyword, "const".toList⟩, ⟨.whitespace, [' ']⟩,
         ⟨.keyword, "int".toList⟩, ⟨.whitespace, [' ']⟩, ⟨.identifier, ['a']⟩,
         ⟨.punctuation, [')']⟩, ⟨.punctuation, [';']⟩,
         .endOfInput]) = [⟨4, .const, .leading, 11⟩] := by decide +kernel
  refine ⟨_, [⟨.punctuation, ['#']⟩, ⟨.keyword, "if".toList⟩, ⟨.whitespace, [' ']⟩,
    ⟨.keyword, "const".toList⟩], _, by decide +kernel, hfound, ?_⟩
  rw [(occurrences_insert_directive {} (.inl (by decide)) ⟨_, _, rfl, by decide⟩
    (by decide) (by decide)
    ⟨_, _, rfl, .inl (by decide)⟩).1, hfound]
  rfl

end

end EastConst
