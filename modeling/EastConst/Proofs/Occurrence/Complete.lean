import EastConst.Proofs.Directive.Line
import EastConst.Proofs.Token.Reading

/-!
# Every qualifier is found once

Of the tokens of a source, the walk finds the qualifiers that are in no directive and those in the
bodies of macros, each of them once and from first to last. The type of a qualifier outside
directives may reach to the end of the input, and the type of one in a macro to the end of its line
(`occurrences_complete`).
-/

namespace EastConst

/-- Whether an index lies in no directive. -/
def OutsideDirectives (ts : List Token) (index : Nat) : Prop :=
  ∀ start stop, IsDirective ts start stop → index < start ∨ stop ≤ index

theorem exists_ofToken?_iff {t : Token} :
    (∃ q, Qualifier.ofToken? t = some q) ↔
      t.isKeyword "const" = true ∨ t.isKeyword "volatile" = true := by
  have hconst : "const".toList = Qualifier.const.text := by decide
  have hvolatile : "volatile".toList = Qualifier.volatile.text := by decide
  simp only [Token.isKeyword, Bool.and_eq_true, beq_iff_eq, hconst, hvolatile, ← and_or_left]
  unfold Qualifier.ofToken? Qualifier.ofText?
  split
  · rename_i hk
    rw [and_iff_right hk]
    split
    · rename_i h
      simp [h]
    · split
      · rename_i h
        simp [h]
      · rename_i h h'
        simp [h, h']
  · rename_i hk
    simp [hk]

/-- Every index of the tokens of segments lies in one of them. -/
theorem exists_segment_of_lt {segs : List Segment} {k : Nat}
    (h : k < (Segment.flatten segs).length) :
    ∃ pre s post, segs = pre ++ s :: post ∧ (Segment.flatten pre).length ≤ k ∧
      k < (Segment.flatten pre).length + s.tokens.length := by
  induction segs generalizing k with
  | nil => cases h
  | cons s segs ih =>
    rw [Segment.flatten_cons, List.length_append] at h
    by_cases hk : k < s.tokens.length
    · exact ⟨[], s, segs, rfl, Nat.zero_le _, by simpa using hk⟩
    · obtain ⟨pre, s', post, rfl, hle, hlt⟩ := @ih (k - s.tokens.length) (by omega)
      refine ⟨s :: pre, s', post, rfl, ?_, ?_⟩
      · rw [Segment.flatten_cons, List.length_append]
        omega
      · rw [Segment.flatten_cons, List.length_append]
        omega

section

variable {options : Options} {ts : List Token} {o : Occurrence}

/-- The directive of a segment, by the indices of its tokens. -/
theorem isDirective_of_segments (hts : Terminated ts) {pre post : List Segment} {d : List Token}
    (h : segments ts = pre ++ .directive d :: post) :
    IsDirective ts (Segment.flatten pre).length ((Segment.flatten pre).length + d.length) ∧
      ts.extract (Segment.flatten pre).length ((Segment.flatten pre).length + d.length) = d := by
  obtain ⟨after, hts', hdirects, -⟩ := directs_of_segments h
  have hd : ts.extract (Segment.flatten pre).length ((Segment.flatten pre).length + d.length) =
      d := by
    rw [hts', List.append_assoc, List.extract_eq_take_drop, List.drop_left, Nat.add_sub_cancel_left,
      List.take_left]
  refine ⟨(isDirective_iff_segments hts).2 ⟨pre, post, ?_, rfl, ?_⟩, hd⟩
  · rw [hd]
    exact h
  · rw [hd]

/-- Outside and inside directives, an occurrence lies in the segment of its index. -/
theorem Occurrence.Outside.outsideDirectives (hts : Terminated ts)
    {pre post : List Segment} {t : Token}
    (ho : o.Outside options ts pre post t) : OutsideDirectives ts o.index := by
  intro start stop hdirective
  obtain ⟨pre', post', hsegs, hstart, hstop⟩ := (isDirective_iff_segments hts).1 hdirective
  have hindex := ho.index
  refine Decidable.byContradiction fun hin => ?_
  obtain ⟨-, heq⟩ := segment_unique hsegs ho.segments (k := o.index) (by omega)
    (by rw [Segment.tokens]; omega) (by omega) (by simp [Segment.tokens]; omega)
  cases heq

theorem Occurrence.Inside.exists_inBody (hts : Terminated ts) {pre post : List Segment}
    {front before after : List Token} {t : Token}
    (ho : o.Inside options ts pre post front before after t) :
    ∃ start name, DefinesMacro ts start o.boundary name ∧ InBody ts o.boundary name o.index := by
  obtain ⟨hdirective, hd⟩ := isDirective_of_segments hts ho.segments
  obtain ⟨hge, hlt, hboundary⟩ := ho.bounds
  rw [Segment.tokens] at hboundary
  rw [← hboundary] at hdirective hd
  have hbody := ho.body
  rw [← hd] at hbody
  obtain ⟨name, hdefines, heq⟩ := hdirective.macroBody?_iff.1 hbody
  refine ⟨_, name, hdefines, (hdefines.inBody_iff hlt).1 ?_⟩
  rw [← heq, ho.boundary, ho.index]
  simp
  omega

/-- In a directive, types end with its line. -/
theorem boundary_eq_of_isDirective (hts : Terminated ts) (ho : o ∈ occurrences options ts)
    {start stop : Nat}
    (h : IsDirective ts start stop) (hstart : start ≤ o.index) (hstop : o.index < stop) :
    o.boundary = stop := by
  rcases mem_occurrences ho with ⟨pre, post, t, ho⟩ | ⟨pre, post, front, before, after, t, ho⟩
  · rcases ho.outsideDirectives hts _ _ h with hout | hout <;> omega
  · obtain ⟨pre', post', hsegs, hstart', hstop'⟩ := (isDirective_iff_segments hts).1 h
    obtain ⟨hge, hlt, hboundary⟩ := ho.bounds
    obtain ⟨hpre, hd⟩ := segment_unique hsegs ho.segments (k := o.index) (by omega)
      (by rw [Segment.tokens]; omega) hge (by omega)
    rw [hboundary, ← hd, ← hpre, Segment.tokens, hstart', hstop']

section

variable {index : Nat} {t : Token} {q : Qualifier}

/-- A qualifier is in a segment, like everything before the end of the input. -/
theorem exists_segment_of_qualifier (hts : Terminated ts) (ht : ts[index]? = some t)
    (hq : Qualifier.ofToken? t = some q) :
    ∃ pre s post, segments ts = pre ++ s :: post ∧ (Segment.flatten pre).length ≤ index ∧
      index < (Segment.flatten pre).length + s.tokens.length := by
  apply exists_segment_of_lt
  rw [segments_flatten]
  refine Nat.lt_of_not_le fun hle => ?_
  rw [hts, List.getElem?_append_right hle] at ht
  obtain rfl := List.mem_singleton.1 (List.mem_of_getElem? ht)
  cases Token.kind_of_qualifier hq

/-- The walk finds every qualifier outside directives. -/
theorem exists_occurrence_of_outside (hts : Terminated ts) (ht : ts[index]? = some t)
    (hq : Qualifier.ofToken? t = some q) (h : OutsideDirectives ts index) :
    ∃ o ∈ occurrences options ts, o.index = index := by
  obtain ⟨pre, s, post, hsegs, hle, hlt⟩ := exists_segment_of_qualifier hts ht hq
  cases s with
  | token u =>
    have hindex : (Segment.flatten pre).length = index := by
      simp only [Segment.tokens, List.length_singleton] at hlt
      omega
    have hget := getElem?_of_segments (k := 0) hsegs rfl
    rw [Nat.add_zero, hindex, ht] at hget
    obtain rfl := Option.some.inj hget
    refine ⟨⟨index, q, (Walk.runSegments options {} pre).role, ts.length - 1⟩, ?_, rfl⟩
    refine mem_occurrencesInSegments_iff.2 ⟨pre, _, post, hsegs, mem_occurrencesIn_iff.2 ?_⟩
    exact ⟨[], t, [], q, rfl, hq, by rw [Nat.zero_add, hindex]; rfl⟩
  | directive d =>
    rcases h _ _ (isDirective_of_segments hts hsegs).1 with hout | hout
    · omega
    · exact absurd hlt (Nat.not_lt.2 hout)

/-- The walk finds every qualifier in the body of a macro. -/
theorem exists_occurrence_of_inBody (hts : Terminated ts) (ht : ts[index]? = some t)
    (hq : Qualifier.ofToken? t = some q) {start stop name : Nat}
    (hdefines : DefinesMacro ts start stop name)
    (hbody : InBody ts stop name index) : ∃ o ∈ occurrences options ts, o.index = index := by
  have hindex := hbody.beforeStop
  have hlt := hdefines.directive.stop_lt
  obtain ⟨pre, post, hsegs, hstart, -⟩ := (isDirective_iff_segments hts).1 hdefines.directive
  have hsome := hdefines.directive.macroBody?_iff.2 ⟨name, hdefines, rfl⟩
  have hge := (hdefines.inBody_iff hindex).2 hbody
  generalize afterParameters (ts.extract (name + 1) stop) = body at hsome hge
  obtain ⟨front, hd, -⟩ := macroBody?_eq_some hsome
  have hlen := congrArg List.length hd
  rw [length_extract (Nat.le_of_lt hlt), List.length_append] at hlen
  have hget : (ts.extract start stop)[index - start]? = some t := by
    rw [List.getElem?_take_of_lt (by omega), List.getElem?_drop, Nat.add_sub_cancel' (by omega), ht]
  rw [hd, List.getElem?_append_right (by omega)] at hget
  -- the qualifier splits the body
  obtain ⟨hk, ht'⟩ := List.getElem?_eq_some_iff.1 hget
  have hsplit := (List.take_append_drop (index - start - front.length) body).symm
  rw [List.drop_eq_getElem_cons hk, ht'] at hsplit
  refine ⟨⟨index, q, ((Walk.runSegments options {} pre).enterBody.run options
    (body.take (index - start - front.length))).role, stop⟩, ?_, rfl⟩
  refine mem_occurrencesInSegments_iff.2 ⟨pre, _, post, hsegs, ?_⟩
  rw [Segment.occurrences, occurrencesInDirective, hsome]
  refine mem_occurrencesIn_iff.2 ⟨_, t, _, q, hsplit, hq, ?_⟩
  rw [length_extract (Nat.le_of_lt hlt), List.length_take, Nat.min_eq_left (Nat.le_of_lt hk)]
  congr 1 <;> omega

end

end

/-- The walk lists the qualifiers outside directives and in the bodies of macros, in the order in
which they stand, and nothing else. Each is listed with the index that its type cannot reach: the
end of the input, or the token that ends the line of its directive. -/
theorem occurrences_complete (options : Options) (source : List Char) :
    (occurrences options (tokens source)).Pairwise (·.index < ·.index) ∧
      (∀ index, (∃ o ∈ occurrences options (tokens source), o.index = index) ↔
        (∃ t, (tokens source)[index]? = some t ∧
          (t.isKeyword "const" = true ∨ t.isKeyword "volatile" = true)) ∧
        (OutsideDirectives (tokens source) index ∨
          ∃ start stop name, DefinesMacro (tokens source) start stop name ∧
            InBody (tokens source) stop name index)) ∧
      ∀ o ∈ occurrences options (tokens source),
        o.index < o.boundary ∧
        (OutsideDirectives (tokens source) o.index →
          o.boundary = (tokens source).length - 1 ∧
          (tokens source)[o.boundary]? = some Token.endOfInput) ∧
        ∀ start stop, IsDirective (tokens source) start stop → start ≤ o.index → o.index < stop →
          o.boundary = stop := by
  have hts := tokens_terminated source
  refine ⟨occurrencesInSegments_pairwise _ _ _ _ _, fun index => ⟨?_, ?_⟩, fun o ho => ⟨?_, ?_, ?_⟩⟩
  · rintro ⟨o, ho, rfl⟩
    obtain ⟨⟨t, ht, hq⟩, -⟩ := mem_occurrences_index hts ho
    refine ⟨⟨t, ht, exists_ofToken?_iff.1 ⟨_, hq⟩⟩, ?_⟩
    rcases mem_occurrences ho with ⟨pre, post, t, ho⟩ | ⟨pre, post, front, before, after, t, ho⟩
    · exact .inl (ho.outsideDirectives hts)
    · obtain ⟨start, name, hdefines, hbody⟩ := ho.exists_inBody hts
      exact .inr ⟨start, _, name, hdefines, hbody⟩
  · rintro ⟨⟨t, ht, hkeyword⟩, hplace⟩
    obtain ⟨q, hq⟩ := exists_ofToken?_iff.2 hkeyword
    rcases hplace with hout | ⟨start, stop, name, hdefines, hbody⟩
    · exact exists_occurrence_of_outside hts ht hq hout
    · exact exists_occurrence_of_inBody hts ht hq hdefines hbody
  · exact (mem_occurrences_index hts ho).2.1
  · intro hout
    rcases mem_occurrences ho with ⟨pre, post, t, ho⟩ | ⟨pre, post, front, before, after, t, ho⟩
    · refine ⟨ho.boundary, ?_⟩
      rw [ho.boundary]
      simp [tokens]
    · obtain ⟨hdirective, -⟩ := isDirective_of_segments hts ho.segments
      obtain ⟨hge, hlt, hboundary⟩ := ho.bounds
      rw [Segment.tokens] at hboundary
      rcases hout _ _ hdirective with hout | hout <;> omega
  · intro start stop hdirective hstart hstop
    exact boundary_eq_of_isDirective hts ho hdirective hstart hstop

/-- Of the two qualifiers of a macro, the one among the parameters is not found, and the type of the
other ends with the line. -/
theorem occurrences_complete_in_define :
    IsDirective (tokens "#define F(const) volatile\nint".toList) 0 9 ∧
      (¬ ∃ o ∈ occurrences {} (tokens "#define F(const) volatile\nint".toList), o.index = 5) ∧
      ∃ o ∈ occurrences {} (tokens "#define F(const) volatile\nint".toList),
        o.index = 8 ∧ o.boundary = 9 := by
  generalize hts : tokens "#define F(const) volatile\nint".toList = ts
  have hsegs : segments ts =
      [] ++ .directive [⟨.punctuation, ['#']⟩, ⟨.identifier, "define".toList⟩,
      ⟨.whitespace, [' ']⟩, ⟨.identifier, ['F']⟩, ⟨.punctuation, ['(']⟩, ⟨.keyword, "const".toList⟩,
      ⟨.punctuation, [')']⟩, ⟨.whitespace, [' ']⟩, ⟨.keyword, "volatile".toList⟩] ::
        [.token ⟨.whitespace, ['\n']⟩, .token ⟨.keyword, "int".toList⟩] := by
    rw [← hts]
    decide +kernel
  have hfound : occurrences {} ts = [⟨8, .volatile, .leading, 9⟩] := by
    rw [← hts]
    decide +kernel
  obtain ⟨hdirective, -⟩ := isDirective_of_segments (hts ▸ tokens_terminated _) hsegs
  obtain ⟨-, -, hboundary⟩ := occurrences_complete {} "#define F(const) volatile\nint".toList
  rw [hts, hfound] at hboundary
  rw [hfound]
  refine ⟨hdirective, by decide, _, List.mem_singleton_self _, rfl, ?_⟩
  exact (hboundary _ (List.mem_singleton_self _)).2.2 0 9 hdirective (by decide) (by decide)

end EastConst
