import EastConst.Proofs.Occurrence

/-!
# Qualifiers in a row

A qualifier has the role of the one before it, if only blanks and qualifiers are between
(`role_of_between`), and occurrences with no `#` between them have one boundary
(`boundary_eq_of_between`), which ends the line or the input (`exists_token_boundary`).
Occurrences are in the order of their indices (`occurrencesInSegments_pairwise`).
-/

namespace EastConst

/-! ## Positions in segments -/

/-- An index lies in one segment only. -/
theorem segment_unique {segs pre pre' post post' : List Segment} {s s' : Segment} {k : Nat}
    (h : segs = pre ++ s :: post) (h' : segs = pre' ++ s' :: post')
    (hk : (Segment.flatten pre).length ≤ k)
    (hks : k < (Segment.flatten pre).length + s.tokens.length)
    (hk' : (Segment.flatten pre').length ≤ k)
    (hks' : k < (Segment.flatten pre').length + s'.tokens.length) : pre = pre' ∧ s = s' := by
  have hlt {pre pre' post post' : List Segment} {s s' : Segment}
      (h : pre ++ s :: post = pre' ++ s' :: post') (hlen : pre.length < pre'.length) :
      (Segment.flatten pre).length + s.tokens.length ≤ (Segment.flatten pre').length := by
    obtain ⟨mid, rfl⟩ : pre <+: pre' :=
      List.prefix_of_prefix_length_le (List.prefix_append pre (s :: post))
        (h ▸ List.prefix_append _ _)
        (Nat.le_of_lt hlen)
    rw [List.append_assoc] at h
    have hrest := List.append_cancel_left h
    cases mid with
    | nil => simp at hlen
    | cons s'' mid =>
      obtain ⟨rfl, -⟩ := List.cons.inj hrest
      simp
  have heq := h.symm.trans h'
  rcases Nat.lt_trichotomy pre.length pre'.length with hlen | hlen | hlen
  · have := hlt heq hlen
    omega
  · obtain ⟨rfl, hrest⟩ := List.append_inj heq hlen
    exact ⟨rfl, (List.cons.inj hrest).1⟩
  · have := hlt heq.symm hlen
    omega

/-! ## After a qualifier -/

/-- What follows a token outside directives is cut from a place outside directives. -/
theorem segmentsFrom_of_token_append {place : Place} {ts : List Token} {pre post : List Segment}
    {t : Token} (h : segmentsFrom place ts = pre ++ .token t :: post) :
    post = segmentsFrom .lineStart (Segment.flatten post) ∨
      post = segmentsFrom .midLine (Segment.flatten post) := by
  induction ts generalizing place pre with
  | nil =>
    cases place with
    | lineStart => simp [segmentsFrom] at h
    | midLine => simp [segmentsFrom] at h
    | directive held =>
      rw [segmentsFrom] at h
      cases pre with
      | nil => simp at h
      | cons u pre => simp at h
  | cons u rest ih =>
    have hflat (place : Place) (hp : place.held = []) :
        Segment.flatten (segmentsFrom place rest) = rest := by
      rw [segmentsFrom_flatten, hp, List.nil_append]
    have htoken {place : Place} {pre : List Segment} (hp : place = .lineStart ∨ place = .midLine)
        (h : .token u :: segmentsFrom place rest = pre ++ .token t :: post) :
        post = segmentsFrom .lineStart (Segment.flatten post) ∨
          post = segmentsFrom .midLine (Segment.flatten post) := by
      cases pre with
      | nil =>
        obtain ⟨-, rfl⟩ := List.cons.inj h
        rcases hp with rfl | rfl
        · exact .inl (by rw [hflat _ rfl])
        · exact .inr (by rw [hflat _ rfl])
      | cons s pre => exact ih (List.cons.inj h).2
    cases place with
    | lineStart =>
      rw [segmentsFrom_lineStart] at h
      split at h
      · exact ih h
      · exact htoken (by split <;> simp) h
    | midLine =>
      rw [segmentsFrom_midLine] at h
      exact htoken (by split <;> simp) h
    | directive held =>
      rw [segmentsFrom_directive] at h
      split at h
      · cases pre with
        | nil => simp at h
        | cons s pre => exact htoken (.inl rfl) (List.cons.inj h).2
      · exact ih h

/-- Tokens after a token outside directives are outside directives, as long as none is a `#`. -/
theorem segments_after_token {place : Place} {ts mid rest : List Token} {pre post : List Segment}
    {t : Token} (h : segmentsFrom place ts = pre ++ .token t :: post)
    (hflat : Segment.flatten post = mid ++ rest) (hmid : ∀ u ∈ mid, u.isMark .hash = false) :
    ∃ post', post = mid.map .token ++ post' ∧ Segment.flatten post' = rest := by
  induction mid generalizing pre t post with
  | nil => exact ⟨post, rfl, hflat⟩
  | cons u mid ih =>
    have hu : u.isMark .hash = false := hmid u List.mem_cons_self
    obtain ⟨post', rfl⟩ : ∃ post', post = .token u :: post' := by
      rcases segmentsFrom_of_token_append h with hp | hp
      · rw [hp, hflat, List.cons_append, segmentsFrom_lineStart, if_neg (by simp [hu])]
        exact ⟨_, rfl⟩
      · rw [hp, hflat, List.cons_append, segmentsFrom_midLine]
        exact ⟨_, rfl⟩
    have h' : segmentsFrom place ts = (pre ++ [.token t]) ++ .token u :: post' := by simpa using h
    obtain ⟨post'', rfl, hrest⟩ := ih h' (by simpa [Segment.tokens] using hflat)
      fun v hv => hmid v (List.mem_cons_of_mem _ hv)
    exact ⟨post'', rfl, hrest⟩

/-- Blanks and qualifiers after a qualifier change nothing for the role of the next one. -/
theorem Walk.role_run_of_blank (options : Options) (w : Walk) {ts : List Token}
    (hts : ∀ t ∈ ts, t.kind = .whitespace ∨ (Qualifier.ofToken? t).isSome = true) :
    (w.run options ts).role = w.role := by
  induction ts generalizing w with
  | nil => rfl
  | cons t ts ih =>
    have hstep : (w.step options t).role = w.role := by
      rcases hts t List.mem_cons_self with hk | hq
      · rw [Walk.step_whitespace hk]
      · obtain ⟨q, hq⟩ := Option.isSome_iff_exists.1 hq
        exact Walk.role_step_qualifier hq
    exact (ih _ fun u hu => hts u (List.mem_cons_of_mem _ hu)).trans hstep

theorem Segment.flatten_tokens (ts : List Token) : Segment.flatten (ts.map .token) = ts := by
  induction ts with
  | nil => rfl
  | cons t ts ih =>
    rw [List.map_cons, Segment.flatten_cons, ih, Segment.tokens, List.singleton_append]

theorem Walk.runSegments_append (options : Options) (w : Walk) (segs segs' : List Segment) :
    w.runSegments options (segs ++ segs') =
      (w.runSegments options segs).runSegments options segs' :=
  List.foldl_append

theorem Walk.runSegments_tokens (options : Options) (w : Walk) (ts : List Token) :
    w.runSegments options (ts.map .token) = w.run options ts := by
  rw [Walk.runSegments, List.foldl_map]
  rfl

section

variable {options : Options} {tokens : List Token} {o : Occurrence}

theorem Occurrence.Outside.getElem? {pre post : List Segment} {t : Token}
    (hts : Terminated tokens) (ho : o.Outside options tokens pre post t) {k : Nat}
    (hk : o.index < k) (hk' : k < o.boundary) :
    tokens[k]? = (Segment.flatten post)[k - (o.index + 1)]? := by
  have hflat := segments_flatten tokens
  rw [ho.segments, Segment.flatten_append, Segment.flatten_cons] at hflat
  have hlt : k < (beforeEnd tokens).length := by
    rw [hts.length_beforeEnd, ← ho.boundary]
    exact hk'
  have hindex := ho.index
  rw [hts, List.getElem?_append_left hlt, ← hflat, List.getElem?_append_right (by omega),
    Segment.tokens, List.singleton_append, show k - (Segment.flatten pre).length =
      k - (o.index + 1) + 1 by omega, List.getElem?_cons_succ]

theorem Occurrence.Inside.getElem? {pre post : List Segment} {front before after : List Token}
    {t : Token} (ho : o.Inside options tokens pre post front before after t) {k : Nat}
    (hk : o.index < k) (hk' : k < o.boundary) : tokens[k]? = after[k - (o.index + 1)]? := by
  have hindex := ho.index
  have hboundary := ho.boundary
  have hlt : k - (o.index + 1) < after.length := by omega
  have hget : (Segment.directive (front ++ (before ++ t :: after))).tokens[
      front.length + (before.length + (k - (o.index + 1) + 1))]? =
        some after[k - (o.index + 1)] := by
    rw [Segment.tokens, List.getElem?_append_right (by omega),
      List.getElem?_append_right (by omega),
      Nat.add_sub_cancel_left, Nat.add_sub_cancel_left, List.getElem?_cons_succ]
    exact List.getElem?_eq_getElem hlt
  rw [List.getElem?_eq_getElem hlt, ← getElem?_of_segments ho.segments hget]
  congr 1
  omega

section

variable {pre post : List Segment} {mid rest : List Token} {t u : Token} {q : Qualifier}

theorem Token.isMark_hash_of_blank {v : Token}
    (h : v.kind = .whitespace ∨ (Qualifier.ofToken? v).isSome = true) : v.isMark .hash = false := by
  rcases h with hk | hq
  · simp [Token.isMark, Token.mark?, hk]
  · obtain ⟨q, hq⟩ := Option.isSome_iff_exists.1 hq
    simp [Token.isMark, Token.mark?, Token.kind_of_qualifier hq]

/-- Outside directives, a qualifier with only whitespace and qualifiers between has the role of the
one before it. -/
theorem Occurrence.Outside.role_after (ho : o.Outside options tokens pre post t)
    (hflat : Segment.flatten post = mid ++ u :: rest)
    (hmid : ∀ v ∈ mid, v.kind = .whitespace ∨ (Qualifier.ofToken? v).isSome = true)
    (hq : Qualifier.ofToken? u = some q) :
    ∃ o' ∈ occurrences options tokens, o'.index = o.index + 1 + mid.length ∧ o'.role = o.role ∧
      o'.qualifier = q := by
  have hhash : ∀ v ∈ mid ++ [u], v.isMark .hash = false := by
    intro v hv
    rcases List.mem_append.1 hv with hv | hv
    · exact Token.isMark_hash_of_blank (hmid v hv)
    · exact Token.isMark_hash_of_blank (.inr (by rw [List.mem_singleton.1 hv, hq]; rfl))
  obtain ⟨post', rfl, -⟩ := segments_after_token ho.segments
    (show Segment.flatten post = (mid ++ [u]) ++ rest by simpa using hflat) hhash
  have hsegs : EastConst.segments tokens = (pre ++ (t :: mid).map .token) ++ .token u :: post' := by
    simpa using ho.segments
  have hrun : (Walk.runSegments options {} (pre ++ (t :: mid).map .token)).role = o.role := by
    rw [Walk.runSegments_append, Walk.runSegments_tokens, ho.role]
    apply Walk.role_run_of_blank
    intro v hv
    rcases List.mem_cons.1 hv with rfl | hv
    · exact .inr (by rw [ho.qualifier]; rfl)
    · exact hmid v hv
  have hlen : (Segment.flatten (pre ++ (t :: mid).map .token)).length =
      o.index + 1 + mid.length := by
    rw [Segment.flatten_append, Segment.flatten_tokens, ho.index, List.length_append,
      List.length_cons]
    omega
  refine ⟨⟨o.index + 1 + mid.length, q, o.role, tokens.length - 1⟩, ?_, rfl, rfl, rfl⟩
  refine mem_occurrencesInSegments_iff.2 ⟨_, _, _, hsegs, mem_occurrencesIn_iff.2 ?_⟩
  refine ⟨[], u, [], q, rfl, hq, ?_⟩
  simp only [Walk.run, List.foldl_nil, List.length_nil, Nat.zero_add, Nat.add_zero, hrun, hlen]

/-- In a macro's body, a qualifier with only whitespace and qualifiers between has the role of the
one before it. -/
theorem Occurrence.Inside.role_after {front before : List Token}
    (ho : o.Inside options tokens pre post front before (mid ++ u :: rest) t)
    (hmid : ∀ v ∈ mid, v.kind = .whitespace ∨ (Qualifier.ofToken? v).isSome = true)
    (hq : Qualifier.ofToken? u = some q) :
    ∃ o' ∈ occurrences options tokens, o'.index = o.index + 1 + mid.length ∧ o'.role = o.role ∧
      o'.qualifier = q := by
  have hrun : ((Walk.runSegments options {} pre).enterBody.run options
      (before ++ t :: mid)).role = o.role := by
    rw [Walk.run, List.foldl_append, ho.role]
    apply Walk.role_run_of_blank
    intro v hv
    rcases List.mem_cons.1 hv with rfl | hv
    · exact .inr (by rw [ho.qualifier]; rfl)
    · exact hmid v hv
  have hindex := ho.index
  refine ⟨⟨o.index + 1 + mid.length, q, o.role, o.boundary⟩, ?_, rfl, rfl, rfl⟩
  refine mem_occurrencesInSegments_iff.2 ⟨pre, _, post, ho.segments, ?_⟩
  rw [Segment.occurrences, occurrencesInDirective, ho.body]
  refine mem_occurrencesIn_iff.2 ⟨before ++ t :: mid, u, rest, q, by simp, hq, ?_⟩
  rw [hrun, Occurrence.mk.injEq, ho.boundary]
  simp
  omega

/-- A qualifier has the role of the one before it, if only blanks and qualifiers are between. -/
theorem role_of_between (hts : Terminated tokens) (h : o ∈ occurrences options tokens) {j : Nat}
    (hj : o.index < j) (hjb : j < o.boundary)
    (hu : tokens[j]? = some u) (hq : Qualifier.ofToken? u = some q)
    (hbetween : ∀ k v, o.index < k → k < j → tokens[k]? = some v →
      v.kind = .whitespace ∨ (Qualifier.ofToken? v).isSome = true) :
    ∃ o' ∈ occurrences options tokens, o'.index = j ∧ o'.role = o.role ∧ o'.qualifier = q := by
  -- outside directives and inside a macro alike, `ts` are the tokens after the first qualifier
  have hsplit {ts : List Token} (hget : ∀ k, o.index < k → k < o.boundary →
      tokens[k]? = ts[k - (o.index + 1)]?) :
      ∃ mid rest, ts = mid ++ u :: rest ∧ o.index + 1 + mid.length = j ∧
        ∀ v ∈ mid, v.kind = .whitespace ∨ (Qualifier.ofToken? v).isSome = true := by
    rw [hget j hj hjb] at hu
    obtain ⟨hlt, rfl⟩ := List.getElem?_eq_some_iff.1 hu
    refine ⟨ts.take (j - (o.index + 1)), ts.drop (j - (o.index + 1) + 1), ?_, ?_, fun v hv => ?_⟩
    · rw [← List.drop_eq_getElem_cons hlt, List.take_append_drop]
    · rw [List.length_take_of_le (Nat.le_of_lt hlt)]
      omega
    · obtain ⟨i, hi⟩ := List.mem_iff_getElem?.1 hv
      rw [List.getElem?_take] at hi
      split at hi
      · rename_i hilt
        refine hbetween (o.index + 1 + i) v (by omega) (by omega) ?_
        rw [hget _ (by omega) (by omega), Nat.add_sub_cancel_left]
        exact hi
      · cases hi
  rcases mem_occurrences h with ⟨pre, post, t, ho⟩ | ⟨pre, post, front, before, after, t, ho⟩
  · obtain ⟨mid, rest, hflat, rfl, hmid⟩ := hsplit fun k => ho.getElem? hts
    exact ho.role_after hflat hmid hq
  · obtain ⟨mid, rest, rfl, rfl, hmid⟩ := hsplit fun k => ho.getElem?
    exact ho.role_after hmid hq

end

/-- A qualifier in a macro's body stands in the directive, whose end is its boundary. -/
theorem Occurrence.Inside.bounds {pre post : List Segment} {front before after : List Token}
    {t : Token} (ho : o.Inside options tokens pre post front before after t) :
    (Segment.flatten pre).length ≤ o.index ∧ o.index < o.boundary ∧
      o.boundary = (Segment.flatten pre).length +
        (Segment.directive (front ++ (before ++ t :: after))).tokens.length := by
  have hindex := ho.index
  have hboundary := ho.boundary
  simp only [Segment.tokens, List.length_append, List.length_cons]
  omega

/-- The boundary of an occurrence is the end of the input or ends the line of a macro. -/
theorem exists_token_boundary (hts : Terminated tokens) (h : o ∈ occurrences options tokens) :
    ∃ t, tokens[o.boundary]? = some t ∧ (t.kind = .endOfInput ∨ t.endsLine = true) := by
  have hend : tokens[tokens.length - 1]? = some Token.endOfInput := by
    rw [hts]
    simp
  rcases mem_occurrences h with ⟨pre, post, t, ho⟩ | ⟨pre, post, front, before, after, t, ho⟩
  · exact ⟨_, ho.boundary ▸ hend, .inl rfl⟩
  · have hbound := ho.bounds.2.2
    cases post with
    | nil =>
      have hlen := congrArg List.length (segments_flatten tokens)
      rw [ho.segments, hts.length_beforeEnd, Segment.flatten_append, Segment.flatten_cons,
        Segment.flatten_nil, List.append_nil, List.length_append, ← hbound] at hlen
      exact ⟨_, hlen ▸ hend, .inl rfl⟩
    | cons s post =>
      obtain ⟨u, rfl, hu⟩ := endsLine_of_directive_append ho.segments
      have hsegs : segments tokens =
          (pre ++ [.directive (front ++ (before ++ t :: after))]) ++ .token u :: post := by
        simpa using ho.segments
      have hget := getElem?_of_segments (k := 0) hsegs rfl
      rw [Nat.add_zero, Segment.flatten_append, Segment.flatten_cons, Segment.flatten_nil,
        List.append_nil, List.length_append, ← hbound] at hget
      exact ⟨u, hget, .inr hu⟩

/-- Occurrences have one boundary if no `#` is between them. -/
theorem boundary_eq_of_between {o' : Occurrence} (h : o ∈ occurrences options tokens)
    (h' : o' ∈ occurrences options tokens) (hle : o.index ≤ o'.index) (hlt : o'.index < o.boundary)
    (hbetween : ∀ k v, o.index < k → k ≤ o'.index → tokens[k]? = some v → v.isMark .hash = false) :
    o'.boundary = o.boundary := by
  rcases mem_occurrences h with ⟨pre, post, t, ho⟩ | ⟨pre, post, front, before, after, t, ho⟩ <;>
    rcases mem_occurrences h' with
      ⟨pre', post', t', ho'⟩ | ⟨pre', post', front', before', after', t', ho'⟩
  · rw [ho.boundary, ho'.boundary]
  · -- the directive of the second one starts with a `#`, which is not between them
    obtain ⟨hge', hlt', hend'⟩ := ho'.bounds
    have hindex := ho.index
    rcases Nat.lt_or_ge o.index (Segment.flatten pre').length with hb | hb
    · obtain ⟨hash, rest, hcons, hhash, -⟩ :
          (Segment.directive (front' ++ (before' ++ t' :: after'))).IsLine :=
        isLine_of_mem_segments (by rw [ho'.segments]; simp)
      have hget : tokens[(Segment.flatten pre').length + 0]? = some hash :=
        getElem?_of_segments ho'.segments (by simp [Segment.tokens, hcons])
      rw [hbetween _ hash hb hge' hget] at hhash
      cases hhash
    · obtain ⟨-, heq⟩ := segment_unique ho.segments ho'.segments (Nat.le_of_eq hindex.symm)
        (by simp [Segment.tokens, hindex]) hb (by omega)
      cases heq
  · obtain ⟨hge, -, hend⟩ := ho.bounds
    have hindex := ho'.index
    obtain ⟨-, heq⟩ := segment_unique ho.segments ho'.segments (Nat.le_trans hge hle) (by omega)
      (Nat.le_of_eq hindex.symm) (by simp [Segment.tokens, hindex])
    cases heq
  · obtain ⟨hge, -, hend⟩ := ho.bounds
    obtain ⟨hge', hlt', hend'⟩ := ho'.bounds
    obtain ⟨rfl, heq⟩ := segment_unique ho.segments ho'.segments (Nat.le_trans hge hle) (by omega)
      hge' (by omega)
    rw [hend, hend', heq]

end

/-! ## The order of occurrences -/

section

variable {options : Options} {boundary index : Nat} {w : Walk}

/-- Occurrences are found in the order of their tokens. -/
theorem occurrencesIn_pairwise (options : Options) (boundary : Nat) (w : Walk) (index : Nat)
    (ts : List Token) :
    (occurrencesIn options boundary w index ts).Pairwise (·.index < ·.index) := by
  induction ts generalizing w index with
  | nil => exact .nil
  | cons t rest ih =>
    rw [occurrencesIn]
    split
    · refine List.pairwise_cons.2 ⟨?_, ih _ _⟩
      intro o ho
      obtain ⟨pre, u, post, q, -, -, rfl⟩ := mem_occurrencesIn_iff.1 ho
      simp only
      omega
    · exact ih _ _

theorem Segment.occurrences_pairwise (options : Options) (boundary : Nat) (w : Walk) (index : Nat)
    (s : Segment) : (s.occurrences options boundary w index).Pairwise (·.index < ·.index) := by
  cases s with
  | token t => exact occurrencesIn_pairwise _ _ _ _ _
  | directive d =>
    rw [Segment.occurrences, occurrencesInDirective]
    split
    · exact .nil
    · exact occurrencesIn_pairwise _ _ _ _ _

theorem Segment.occurrences_index {s : Segment} {o : Occurrence}
    (h : o ∈ s.occurrences options boundary w index) :
    index ≤ o.index ∧ o.index < index + s.tokens.length := by
  cases s with
  | token t =>
    obtain ⟨pre, u, post, q, heq, -, rfl⟩ := mem_occurrencesIn_iff.1 h
    have := congrArg List.length heq
    simp only [List.length_append, List.length_cons, List.length_nil] at this
    simp only [Segment.tokens, List.length_cons, List.length_nil]
    omega
  | directive d =>
    rw [Segment.occurrences, occurrencesInDirective] at h
    split at h
    · cases h
    · rename_i body hbody
      obtain ⟨pre, u, post, q, rfl, -, rfl⟩ := mem_occurrencesIn_iff.1 h
      obtain ⟨front, rfl, -⟩ := macroBody?_eq_some hbody
      simp only [Segment.tokens, List.length_append, List.length_cons]
      omega

/-- Occurrences are in the order of their indices. -/
theorem occurrencesInSegments_pairwise (options : Options) (boundary : Nat) (w : Walk) (index : Nat)
    (segs : List Segment) :
    (occurrencesInSegments options boundary w index segs).Pairwise (·.index < ·.index) := by
  induction segs generalizing w index with
  | nil => exact .nil
  | cons s rest ih =>
    rw [occurrencesInSegments_cons, List.pairwise_append]
    refine ⟨Segment.occurrences_pairwise _ _ _ _ _, ih _ _, ?_⟩
    intro o ho o' ho'
    obtain ⟨pre, s', post, -, hs'⟩ := mem_occurrencesInSegments_iff.1 ho'
    have hlt := (Segment.occurrences_index ho).2
    have hge := (Segment.occurrences_index hs').1
    omega

end

end EastConst
