import EastConst.Occurrence

/-!
# Where qualifiers are found

`mem_occurrences` says what the walk finds: a qualifier outside all directives, with the role that
the walk over everything before it gives, or a qualifier in the body of a macro, with the role that
the walk over the body gives.
-/

namespace EastConst

/-! ## Segments -/

/-- At the start of a line a `#` starts a directive, and trivia leave the line at its start. -/
theorem segmentsFrom_lineStart (t : Token) (rest : List Token) :
    segmentsFrom .lineStart (t :: rest) =
      if t.isMark .hash then segmentsFrom (.directive [t]) rest
      else .token t :: segmentsFrom (if t.isTrivia then .lineStart else .midLine) rest := by
  cases hm : t.isMark .hash with
  | true => simp [segmentsFrom, Place.after, hm]
  | false => cases ht : t.isTrivia <;> simp [segmentsFrom, Place.after, hm, ht]

theorem segmentsFrom_midLine (t : Token) (rest : List Token) :
    segmentsFrom .midLine (t :: rest) =
      .token t :: segmentsFrom (if t.endsLine then .lineStart else .midLine) rest := by
  cases hl : t.endsLine <;> simp [segmentsFrom, Place.after, hl]

/-- A directive holds its tokens until its line ends. -/
theorem segmentsFrom_directive (held : List Token) (t : Token) (rest : List Token) :
    segmentsFrom (.directive held) (t :: rest) =
      if t.endsLine then .directive held :: .token t :: segmentsFrom .lineStart rest
      else segmentsFrom (.directive (held ++ [t])) rest := by
  rw [segmentsFrom]

/-- The tokens of the directive that a place is in. -/
def Place.held : Place → List Token
  | .directive held => held
  | _ => []

/-- The tokens of segments, one after another. -/
def Segment.flatten (segs : List Segment) : List Token :=
  segs.flatMap Segment.tokens

@[simp]
theorem Segment.flatten_nil : Segment.flatten [] = [] := rfl

@[simp]
theorem Segment.flatten_cons (s : Segment) (segs : List Segment) :
    Segment.flatten (s :: segs) = s.tokens ++ Segment.flatten segs := rfl

@[simp]
theorem Segment.flatten_append (segs segs' : List Segment) :
    Segment.flatten (segs ++ segs') = Segment.flatten segs ++ Segment.flatten segs' :=
  List.flatMap_append

/-- Cutting tokens into segments loses none and changes no order. -/
theorem segmentsFrom_flatten (place : Place) (ts : List Token) :
    Segment.flatten (segmentsFrom place ts) = place.held ++ ts := by
  induction ts generalizing place with
  | nil => cases place <;> simp [segmentsFrom, Segment.tokens, Place.held]
  | cons t rest ih =>
    cases place with
    | lineStart =>
      rw [segmentsFrom_lineStart]
      split
      · rw [ih]; rfl
      · rw [Segment.flatten_cons, ih]
        split <;> rfl
    | midLine =>
      rw [segmentsFrom_midLine, Segment.flatten_cons, ih]
      split <;> rfl
    | directive held =>
      rw [segmentsFrom_directive]
      split
      · simp [ih, Segment.tokens, Place.held]
      · simp [ih, Place.held]

/-- The segments of tokens are the tokens before the end of the input. -/
theorem segments_flatten (tokens : List Token) :
    Segment.flatten (segments tokens) = beforeEnd tokens :=
  segmentsFrom_flatten .lineStart _

/-- A directive is a `#` and tokens that do not end the line. -/
def Segment.IsLine : Segment → Prop
  | .token _ => True
  | .directive ts => ∃ t rest, ts = t :: rest ∧ t.isMark .hash = true ∧ ∀ u ∈ ts, u.endsLine = false

theorem Token.endsLine_of_isMark {t : Token} {m : Mark} (h : t.isMark m = true) :
    t.endsLine = false := by
  have hk : t.kind = .punctuation := by
    refine Decidable.byContradiction fun hk => ?_
    simp [Token.isMark, Token.mark?, hk] at h
  simp [Token.endsLine, hk]

theorem Token.kind_of_isHorizontalSpace {t : Token} (h : t.isHorizontalSpace = true) :
    t.kind = .whitespace := by
  simp only [Token.isHorizontalSpace, Bool.and_eq_true, beq_iff_eq] at h
  exact h.1

theorem Token.kind_of_qualifier {t : Token} {q : Qualifier} (h : Qualifier.ofToken? t = some q) :
    t.kind = .keyword := by
  refine Decidable.byContradiction fun hk => ?_
  simp [Qualifier.ofToken?, hk] at h

theorem Token.endsLine_of_qualifier {t : Token} {q : Qualifier}
    (h : Qualifier.ofToken? t = some q) : t.endsLine = false := by
  simp [Token.endsLine, Token.kind_of_qualifier h]

theorem endsLine_eq_false {text : List Char} (h : '\n' ∉ text) : endsLine text = false := by
  fun_induction endsLine text <;> simp_all

theorem Token.endsLine_of_isHorizontalSpace {t : Token} (h : t.isHorizontalSpace = true) :
    t.endsLine = false := by
  simp only [Token.isHorizontalSpace, Bool.and_eq_true, Bool.not_eq_true', List.contains_eq_mem,
    decide_eq_false_iff_not] at h
  simp [Token.endsLine, endsLine_eq_false h.2]

theorem isLine_of_mem_segmentsFrom {place : Place} {ts : List Token} {s : Segment}
    (hp : ∀ held, place = .directive held → (Segment.directive held).IsLine)
    (h : s ∈ segmentsFrom place ts) : s.IsLine := by
  induction ts generalizing place with
  | nil =>
    cases place with
    | lineStart => cases h
    | midLine => cases h
    | directive held =>
      obtain rfl : s = .directive held := by simpa [segmentsFrom] using h
      exact hp held rfl
  | cons t rest ih =>
    cases place with
    | lineStart =>
      rw [segmentsFrom_lineStart] at h
      split at h
      · rename_i hm
        refine ih ?_ h
        rintro held ⟨⟩
        exact ⟨t, [], rfl, hm, by simp [Token.endsLine_of_isMark hm]⟩
      · rcases List.mem_cons.1 h with rfl | h
        · trivial
        · refine ih ?_ h
          intro held heq
          split at heq <;> cases heq
    | midLine =>
      rw [segmentsFrom_midLine] at h
      rcases List.mem_cons.1 h with rfl | h
      · trivial
      · refine ih ?_ h
        intro held heq
        split at heq <;> cases heq
    | directive held =>
      rw [segmentsFrom_directive] at h
      split at h
      · simp only [List.mem_cons] at h
        rcases h with rfl | rfl | h
        · exact hp held rfl
        · trivial
        · exact ih (by rintro held ⟨⟩) h
      · rename_i hl
        refine ih ?_ h
        rintro _ ⟨⟩
        obtain ⟨u, tail, rfl, hu, hall⟩ := hp held rfl
        refine ⟨u, tail ++ [t], rfl, hu, ?_⟩
        intro v hv
        rcases List.mem_append.1 hv with hv | hv
        · exact hall v hv
        · obtain rfl : v = t := by simpa using hv
          simpa using hl

/-- No directive goes on over the end of its line. -/
theorem isLine_of_mem_segments {tokens : List Token} {s : Segment} (h : s ∈ segments tokens) :
    s.IsLine :=
  isLine_of_mem_segmentsFrom (by rintro held ⟨⟩) h

/-- What follows a directive ends its line. -/
theorem endsLine_of_directive_append {place : Place} {ts d : List Token} {pre post : List Segment}
    {s : Segment} (h : segmentsFrom place ts = pre ++ .directive d :: s :: post) :
    ∃ t, s = .token t ∧ t.endsLine = true := by
  induction ts generalizing place pre with
  | nil =>
    cases place with
    | lineStart => simp [segmentsFrom] at h
    | midLine => simp [segmentsFrom] at h
    | directive held =>
      rw [segmentsFrom] at h
      cases pre with
      | nil => simp at h
      | cons u pre => simp at h
  | cons t rest ih =>
    have htoken {place : Place} {pre : List Segment} (h : .token t :: segmentsFrom place rest =
        pre ++ .directive d :: s :: post) : ∃ t, s = .token t ∧ t.endsLine = true := by
      cases pre with
      | nil => simp at h
      | cons u pre => exact ih (List.cons.inj h).2
    cases place with
    | lineStart =>
      rw [segmentsFrom_lineStart] at h
      split at h
      · exact ih h
      · exact htoken h
    | midLine =>
      rw [segmentsFrom_midLine] at h
      exact htoken h
    | directive held =>
      rw [segmentsFrom_directive] at h
      split at h
      · rename_i hl
        cases pre with
        | nil =>
          obtain ⟨rfl, -⟩ := List.cons.inj (List.cons.inj h).2
          exact ⟨t, rfl, hl⟩
        | cons u pre => exact htoken (List.cons.inj h).2
      · exact ih h

/-! ## Macros -/

theorem afterParens_suffix (depth : Nat) (ts : List Token) : afterParens depth ts <:+ ts := by
  fun_induction afterParens depth ts with
  | case1 => exact List.suffix_rfl
  | case2 _ _ _ _ ih => exact ih.trans (List.suffix_cons _ _)
  | case3 => exact List.suffix_cons _ _
  | case4 _ _ _ _ _ ih => exact ih.trans (List.suffix_cons _ _)
  | case5 _ _ _ _ _ ih => exact ih.trans (List.suffix_cons _ _)

theorem afterParameters_suffix (ts : List Token) : afterParameters ts <:+ ts := by
  unfold afterParameters
  split
  · exact List.suffix_rfl
  · split
    · exact (afterParens_suffix 1 _).trans (List.suffix_cons _ _)
    · exact List.suffix_rfl

/-- The body of a macro ends its directive, and more than a token comes before it. -/
theorem macroBody?_eq_some {d body : List Token} (h : macroBody? d = some body) :
    ∃ front, d = front ++ body ∧ 0 < front.length := by
  unfold macroBody? at h
  split at h
  · cases h
  · rename_i word rest hrest
    split at h
    · split at h
      · cases h
      · rename_i name afterName hname
        obtain rfl := Option.some.inj h
        have hsuf : afterParameters afterName <:+ d.drop 1 :=
          ((afterParameters_suffix afterName).trans ((List.suffix_cons _ _).trans
            (hname ▸ List.dropWhile_suffix _))).trans ((List.suffix_cons _ _).trans
            (hrest ▸ List.dropWhile_suffix _))
        obtain ⟨front, hfront⟩ := hsuf
        cases d with
        | nil => simp at hrest
        | cons t d => exact ⟨t :: front, by simpa using hfront.symm, by simp⟩
    · cases h

/-! ## Occurrences -/

/-- The walk after segments. -/
def Walk.runSegments (options : Options) (w : Walk) (segs : List Segment) : Walk :=
  segs.foldl (Walk.segment options) w

section

variable {options : Options} {boundary index : Nat} {w : Walk} {o : Occurrence}

/-- An occurrence is a qualifier with the role that the walk over the tokens before it gives. -/
theorem mem_occurrencesIn_iff {ts : List Token} :
    o ∈ occurrencesIn options boundary w index ts ↔
      ∃ pre t post q, ts = pre ++ t :: post ∧ Qualifier.ofToken? t = some q ∧
        o = ⟨index + pre.length, q, (w.run options pre).role, boundary⟩ := by
  induction ts generalizing w index with
  | nil => simp [occurrencesIn]
  | cons u rest ih =>
    -- the first token is the qualifier, or the qualifier is found in the rest
    have hsplit : (∃ pre t post q, u :: rest = pre ++ t :: post ∧ Qualifier.ofToken? t = some q ∧
        o = ⟨index + pre.length, q, (w.run options pre).role, boundary⟩) ↔
        (∃ q, Qualifier.ofToken? u = some q ∧ o = ⟨index, q, w.role, boundary⟩) ∨
          o ∈ occurrencesIn options boundary (w.step options u) (index + 1) rest := by
      rw [ih]
      constructor
      · rintro ⟨pre, t, post, q, heq, hq, rfl⟩
        cases pre with
        | nil =>
          obtain ⟨rfl, rfl⟩ := List.cons.inj heq
          exact .inl ⟨q, hq, rfl⟩
        | cons v pre =>
          obtain ⟨rfl, rfl⟩ := List.cons.inj heq
          exact .inr ⟨pre, t, post, q, rfl, hq, by simp [Walk.run]; omega⟩
      · rintro (⟨q, hq, rfl⟩ | ⟨pre, t, post, q, rfl, hq, rfl⟩)
        · exact ⟨[], u, rest, q, rfl, hq, rfl⟩
        · exact ⟨u :: pre, t, post, q, rfl, hq, by simp [Walk.run]; omega⟩
    rw [hsplit]
    cases hu : Qualifier.ofToken? u with
    | none => simp [occurrencesIn, hu]
    | some q => simp [occurrencesIn, hu]

/-- The qualifiers in a segment, whose first token has an index. -/
def Segment.occurrences (options : Options) (boundary : Nat) (w : Walk) (index : Nat) :
    Segment → List Occurrence
  | .token t => occurrencesIn options boundary w index [t]
  | .directive ts => occurrencesInDirective options w index ts

theorem occurrencesInSegments_cons (s : Segment) (rest : List Segment) :
    occurrencesInSegments options boundary w index (s :: rest) =
      s.occurrences options boundary w index ++
        occurrencesInSegments options boundary (w.segment options s)
          (index + s.tokens.length) rest := by
  cases s <;> rfl

/-- An occurrence belongs to one segment, with the walk over the segments before it. -/
theorem mem_occurrencesInSegments_iff {segs : List Segment} :
    o ∈ occurrencesInSegments options boundary w index segs ↔
      ∃ pre s post, segs = pre ++ s :: post ∧
        o ∈ s.occurrences options boundary (w.runSegments options pre)
          (index + (Segment.flatten pre).length) := by
  induction segs generalizing w index with
  | nil => simp [occurrencesInSegments]
  | cons s rest ih =>
    rw [occurrencesInSegments_cons, List.mem_append, ih]
    constructor
    · rintro (h | ⟨pre, s', post, rfl, h⟩)
      · exact ⟨[], s, rest, rfl, h⟩
      · refine ⟨s :: pre, s', post, rfl, ?_⟩
        rwa [Segment.flatten_cons, List.length_append, ← Nat.add_assoc]
    · rintro ⟨pre, s', post, heq, h⟩
      cases pre with
      | nil =>
        obtain ⟨rfl, rfl⟩ := List.cons.inj heq
        exact .inl h
      | cons u pre =>
        obtain ⟨rfl, rfl⟩ := List.cons.inj heq
        refine .inr ⟨pre, s', post, rfl, ?_⟩
        rwa [Segment.flatten_cons, List.length_append, ← Nat.add_assoc] at h

end

/-- A qualifier outside all directives: `pre` comes before it and `post` after it. -/
structure Occurrence.Outside (options : Options) (tokens : List Token) (o : Occurrence)
    (pre post : List Segment) (t : Token) : Prop where
  segments : EastConst.segments tokens = pre ++ .token t :: post
  qualifier : Qualifier.ofToken? t = some o.qualifier
  index : o.index = (Segment.flatten pre).length
  role : o.role = (Walk.runSegments options {} pre).role
  boundary : o.boundary = tokens.length - 1

/-- A qualifier in a macro's body: `pre` comes before the directive, `front` before the qualifier in
the directive, and `before` before it in the body. -/
structure Occurrence.Inside (options : Options) (tokens : List Token) (o : Occurrence)
    (pre post : List Segment) (front before after : List Token) (t : Token) : Prop where
  segments : EastConst.segments tokens =
    pre ++ .directive (front ++ (before ++ t :: after)) :: post
  body : macroBody? (front ++ (before ++ t :: after)) = some (before ++ t :: after)
  qualifier : Qualifier.ofToken? t = some o.qualifier
  index : o.index = (Segment.flatten pre).length + front.length + before.length
  role : o.role = ((Walk.runSegments options {} pre).enterBody.run options before).role
  boundary : o.boundary = o.index + 1 + after.length

/-- What the walk finds is outside all directives or in the body of a macro. -/
theorem mem_occurrences {options : Options} {tokens : List Token} {o : Occurrence}
    (h : o ∈ occurrences options tokens) :
    (∃ pre post t, o.Outside options tokens pre post t) ∨
      ∃ pre post front before after t, o.Inside options tokens pre post front before after t := by
  obtain ⟨pre, s, post, hsegs, ho⟩ := mem_occurrencesInSegments_iff.1 h
  rw [Nat.zero_add] at ho
  cases s with
  | token t =>
    obtain ⟨pre', t', post', q, heq, hq, rfl⟩ := mem_occurrencesIn_iff.1 ho
    obtain ⟨rfl, rfl, rfl⟩ : pre' = [] ∧ t' = t ∧ post' = [] := by
      cases pre' with
      | nil => simpa [eq_comm] using heq
      | cons u pre' => simp at heq
    exact .inl ⟨pre, post, t', hsegs, hq, rfl, rfl, rfl⟩
  | directive d =>
    rw [Segment.occurrences, occurrencesInDirective] at ho
    split at ho
    · cases ho
    · rename_i body hbody
      obtain ⟨before, t, after, q, rfl, hq, rfl⟩ := mem_occurrencesIn_iff.1 ho
      obtain ⟨front, rfl, -⟩ := macroBody?_eq_some hbody
      refine .inr ⟨pre, post, front, before, after, t, hsegs, hbody, hq, ?_, rfl, ?_⟩
      · simp; omega
      · simp; omega

/-! ## Where occurrences stand -/

/-- A token sequence that has the end of the input at its end and nowhere else. -/
def Terminated (tokens : List Token) : Prop :=
  tokens = beforeEnd tokens ++ [Token.endOfInput]

section

variable {options : Options} {tokens : List Token} {o : Occurrence}

theorem Terminated.length_beforeEnd (h : Terminated tokens) :
    (beforeEnd tokens).length = tokens.length - 1 := by
  have := congrArg List.length h
  rw [List.length_append] at this
  exact (Nat.sub_eq_of_eq_add this).symm

theorem Terminated.kind_ne (h : Terminated tokens) {k : Nat} {t : Token}
    (hk : k < tokens.length - 1) (ht : tokens[k]? = some t) : t.kind ≠ .endOfInput := by
  rw [h, List.getElem?_append_left (by rw [h.length_beforeEnd]; exact hk)] at ht
  have := List.all_eq_true.1 List.all_takeWhile t (List.mem_of_getElem? ht)
  simpa using this

/-- A token of a segment stands behind those of the segments before it. -/
theorem getElem?_of_segments {pre post : List Segment} {s : Segment} {k : Nat} {t : Token}
    (h : segments tokens = pre ++ s :: post) (ht : s.tokens[k]? = some t) :
    tokens[(Segment.flatten pre).length + k]? = some t := by
  have hflat := segments_flatten tokens
  rw [h, Segment.flatten_append, Segment.flatten_cons] at hflat
  have hk : k < s.tokens.length := (List.getElem?_eq_some_iff.1 ht).1
  obtain ⟨rest, hrest⟩ := List.takeWhile_prefix (l := tokens) (·.kind != .endOfInput)
  rw [← hrest, ← beforeEnd, ← hflat, List.append_assoc, List.getElem?_append_right (by omega),
    List.append_assoc, List.getElem?_append_left (by omega), Nat.add_sub_cancel_left, ht]

/-- An occurrence is a qualifier before its boundary, and the end of the input is beyond. -/
theorem mem_occurrences_index (hts : Terminated tokens) (h : o ∈ occurrences options tokens) :
    (∃ t, tokens[o.index]? = some t ∧ Qualifier.ofToken? t = some o.qualifier) ∧
      o.index < o.boundary ∧ o.boundary ≤ tokens.length - 1 := by
  have hlen {pre post : List Segment} {s : Segment} (h : segments tokens = pre ++ s :: post) :
      (Segment.flatten pre).length + s.tokens.length ≤ tokens.length - 1 := by
    have hflat := congrArg List.length (segments_flatten tokens)
    rw [h, hts.length_beforeEnd] at hflat
    simp at hflat
    omega
  rcases mem_occurrences h with ⟨pre, post, t, ho⟩ | ⟨pre, post, front, before, after, t, ho⟩
  · have ht := getElem?_of_segments (k := 0) ho.segments rfl
    rw [Nat.add_zero, ← ho.index] at ht
    have := hlen ho.segments
    refine ⟨⟨t, ht, ho.qualifier⟩, ?_, Nat.le_of_eq ho.boundary⟩
    rw [ho.index, ho.boundary]
    simp [Segment.tokens] at this
    omega
  · have ht := getElem?_of_segments (k := front.length + before.length) (t := t) ho.segments
      (by simp [Segment.tokens])
    rw [← Nat.add_assoc, ← ho.index] at ht
    have := hlen ho.segments
    refine ⟨⟨t, ht, ho.qualifier⟩, by rw [ho.boundary]; omega, ?_⟩
    rw [ho.boundary, ho.index]
    simp [Segment.tokens] at this
    omega

/-- No token from a qualifier in a macro's body to its boundary ends the line. -/
theorem Occurrence.Inside.endsLine {pre post : List Segment} {front before after : List Token}
    {t : Token} (ho : o.Inside options tokens pre post front before after t) {k : Nat} {u : Token}
    (hk : o.index ≤ k) (hk' : k < o.boundary) (hu : tokens[k]? = some u) : u.endsLine = false := by
  obtain ⟨j, rfl⟩ : ∃ j, k = (Segment.flatten pre).length + j :=
    ⟨k - (Segment.flatten pre).length, by have := ho.index; omega⟩
  have hj : j < (front ++ (before ++ t :: after)).length := by
    have := ho.index
    have := ho.boundary
    simp
    omega
  have hget := getElem?_of_segments ho.segments
    (List.getElem?_eq_getElem (l := Segment.tokens _) hj)
  rw [hget] at hu
  obtain rfl := Option.some.inj hu
  have hmem : Segment.directive (front ++ (before ++ t :: after)) ∈ EastConst.segments tokens := by
    simp [ho.segments]
  obtain ⟨_, _, -, -, hall⟩ := isLine_of_mem_segments hmem
  exact hall _ (List.getElem_mem hj)

/-- The role of a qualifier after a token that starts nothing. -/
theorem Walk.role_of_preceding {w : Walk} (h : w.preceding = .other) : w.role ≠ .leading := by
  unfold Walk.role Role.decide
  rw [h]
  split <;> simp

/-- A qualifier hands its role on to the next one. -/
theorem Walk.role_step_qualifier {w : Walk} {t : Token} {q : Qualifier}
    (hq : Qualifier.ofToken? t = some q) : (w.step options t).role = w.role := by
  have hk := Token.kind_of_qualifier hq
  have hs : t.isSignificant = true := by simp [Token.isSignificant, Token.isTrivia, hk]
  have hsup : ({ w with preceding := .qualifier w.role, last := some t } : Walk).isSuppressed =
    w.isSuppressed := rfl
  rw [Walk.step, if_pos hs, hq, Walk.role, hsup, Walk.role]
  cases w.isSuppressed <;> rfl

theorem Walk.step_whitespace {w : Walk} {t : Token} (h : t.kind = .whitespace) :
    w.step options t = w := by
  simp [Walk.step, Token.isSignificant, Token.isTrivia, h]

theorem Walk.step_unmarked {w : Walk} {t : Token} (hk : t.kind = .punctuation)
    (hm : t.mark? = none) : (w.step options t).preceding = .other := by
  have hq : Qualifier.ofToken? t = none := by simp [Qualifier.ofToken?, hk]
  have hs : t.isSignificant = true := by simp [Token.isSignificant, Token.isTrivia, hk]
  simp only [Walk.step, if_pos hs, hq, Walk.advance, hk, hm, Walk.punctuate]

/-- No qualifier outside directives leads a type after a punctuator that the grammar does not know,
if only blanks and qualifiers are between. -/
theorem role_ne_leading_of_unmarked {pre post : List Segment} {t u : Token} {i : Nat}
    (hsegs : segments tokens = pre ++ .token t :: post) (ht : t.endsLine = false)
    (hi : i < (Segment.flatten pre).length) (hu : tokens[i]? = some u)
    (hk : u.kind = .punctuation) (hm : u.mark? = none)
    (hbetween : ∀ k v, i < k → k < (Segment.flatten pre).length → tokens[k]? = some v →
      v.isHorizontalSpace = true ∨ (Qualifier.ofToken? v).isSome = true) :
    (Walk.runSegments options {} pre).role ≠ .leading := by
  induction hn : pre.length generalizing pre post t with
  | zero => simp [List.length_eq_zero_iff.1 hn] at hi
  | succ n ih =>
    obtain rfl | ⟨pre, s, rfl⟩ := List.eq_nil_or_concat pre
    · cases hn
    rw [List.concat_eq_append] at hsegs hi hbetween hn ⊢
    have hsegs' : segments tokens = pre ++ s :: .token t :: post := by simpa using hsegs
    cases s with
    | directive d =>
      -- the token after a directive ends its line
      obtain ⟨t', heq, hl⟩ := endsLine_of_directive_append hsegs'
      obtain rfl := Segment.token.inj heq
      simp [ht] at hl
    | token v =>
      have hlen : (Segment.flatten (pre ++ [.token v])).length =
          (Segment.flatten pre).length + 1 := by
        simp [Segment.tokens]
      have hv : tokens[(Segment.flatten pre).length]? = some v :=
        getElem?_of_segments (k := 0) hsegs' rfl
      have hrun : Walk.runSegments options {} (pre ++ [.token v]) =
          (Walk.runSegments options {} pre).step options v := by
        simp [Walk.runSegments, Walk.segment]
      rw [hlen] at hi hbetween
      rw [hrun]
      by_cases hiv : i = (Segment.flatten pre).length
      · obtain rfl : u = v := by
          rw [hiv, hv] at hu
          exact (Option.some.inj hu).symm
        exact Walk.role_of_preceding (Walk.step_unmarked hk hm)
      · have hbefore (hl : v.endsLine = false) :
            (Walk.runSegments options {} pre).role ≠ .leading :=
          ih hsegs' hl (by omega) (fun k w hik hk => hbetween k w hik (by omega))
            (by simpa using hn)
        rcases hbetween _ v (by omega) (by omega) hv with hs | hq
        · rw [Walk.step_whitespace (Token.kind_of_isHorizontalSpace hs)]
          exact hbefore (Token.endsLine_of_isHorizontalSpace hs)
        · obtain ⟨q, hq⟩ := Option.isSome_iff_exists.1 hq
          rw [Walk.role_step_qualifier hq]
          exact hbefore (Token.endsLine_of_qualifier hq)

/-- Where a leading qualifier follows a punctuator that the grammar does not know, no line ends
before its boundary: it is the first one in the body of a macro. -/
theorem endsLine_of_leading_of_unmarked (h : o ∈ occurrences options tokens)
    (hrole : o.role = .leading) {i : Nat} {u : Token} (hi : i < o.index) (hu : tokens[i]? = some u)
    (hk : u.kind = .punctuation) (hm : u.mark? = none)
    (hbetween : ∀ k v, i < k → k < o.index → tokens[k]? = some v →
      v.isHorizontalSpace = true ∨ (Qualifier.ofToken? v).isSome = true)
    {k : Nat} {v : Token} (hik : o.index ≤ k) (hkb : k < o.boundary) (hv : tokens[k]? = some v) :
    v.endsLine = false := by
  rcases mem_occurrences h with ⟨pre, post, t, ho⟩ | ⟨pre, post, front, before, after, t, ho⟩
  · rw [ho.index] at hi hbetween
    exact absurd (ho.role ▸ hrole) (role_ne_leading_of_unmarked ho.segments
      (Token.endsLine_of_qualifier ho.qualifier) hi hu hk hm hbetween)
  · exact ho.endsLine hik hkb hv

end

end EastConst
