import EastConst.Proofs.Occurrence.Leading

/-!
# Around a directive

A directive of a token sequence starts at the start of a line and ends where its line or the input
ends (`Directs`). What is before it and what is after it are cut into segments by themselves
(`Directs.segments_eq`), so that the roles before it do not depend on it, and those after it only on
what it makes of the walk (`Directs.roleAt_before`, `Directs.roleAt_after`).
-/

namespace EastConst

/-! ## Segments -/

/-- Whether nothing follows, or something that ends the line or the input. -/
def StopsLine (after : List Token) : Prop :=
  ∀ t ∈ after.head?, t.endsLine = true ∨ t.kind = .endOfInput

/-- Whether `d` is a directive between `before` and `after`. -/
structure Directs (before d after : List Token) : Prop where
  start : before.foldl Place.after .lineStart = .lineStart
  inInput : ∀ t ∈ before ++ d, t.kind ≠ .endOfInput
  hash : ∃ t rest, d = t :: rest ∧ t.isMark .hash = true
  onLine : ∀ t ∈ d, t.endsLine = false
  stop : StopsLine after

/-- The segments that a token completes at a place. -/
def Place.completes : Place → Token → List Segment
  | .lineStart, t => if t.isMark .hash then [] else [.token t]
  | .midLine, t => [.token t]
  | .directive held, t => if t.endsLine then [.directive held, .token t] else []

/-- Each token completes some segments and moves on to another place. -/
theorem segmentsFrom_cons (place : Place) (t : Token) (rest : List Token) :
    segmentsFrom place (t :: rest) = place.completes t ++ segmentsFrom (place.after t) rest := by
  cases place with
  | lineStart =>
    rw [segmentsFrom_lineStart, Place.completes, Place.after]
    split <;> rfl
  | midLine =>
    rw [segmentsFrom_midLine]
    rfl
  | directive held =>
    rw [segmentsFrom_directive, Place.completes, Place.after]
    split <;> rfl

/-- What a place holds goes into segments or is held on to. -/
theorem Place.flatten_completes (place : Place) (t : Token) :
    Segment.flatten (place.completes t) ++ (place.after t).held = place.held ++ [t] := by
  cases place with
  | lineStart =>
    rw [completes, after]
    split
    · rfl
    · split <;> rfl
  | midLine =>
    rw [completes, after]
    split <;> rfl
  | directive held =>
    rw [completes, after]
    split
    · simp [Segment.flatten, Segment.tokens, Place.held]
    · rfl

/-- A place in a directive comes after the `#` that starts it, or after another place in it. -/
theorem Place.after_eq_directive {place : Place} {t : Token} {held' : List Token}
    (h : place.after t = .directive held') :
    place.completes t = [] ∧ (place = .lineStart ∧ held' = [t] ∨
      ∃ held, place = .directive held ∧ held' = held ++ [t]) := by
  cases place with
  | lineStart =>
    rw [after] at h
    split at h
    · rename_i hm
      exact ⟨if_pos hm, .inl ⟨rfl, (Place.directive.inj h).symm⟩⟩
    · split at h <;> cases h
  | midLine =>
    rw [after] at h
    split at h <;> cases h
  | directive held =>
    rw [after] at h
    split at h
    · cases h
    · rename_i hl
      exact ⟨if_neg hl, .inr ⟨held, rfl, (Place.directive.inj h).symm⟩⟩

/-- A directive is complete where its line ends. -/
theorem Place.completes_eq_append {place : Place} {t : Token} {d : List Token}
    {pre post : List Segment} (h : place.completes t = pre ++ .directive d :: post) :
    place = .directive d ∧ pre = [] ∧ t.endsLine = true := by
  cases place with
  | lineStart =>
    rw [completes] at h
    split at h
    · simp at h
    · cases pre <;> simp at h
  | midLine => cases pre <;> simp [completes] at h
  | directive held =>
    rw [completes] at h
    split at h
    · rename_i hl
      cases pre with
      | nil => exact ⟨congrArg Place.directive (Segment.directive.inj (List.cons.inj h).1), rfl, hl⟩
      | cons s pre => cases pre <;> simp at h
    · simp at h

/-- Tokens are cut from left to right: what follows does not change the segments that are
complete. -/
theorem segmentsFrom_append (place : Place) (ts : List Token) :
    ∃ done, ∀ rest, segmentsFrom place (ts ++ rest) =
      done ++ segmentsFrom (ts.foldl Place.after place) rest := by
  induction ts generalizing place with
  | nil => exact ⟨[], fun _ => rfl⟩
  | cons t ts ih =>
    obtain ⟨done, hdone⟩ := ih (place.after t)
    refine ⟨place.completes t ++ done, fun rest => ?_⟩
    rw [List.cons_append, segmentsFrom_cons, hdone, List.append_assoc, List.foldl_cons]

/-- Where no `#` starts a line, every token is outside directives. -/
theorem segmentsFrom_eq_map {place : Place} {ts : List Token}
    (hplace : ∀ held, place ≠ .directive held)
    (h : ∀ pre t post, ts = pre ++ t :: post → t.isMark .hash = true →
      pre.foldl Place.after place ≠ .lineStart) : segmentsFrom place ts = ts.map .token := by
  induction ts generalizing place with
  | nil =>
    cases place with
    | directive held => exact absurd rfl (hplace held)
    | _ => rfl
  | cons t ts ih =>
    have hfirst := h [] t ts rfl
    have hcompletes : place.completes t = [.token t] := by
      cases place with
      | lineStart => exact if_neg fun hm => hfirst hm rfl
      | midLine => rfl
      | directive held => exact absurd rfl (hplace held)
    rw [segmentsFrom_cons, hcompletes, ih, List.map_cons]
    · rfl
    · intro held hafter
      rw [(Place.after_eq_directive hafter).1] at hcompletes
      cases hcompletes
    · intro pre u post heq hm
      exact h (t :: pre) u post (by rw [heq]; rfl) hm

/-- A directive goes on to where its line or the input ends. -/
theorem segmentsFrom_onLine {held line after : List Token} (hline : ∀ t ∈ line, t.endsLine = false)
    (hstop : ∀ t ∈ after.head?, t.endsLine = true) :
    segmentsFrom (.directive held) (line ++ after) =
      .directive (held ++ line) :: segmentsFrom .lineStart after := by
  induction line generalizing held with
  | nil =>
    rw [List.nil_append, List.append_nil]
    cases after with
    | nil => rfl
    | cons t after =>
      have hl : t.endsLine = true := hstop t rfl
      have hm : t.isMark .hash = false := by
        apply Bool.eq_false_iff.2
        intro hm
        rw [Token.endsLine_of_isMark hm] at hl
        cases hl
      have htrivia : t.isTrivia = true := by
        rw [Token.endsLine, Bool.and_eq_true] at hl
        simp [Token.isTrivia, hl.1]
      rw [segmentsFrom_directive, if_pos hl, segmentsFrom_lineStart, if_neg (by simp [hm]),
        if_pos htrivia]
  | cons t line ih =>
    rw [List.cons_append, segmentsFrom_directive, if_neg (by simp [hline t List.mem_cons_self]),
      ih fun u hu => hline u (List.mem_cons_of_mem _ hu)]
    simp

theorem beforeEnd_append {ts : List Token} (h : ∀ t ∈ ts, t.kind ≠ .endOfInput)
    (rest : List Token) :
    beforeEnd (ts ++ rest) = ts ++ beforeEnd rest := by
  apply List.takeWhile_append_of_pos
  intro t ht
  simpa using h t ht

theorem beforeEnd_eq_self {ts : List Token} (h : ∀ t ∈ ts, t.kind ≠ .endOfInput) :
    beforeEnd ts = ts := by
  have happend := beforeEnd_append h []
  rwa [List.append_nil, show beforeEnd [] = [] from rfl, List.append_nil] at happend

theorem StopsLine.endsLine {after : List Token} (h : StopsLine after) :
    ∀ t ∈ (beforeEnd after).head?, t.endsLine = true := by
  cases after with
  | nil => simp [beforeEnd]
  | cons u after =>
    intro t ht
    rw [beforeEnd, List.takeWhile_cons] at ht
    split at ht
    · rename_i hk
      obtain rfl : u = t := by simpa using ht
      exact (h u rfl).resolve_right (by simpa using hk)
    · cases ht

/-- What starts a line outside directives is cut by itself. -/
theorem segments_append_of_lineStart {before : List Token}
    (hstart : before.foldl Place.after .lineStart = .lineStart)
    (hinput : ∀ t ∈ before, t.kind ≠ .endOfInput) (after : List Token) :
    segments (before ++ after) = segments before ++ segments after := by
  obtain ⟨done, hdone⟩ := segmentsFrom_append .lineStart before
  have hbefore : segments before = done := by
    have hnil := hdone []
    rw [hstart, List.append_nil] at hnil
    rw [segments, beforeEnd_eq_self hinput, hnil]
    exact List.append_nil done
  rw [hbefore, segments, beforeEnd_append hinput, hdone, hstart]
  rfl

namespace Directs

variable {before d after : List Token}

/-- What is before a directive and what is after it are cut by themselves. -/
theorem segments_eq (h : Directs before d after) :
    segments (before ++ d ++ after) = segments before ++ .directive d :: segments after := by
  obtain ⟨t, rest, hd, hhash⟩ := h.hash
  have hinput := fun u hu => h.inInput u (List.mem_append_left _ hu)
  have hinput' := fun u hu => h.inInput u (List.mem_append_right _ hu)
  rw [List.append_assoc, segments_append_of_lineStart h.start hinput]
  congr 1
  rw [segments, beforeEnd_append hinput', hd, List.cons_append,
    segmentsFrom_lineStart, if_pos hhash,
    segmentsFrom_onLine (fun u hu => h.onLine u (hd ▸ List.mem_cons_of_mem _ hu)) h.stop.endsLine]
  rfl

end Directs

/-- How a directive that starts in tokens that follow a place stands among them. -/
structure Place.Reaches (place : Place) (ts d : List Token) (pre : List Segment)
    (lead after : List Token) :
    Prop where
  before : Segment.flatten pre = place.held ++ lead
  tokens : ts = lead ++ d ++ after
  start : lead.foldl Place.after place = .lineStart
  stop : ∀ t ∈ after.head?, t.endsLine = true

theorem Place.Reaches.cons {place : Place} {t : Token} {ts d lead after : List Token}
    {pre : List Segment} (h : (place.after t).Reaches ts d pre lead after) :
    place.Reaches (t :: ts) d (place.completes t ++ pre) (t :: lead) after where
  before := by
    rw [Segment.flatten_append, h.before, ← List.append_assoc, flatten_completes, List.append_assoc]
    rfl
  tokens := by
    rw [h.tokens]
    rfl
  start := h.start
  stop := h.stop

/-- A directive among the segments that follow a place is the one that the place is in, or starts
where a line starts. -/
theorem place_of_directive {place : Place} {ts d : List Token} {pre post : List Segment}
    (h : segmentsFrom place ts = pre ++ .directive d :: post) :
    (∃ held line after, place = .directive held ∧ pre = [] ∧ d = held ++ line ∧ ts = line ++ after ∧
        ∀ t ∈ after.head?, t.endsLine = true) ∨
      ∃ lead after, place.Reaches ts d pre lead after := by
  induction ts generalizing place pre with
  | nil =>
    cases place with
    | lineStart => simp [segmentsFrom] at h
    | midLine => simp [segmentsFrom] at h
    | directive held =>
      rw [segmentsFrom] at h
      cases pre with
      | nil =>
        obtain ⟨hd, -⟩ := List.cons.inj h
        exact .inl ⟨held, [], [], rfl, rfl, by simpa using hd.symm, rfl, by simp⟩
      | cons s pre => simp at h
  | cons t rest ih =>
    -- a directive that is not complete with this token is among the segments that follow
    have hlater {pre' : List Segment} (hpre : pre = place.completes t ++ pre')
        (hsegs : segmentsFrom (place.after t) rest = pre' ++ .directive d :: post) :
        (∃ held line after, place = .directive held ∧ pre = [] ∧ d = held ++ line ∧
            t :: rest = line ++ after ∧ ∀ t ∈ after.head?, t.endsLine = true) ∨
          ∃ lead after, place.Reaches (t :: rest) d pre lead after := by
      subst hpre
      rcases ih hsegs with ⟨held', line, after, hp, rfl, rfl, rfl, hstop⟩ | ⟨lead, after, hreach⟩
      · obtain ⟨hdone, ⟨rfl, rfl⟩ | ⟨held, rfl, rfl⟩⟩ := Place.after_eq_directive hp
        · rw [hdone]
          exact .inr ⟨[], after, rfl, rfl, rfl, hstop⟩
        · rw [hdone]
          exact .inl ⟨held, t :: line, after, rfl, rfl, by simp, rfl, hstop⟩
      · exact .inr ⟨t :: lead, after, hreach.cons⟩
    rw [segmentsFrom_cons] at h
    rcases List.append_eq_append_iff.1 h with ⟨pre', hpre, hsegs⟩ | ⟨done, hdone, hsegs⟩
    · exact hlater hpre hsegs
    · cases done with
      | nil => exact @hlater [] (by simpa using hdone.symm) hsegs.symm
      | cons s done =>
        obtain ⟨rfl, -⟩ := List.cons.inj hsegs
        obtain ⟨rfl, rfl, hl⟩ := Place.completes_eq_append hdone
        exact .inl ⟨d, [], t :: rest, rfl, rfl, by simp, rfl, by simpa using hl⟩

theorem stopsLine_append {after : List Token} (h : ∀ t ∈ after.head?, t.endsLine = true)
    (tokens : List Token) : StopsLine (after ++ tokens.dropWhile (·.kind != .endOfInput)) := by
  intro t ht
  cases after with
  | nil =>
    have hend := List.head?_dropWhile_not (·.kind != .endOfInput) tokens
    rw [List.nil_append] at ht
    rw [ht] at hend
    exact .inr (by simpa using hend)
  | cons u after => exact .inl (h t ht)

/-- Every directive among the segments of a token sequence stands between the tokens of the segments
before it and other tokens. -/
theorem directs_of_segments {tokens d : List Token} {pre post : List Segment}
    (h : segments tokens = pre ++ .directive d :: post) :
    ∃ after, tokens = Segment.flatten pre ++ d ++ after ∧ Directs (Segment.flatten pre) d after ∧
      segments (Segment.flatten pre) = pre := by
  rcases place_of_directive h with ⟨held, -, -, hp, -⟩ | ⟨lead, after, ⟨hflat, hts, hfold, hstop⟩⟩
  · cases hp
  rw [show Place.lineStart.held = [] from rfl, List.nil_append] at hflat
  obtain ⟨hash, rest, hd, hhash, hline⟩ : (Segment.directive d).IsLine :=
    isLine_of_mem_segments (by rw [h]; simp)
  have hinput : ∀ t ∈ lead ++ d, t.kind ≠ .endOfInput := by
    intro t ht
    have hmem : t ∈ beforeEnd tokens := by
      rw [hts]
      exact List.mem_append_left _ ht
    simpa using List.all_eq_true.1 List.all_takeWhile t hmem
  have htokens : tokens = lead ++ d ++ (after ++ tokens.dropWhile (·.kind != .endOfInput)) := by
    rw [← List.append_assoc, ← hts]
    exact List.takeWhile_append_dropWhile.symm
  have hdirects : Directs lead d (after ++ tokens.dropWhile (·.kind != .endOfInput)) :=
    ⟨hfold, hinput, ⟨hash, rest, hd, hhash⟩, hline, stopsLine_append hstop tokens⟩
  rw [hflat]
  refine ⟨_, htokens, hdirects, ?_⟩
  have hlead : (Segment.flatten (segments lead)).length = lead.length := by
    rw [segments_flatten, beforeEnd_eq_self fun t ht => hinput t (List.mem_append_left _ ht)]
  have hsegs := hdirects.segments_eq
  rw [← htokens] at hsegs
  refine (segment_unique (k := lead.length) hsegs h ?_ ?_ ?_ ?_).1
  · exact Nat.le_of_eq hlead
  · simp [Segment.tokens, hd, hlead]
  · exact Nat.le_of_eq (congrArg List.length hflat)
  · simp [Segment.tokens, hd, hflat]

/-! ## Roles -/

/-- The roles of the qualifiers in a token sequence, by their indices. -/
def roles (options : Options) (tokens : List Token) : List (Nat × Role) :=
  (occurrences options tokens).map fun o => (o.index, o.role)

/-- The role of the qualifier at an index. -/
def roleAt (options : Options) (tokens : List Token) (index : Nat) : Option Role :=
  (roles options tokens).lookup index

section

variable {options : Options} {boundary index : Nat} {w : Walk}

/-- Segments are searched one after the other, with the walk and the index that they have come
to. -/
theorem occurrencesInSegments_append (segs segs' : List Segment) :
    occurrencesInSegments options boundary w index (segs ++ segs') =
      occurrencesInSegments options boundary w index segs ++
        occurrencesInSegments options boundary (w.runSegments options segs)
          (index + (Segment.flatten segs).length) segs' := by
  induction segs generalizing w index with
  | nil => rfl
  | cons s segs ih =>
    rw [List.cons_append, occurrencesInSegments_cons, occurrencesInSegments_cons, ih,
      List.append_assoc, Segment.flatten_cons, List.length_append, ← Nat.add_assoc]
    rfl

theorem occurrencesInSegments_tokens (options : Options) (boundary : Nat) (w : Walk) (index : Nat)
    (ts : List Token) :
    occurrencesInSegments options boundary w index (ts.map .token) =
      occurrencesIn options boundary w index ts := by
  induction ts generalizing w index with
  | nil => rfl
  | cons t ts ih =>
    rw [List.map_cons, occurrencesInSegments_cons, ih]
    simp only [Segment.occurrences, occurrencesIn, Segment.tokens, Walk.segment,
      List.length_singleton]
    cases Qualifier.ofToken? t <;> rfl

/-- An occurrence lies within the segments in which it is found. -/
theorem occurrencesInSegments_index {segs : List Segment} {o : Occurrence}
    (h : o ∈ occurrencesInSegments options boundary w index segs) :
    index ≤ o.index ∧ o.index < index + (Segment.flatten segs).length := by
  obtain ⟨pre, s, post, rfl, ho⟩ := mem_occurrencesInSegments_iff.1 h
  have hindex := Segment.occurrences_index ho
  simp only [Segment.flatten_append, Segment.flatten_cons, List.length_append]
  omega

/-- Roles depend on neither the boundary nor the index of the first token. -/
theorem roles_occurrencesIn (options : Options) (boundary boundary' : Nat) (w : Walk)
    (index k : Nat) (ts : List Token) :
    (occurrencesIn options boundary' w (index + k) ts).map (fun o => (o.index, o.role)) =
      (occurrencesIn options boundary w index ts).map fun o => (o.index + k, o.role) := by
  induction ts generalizing w index with
  | nil => rfl
  | cons t ts ih =>
    have hrest := ih (w.step options t) (index + 1)
    rw [show index + 1 + k = index + k + 1 by omega] at hrest
    rw [occurrencesIn, occurrencesIn]
    cases Qualifier.ofToken? t with
    | none => exact hrest
    | some q =>
      dsimp only
      rw [List.map_cons, List.map_cons, hrest]

/-- Neither the boundary nor the index of the first token plays a part in the roles. -/
theorem roles_occurrencesInSegments (options : Options) (boundary boundary' : Nat) (w : Walk)
    (index k : Nat) (segs : List Segment) :
    (occurrencesInSegments options boundary' w (index + k) segs).map (fun o => (o.index, o.role)) =
      (occurrencesInSegments options boundary w index segs).map fun o => (o.index + k, o.role) := by
  induction segs generalizing w index with
  | nil => rfl
  | cons s segs ih =>
    have hrest := ih (w.segment options s) (index + s.tokens.length)
    rw [show index + s.tokens.length + k = index + k + s.tokens.length by omega] at hrest
    rw [occurrencesInSegments_cons, occurrencesInSegments_cons, List.map_append,
      List.map_append, hrest]
    congr 1
    cases s with
    | token t => exact roles_occurrencesIn options boundary boundary' w index k [t]
    | directive d =>
      rw [Segment.occurrences, Segment.occurrences, occurrencesInDirective, occurrencesInDirective]
      cases hbody : macroBody? d with
      | none => rfl
      | some body =>
        dsimp only
        obtain ⟨front, rfl, -⟩ := macroBody?_eq_some hbody
        rw [show index + k + (front ++ body).length - body.length = index + front.length + k by
          rw [List.length_append]; omega,
          show index + (front ++ body).length - body.length = index + front.length by
          rw [List.length_append]; omega]
        exact roles_occurrencesIn _ _ _ _ _ _ _

end

theorem lookup_eq_none {rs : List (Nat × Role)} {i : Nat} (h : ∀ r ∈ rs, r.1 ≠ i) :
    rs.lookup i = none := by
  rw [List.lookup_eq_none_iff]
  intro r hr
  exact bne_iff_ne.2 (Ne.symm (h r hr))

theorem lookup_shift (os : List Occurrence) (i k : Nat) :
    (os.map fun o => (o.index + k, o.role)).lookup (i + k) =
      (os.map fun o => (o.index, o.role)).lookup i := by
  induction os with
  | nil => rfl
  | cons o os ih =>
    rw [List.map_cons, List.map_cons, List.lookup_cons, List.lookup_cons, ih]
    have hkey : (i + k == o.index + k) = (i == o.index) := by
      rw [Bool.eq_iff_iff, beq_iff_eq, beq_iff_eq]
      omega
    rw [hkey]

/-- The role of a qualifier outside directives is the one that the walk over what is before it
gives. -/
theorem lookup_occurrencesIn (options : Options) (boundary : Nat) (w : Walk) (index k : Nat)
    (ts : List Token) :
    ((occurrencesIn options boundary w index ts).map fun o => (o.index, o.role)).lookup
      (index + k) =
      (ts[k]?.bind Qualifier.ofToken?).map fun _ => (w.run options (ts.take k)).role := by
  induction ts generalizing w index k with
  | nil => rfl
  | cons t ts ih =>
    have hlater : ((occurrencesIn options boundary (w.step options t) (index + 1) ts).map
        fun o => (o.index, o.role)).lookup index = none := by
      apply lookup_eq_none
      intro r hr
      obtain ⟨o, ho, rfl⟩ := List.mem_map.1 hr
      obtain ⟨pre, -, -, -, -, -, rfl⟩ := mem_occurrencesIn_iff.1 ho
      dsimp only
      omega
    rw [occurrencesIn]
    cases k with
    | zero =>
      cases hq : Qualifier.ofToken? t with
      | none => simpa [hq] using hlater
      | some q => simp [hq, Walk.run]
    | succ k =>
      have hrest := ih (w.step options t) (index + 1) k
      rw [show index + 1 + k = index + (k + 1) by omega] at hrest
      rw [List.getElem?_cons_succ, List.take_succ_cons]
      cases hq : Qualifier.ofToken? t with
      | none => exact hrest
      | some q =>
        dsimp only
        rw [List.map_cons, List.lookup_cons, show (index + (k + 1) == index) = false by simp]
        exact hrest

namespace Directs

variable {before d after : List Token} {options : Options}

/-- The walk at a directive. -/
abbrev walk (options : Options) (before : List Token) : Walk :=
  Walk.runSegments options {} (segments before)

theorem flatten_segments_before (h : Directs before d after) :
    Segment.flatten (segments before) = before := by
  rw [segments_flatten, beforeEnd_eq_self fun t ht => h.inInput t (List.mem_append_left _ ht)]

/-- The roles of tokens with a directive among them: those before it, those inside, and those after
it with the walk that it leaves. -/
theorem roles_eq (h : Directs before d after) :
    roles options (before ++ d ++ after) =
      roles options before ++
        ((occurrencesInDirective options (walk options before) before.length d).map
          (fun o => (o.index, o.role)) ++
        (occurrencesInSegments options 0 ((walk options before).directive options d) 0
          (segments after)).map fun o => (o.index + (before.length + d.length), o.role)) := by
  have hbefore := roles_occurrencesInSegments options (before.length - 1)
    ((before ++ d ++ after).length - 1) {} 0 0 (segments before)
  have hafter := roles_occurrencesInSegments options 0 ((before ++ d ++ after).length - 1)
    ((walk options before).directive options d) 0 (before.length + d.length) (segments after)
  rw [Nat.zero_add] at hafter
  rw [roles, occurrences, h.segments_eq, occurrencesInSegments_append, occurrencesInSegments_cons,
    List.map_append, List.map_append, h.flatten_segments_before, Nat.zero_add]
  simp only [Nat.add_zero] at hbefore
  rw [hbefore]
  congr 2

theorem lookup_roles_before (h : Directs before d after) {i : Nat} (hi : before.length ≤ i) :
    (roles options before).lookup i = none := by
  apply lookup_eq_none
  intro r hr
  obtain ⟨o, ho, rfl⟩ := List.mem_map.1 hr
  have hlt := (occurrencesInSegments_index ho).2
  rw [h.flatten_segments_before] at hlt
  dsimp only
  omega

theorem lookup_roles_inside {w : Walk} {index i : Nat} (hi : i < index ∨ index + d.length ≤ i) :
    ((occurrencesInDirective options w index d).map fun o => (o.index, o.role)).lookup i =
      none := by
  apply lookup_eq_none
  intro r hr
  obtain ⟨o, ho, rfl⟩ := List.mem_map.1 hr
  have hmem : o ∈ (Segment.directive d).occurrences options 0 w index := ho
  have hindex := Segment.occurrences_index hmem
  rw [Segment.tokens] at hindex
  dsimp only
  omega

theorem lookup_roles_after {os : List Occurrence} {i k : Nat} (hi : i < k) :
    (os.map fun o => (o.index + k, o.role)).lookup i = none := by
  apply lookup_eq_none
  intro r hr
  obtain ⟨o, -, rfl⟩ := List.mem_map.1 hr
  dsimp only
  omega

/-- The roles before a directive are those of what is before it. -/
theorem roleAt_before (h : Directs before d after) {i : Nat} (hi : i < before.length) :
    roleAt options (before ++ d ++ after) i = roleAt options before i := by
  rw [roleAt, h.roles_eq, List.lookup_append, List.lookup_append, lookup_roles_inside (.inl hi),
    lookup_roles_after (by omega), Option.or_none, Option.or_none]
  rfl

/-- The roles in a macro's body are those that the walk over the body gives. -/
theorem roleAt_inside {front body : List Token} (h : Directs before (front ++ body) after)
    (hbody : macroBody? (front ++ body) = some body) {k : Nat} (hk : k < body.length) :
    roleAt options (before ++ (front ++ body) ++ after) (before.length + (front.length + k)) =
      (body[k]?.bind Qualifier.ofToken?).map fun _ =>
        ((walk options before).enterBody.run options (body.take k)).role := by
  rw [roleAt, h.roles_eq, List.lookup_append, List.lookup_append, h.lookup_roles_before (by omega),
    lookup_roles_after (by rw [List.length_append]; omega), Option.none_or, Option.or_none,
    occurrencesInDirective, hbody]
  dsimp only
  rw [show before.length + (front ++ body).length - body.length = before.length + front.length by
    rw [List.length_append]; omega, ← Nat.add_assoc, lookup_occurrencesIn]

/-- The roles after a directive depend on what it makes of the walk, and on what is after it. -/
theorem roleAt_after (h : Directs before d after) (i : Nat) :
    roleAt options (before ++ d ++ after) (before.length + d.length + i) =
      ((occurrencesInSegments options 0 ((walk options before).directive options d) 0
        (segments after)).map fun o => (o.index, o.role)).lookup i := by
  rw [roleAt, h.roles_eq, List.lookup_append, List.lookup_append, h.lookup_roles_before (by omega),
    lookup_roles_inside (.inr (by omega)), Option.none_or, Option.none_or,
    Nat.add_comm, lookup_shift]

end Directs

end EastConst
