import EastConst.Proofs.Occurrence.Reader

/-!
# Reading over gaps

Of whitespace, a reader notes only whether there is any and whether it ends the line
(`Reader.cross`). So a token sequence may be given by its other tokens, each with the gap before it
(`Token.gaps`). What holds of every token as it is read that way holds as it is read in the sequence
itself (`Reader.Every.of_gaps`), if the whitespace tokens in a row end the line where they do by
themselves (`Token.SpacesApart`).
-/

namespace EastConst

/-! ## Crossing a gap -/

namespace Reader

/-- The reader behind whitespace that does not end the line: behind the name of a macro, it is in
the body. -/
def settle (r : Reader) : Reader :=
  if r.mode = .front .name then ⟨.body r.walk.enterBody, r.walk⟩ else r

/-- The reader behind a gap. -/
def cross (r : Reader) (gap : List Char) : Reader :=
  if endsLine gap then ⟨.lineStart, r.leave⟩ else if gap = [] then r else r.settle

section

variable {options : Options} {r : Reader} {a b gap : List Char} {t : Token}

@[simp]
theorem cross_nil : r.cross [] = r := rfl

/-- A gap that ends the line takes the reader out of a directive. -/
theorem cross_of_endsLine (h : endsLine gap = true) : r.cross gap = ⟨.lineStart, r.leave⟩ :=
  if_pos h

/-- A gap on the line shows only that a macro's name has no parameters. -/
theorem cross_of_onLine (h : endsLine gap = false) (hne : gap ≠ []) : r.cross gap = r.settle := by
  rw [cross, if_neg (by simp [h]), if_neg hne]

theorem settle_of_ne (h : r.mode ≠ .front .name) : r.settle = r :=
  if_neg h

theorem settle_settle : r.settle.settle = r.settle := by
  by_cases h : r.mode = .front .name
  · have hsettle : r.settle = ⟨.body r.walk.enterBody, r.walk⟩ := if_pos h
    rw [hsettle, settle_of_ne (by simp)]
  · rw [settle_of_ne h, settle_of_ne h]

theorem leave_settle : r.settle.leave = r.leave := by
  by_cases h : r.mode = .front .name
  · have hnesting : r.walk.enterBody.nesting.truncate r.walk.nesting.depth = r.walk.nesting :=
      Nesting.truncate_depth r.walk.nesting
    rw [settle, if_pos h]
    simp only [leave, h, hnesting]
  · rw [settle_of_ne h]

theorem walk_settle : r.settle.walk = r.walk := by
  rw [settle]
  split <;> rfl

theorem isOutside_settle : r.settle.isOutside = r.isOutside := by
  by_cases h : r.mode = .front .name
  · simp [settle, isOutside, h]
  · rw [settle_of_ne h]

/-- Whitespace is read as a gap. -/
theorem read_whitespace (hk : t.kind = .whitespace) (hne : t.text ≠ []) :
    r.read options t = r.cross t.text := by
  have hends : t.endsLine = endsLine t.text := by simp [Token.endsLine, hk]
  have htrivia : t.isTrivia = true := by simp [Token.isTrivia, hk]
  have hmark (m : Mark) : t.isMark m = false := Token.isMark_of_isTrivia htrivia m
  rw [read, hends, cross]
  cases endsLine t.text with
  | true => rfl
  | false =>
    rw [if_neg (by simp), if_neg (by simp), if_neg hne, take, enter, settle]
    obtain ⟨mode, walk⟩ := r
    have hstep (w : Walk) : w.step options t = w := Walk.step_whitespace hk
    cases mode with
    | lineStart => simp [hmark, htrivia, hstep]
    | midLine => simp [hstep]
    | body v => simp [hstep]
    | front f =>
      cases f with
      | hash => simp [Front.after, htrivia]
      | define => simp [Front.after, htrivia]
      | name => simp [hmark, hstep]
      | parameters depth =>
        have hnone : t.mark? = none := by simp [Token.mark?, hk]
        simp [Front.after, hnone]
      | other => simp [Front.after]

theorem settle_cross (h : endsLine gap = false) : (r.cross gap).settle = r.settle := by
  rw [cross, if_neg (by simp [h])]
  split
  · rfl
  · exact settle_settle

theorem walk_cross (h : endsLine gap = false) : (r.cross gap).walk = r.walk := by
  rw [← walk_settle, settle_cross h, walk_settle]

theorem cross_of_settled (h : r.settle = r) (hgap : endsLine gap = false) : r.cross gap = r := by
  rw [cross, if_neg (by simp [hgap]), h]
  split <;> rfl

/-- A gap in two parts, which end the line as the whole does. -/
theorem cross_append (h : endsLine (a ++ b) = (endsLine a || endsLine b)) :
    r.cross (a ++ b) = (r.cross a).cross b := by
  cases ha : endsLine a with
  | true =>
    rw [cross_of_endsLine (by rw [h, ha, Bool.true_or]), cross_of_endsLine ha, cross]
    split
    · rfl
    · split <;> rfl
  | false =>
    rw [ha, Bool.false_or] at h
    by_cases hna : a = []
    · rw [hna, List.nil_append, cross_nil]
    · rw [cross_of_onLine ha hna]
      cases hb : endsLine b with
      | true => rw [cross_of_endsLine (by rw [h, hb]), cross_of_endsLine hb, leave_settle]
      | false =>
        rw [cross_of_onLine (by rw [h, hb]) (by simp [hna])]
        by_cases hnb : b = []
        · rw [hnb, cross_nil]
        · rw [cross_of_onLine hb hnb, settle_settle]

end

/-! ## Steps by modes -/

section

variable {r : Reader} {v : Walk} {t : Token} {f : Front}

/-- A reader is outside directives at the start of a line and within it. -/
theorem isOutside_iff : r.isOutside = true ↔ r.mode = .lineStart ∨ r.mode = .midLine := by
  cases hm : r.mode <;> simp [isOutside, hm]

theorem isOutside_of_front (h : r.mode = .front f) : r.isOutside = false := by
  simp [isOutside, h]

theorem isOutside_of_body (h : r.mode = .body v) : r.isOutside = false := by
  simp [isOutside, h]

/-- Outside directives a qualifier is met by the walk over the source. -/
theorem here_of_outside (h : r.isOutside = true)
    (hhash : t.isMark .hash = true → r.mode = .midLine) : r.here t = some r.walk := by
  obtain ⟨mode, walk⟩ := r
  rcases isOutside_iff.1 h with rfl | rfl
  · exact if_neg fun hm => by simpa using hhash hm
  · rfl

/-- Outside directives, a token other than the `#` of a directive is walked over. -/
theorem read_outside (options : Options) (h : r.isOutside = true)
    (hhash : t.isMark .hash = true → r.mode = .midLine) (hline : t.endsLine = false) :
    r.here t = some r.walk ∧
      r.read options t = ⟨if t.isTrivia then r.mode else .midLine, r.walk.step options t⟩ := by
  refine ⟨here_of_outside h hhash, ?_⟩
  obtain ⟨mode, walk⟩ := r
  rw [read_of_onLine hline]
  rcases isOutside_iff.1 h with rfl | rfl
  · exact if_neg fun hm => by simpa using hhash hm
  · cases t.isTrivia <;> rfl

theorem read_hash (options : Options) (h : r.mode = .lineStart) (hhash : t.isMark .hash = true) :
    r.here t = none ∧ r.read options t = ⟨.front .hash, r.walk⟩ := by
  obtain ⟨mode, walk⟩ := r
  obtain rfl : mode = .lineStart := h
  rw [read_of_onLine (Token.endsLine_of_isMark hhash)]
  exact ⟨if_pos hhash, if_pos hhash⟩

/-- In a front, a token is only counted, unless the body starts with it. -/
theorem read_front (options : Options) (h : r.mode = .front f)
    (hparen : f = .name → t.isMark .parenOpen = true) (hline : t.endsLine = false) :
    r.here t = none ∧
      r.read options t = ⟨((f.after t).map .front).getD (.body r.walk.enterBody), r.walk⟩ := by
  have henter : r.enter t = r := if_neg fun hname => by
    rw [h, Mode.front.injEq] at hname
    rw [hparen hname.1] at hname
    cases hname.2
  rw [read_of_onLine hline, take, here, henter, h]
  exact ⟨rfl, rfl⟩

/-- In the body of a macro, a token is walked over. A token other than a parenthesis may be the
first one behind the name. -/
theorem read_body (options : Options) (h : r.settle.mode = .body v)
    (hparen : r.mode = .front .name → t.isMark .parenOpen = false) (hline : t.endsLine = false) :
    r.here t = some v ∧ r.read options t = ⟨.body (v.step options t), r.walk⟩ := by
  have henter : (r.enter t).mode = .body v := by
    by_cases hname : r.mode = .front .name
    · rw [settle, if_pos hname] at h
      rw [enter, if_pos ⟨hname, hparen hname⟩, h]
    · rw [settle_of_ne hname] at h
      rw [enter_of_ne hname, h]
  rw [read_of_onLine hline, take, here, henter]
  exact ⟨rfl, rfl⟩

theorem leave_of_outside (h : r.isOutside = true) : r.leave = r.walk := by
  rcases isOutside_iff.1 h with hmode | hmode <;> rw [leave, hmode]

theorem leave_of_front (h : r.mode = .front f) : r.leave = r.walk := by
  rw [leave, h]

/-- Leaving a body hands back the walk before it, with the brackets that are left. -/
theorem leave_of_body (h : r.mode = .body v) :
    r.leave = { r.walk with nesting := v.nesting.truncate r.walk.nesting.depth } := by
  rw [leave, h]

theorem settle_of_outside (h : r.isOutside = true) : r.settle = r :=
  settle_of_ne fun hmode => by
    rw [isOutside_of_front hmode] at h
    cases h

/-- A macro's name that no parenthesis touches is followed by the body. -/
theorem settle_of_name (h : r.mode = .front .name) : r.settle = ⟨.body r.walk.enterBody, r.walk⟩ :=
  if_pos h

/-- Outside directives, a gap may start a line. -/
theorem cross_outside (h : r.isOutside = true) (gap : List Char) :
    r.cross gap = ⟨if endsLine gap then .lineStart else r.mode, r.walk⟩ := by
  rw [cross, leave_of_outside h, settle_of_outside h]
  cases endsLine gap with
  | true => rfl
  | false => simp

/-- A longer gap does not lead back into a directive. -/
theorem cross_append_outside {a : List Char} (h : (r.cross a).isOutside = true) (b : List Char) :
    (r.cross (a ++ b)).isOutside = true ∧ (r.cross (a ++ b)).walk = (r.cross a).walk := by
  cases ha : endsLine a with
  | true =>
    rw [cross_of_endsLine ha, cross_of_endsLine (endsLine_append_left ha b)]
    exact ⟨rfl, rfl⟩
  | false =>
    have hout : r.isOutside = true := by
      rw [cross, if_neg (by simp [ha])] at h
      split at h
      · exact h
      · rwa [isOutside_settle] at h
    rw [cross_outside hout, cross_outside hout]
    refine ⟨?_, rfl⟩
    split
    · rfl
    · exact hout

/-- A longer gap does not lead out of a directive, unless the line ends in it. -/
theorem cross_append_inside {a b : List Char} (h : (r.cross a).isOutside = false)
    (hb : endsLine b = false) :
    (r.cross (a ++ b)).settle = (r.cross a).settle ∧
    (r.cross (a ++ b)).walk = (r.cross a).walk := by
  have ha : endsLine a = false := by
    refine Bool.eq_false_iff.2 fun ha => ?_
    rw [cross_of_endsLine ha] at h
    cases h
  have hab := endsLine_append_of_false ha hb
  rw [settle_cross hab, settle_cross ha, walk_cross hab, walk_cross ha]
  exact ⟨rfl, rfl⟩

theorem settle_of_body (h : r.mode = .body v) : r.settle.mode = .body v := by
  rw [settle_of_ne (by simp [h]), h]

theorem isOutside_of_settle (h : r.settle.mode = .body v) : r.isOutside = false := by
  rw [← isOutside_settle, isOutside_of_body h]

/-- Where a walk comes to a token, the reader is outside directives, or in the body of a macro. -/
theorem outside_or_body (h : (r.here t).isSome = true) :
    r.isOutside = true ∧ (t.isMark .hash = true → r.mode = .midLine) ∨
      ∃ v, r.settle.mode = .body v ∧ (r.mode = .front .name → t.isMark .parenOpen = false) := by
  obtain ⟨mode, walk⟩ := r
  cases mode with
  | lineStart =>
    refine .inl ⟨rfl, fun hm => ?_⟩
    have hnone : here ⟨.lineStart, walk⟩ t = none := if_pos hm
    rw [hnone] at h
    cases h
  | midLine => exact .inl ⟨rfl, fun _ => rfl⟩
  | body v => exact .inr ⟨v, rfl, by simp⟩
  | front f =>
    by_cases hname : f = .name ∧ t.isMark .parenOpen = false
    · obtain ⟨rfl, hparen⟩ := hname
      exact .inr ⟨walk.enterBody, rfl, fun _ => hparen⟩
    · have henter : enter ⟨.front f, walk⟩ t = ⟨.front f, walk⟩ :=
        if_neg fun hm => hname ⟨Mode.front.inj hm.1, hm.2⟩
      rw [here, henter] at h
      cases h

/-- Whether a walk comes to the next token, unless a directive starts there. -/
def Holds (r : Reader) (w : Walk) : Prop :=
  ∀ u : Token, u.isMark .hash = false → r.here u = some w

theorem Holds.exists_body {w : Walk} (h : r.Holds w) (hin : r.isOutside = false) :
    ∃ v, r.mode = .body v := by
  -- a walk that comes to an opening parenthesis has entered the body
  have hhere := h ⟨.punctuation, ['(']⟩ rfl
  rcases outside_or_body (by rw [hhere]; rfl) with ⟨hout, -⟩ | ⟨v, hv, hparen⟩
  · rw [hin] at hout
    cases hout
  · rw [settle_of_ne fun hname => Bool.noConfusion (hparen hname)] at hv
    exact ⟨v, hv⟩

/-- A walk that has come to a token comes to the next one, unless the line of its directive has
ended. -/
theorem holds_read {w : Walk} (options : Options) (h : r.here t = some w)
    (hline : r.isOutside = false → t.endsLine = false) :
    (r.read options t).Holds (w.step options t) ∧ (r.read options t).isOutside = r.isOutside := by
  have hnext {r : Reader} (hout : r.isOutside = true) : r.Holds r.walk :=
    fun u hhash => here_of_outside hout (by simp [hhash])
  rcases outside_or_body (by rw [h]; rfl) with ⟨hout, hmid⟩ | ⟨v, hv, hparen⟩
  · rw [hout]
    cases hends : t.endsLine with
    | true =>
      obtain rfl := Option.some.inj (h.symm.trans (here_of_outside hout hmid))
      rw [read_of_endsLine hends, leave_of_outside hout, step_of_endsLine hends]
      exact ⟨hnext rfl, rfl⟩
    | false =>
      obtain ⟨hhere, hread⟩ := read_outside options hout hmid hends
      obtain rfl := Option.some.inj (h.symm.trans hhere)
      rw [hread]
      have hout' : isOutside ⟨if t.isTrivia then r.mode else .midLine, r.walk.step options t⟩ =
          true := by
        split
        · exact hout
        · rfl
      exact ⟨hnext hout', hout'⟩
  · have hin := isOutside_of_settle hv
    obtain ⟨hhere, hread⟩ := read_body options hv hparen (hline hin)
    obtain rfl := Option.some.inj (h.symm.trans hhere)
    rw [hread, hin]
    exact ⟨fun _ _ => rfl, rfl⟩

/-- A directive is left only where its line ends. -/
theorem isOutside_read (options : Options) (h : r.isOutside = false) (hline : t.endsLine = false) :
    (r.read options t).isOutside = false := by
  have hin : (r.enter t).isOutside = false := by rw [isOutside_enter, h]
  rw [read_of_onLine hline, take]
  cases hmode : (r.enter t).mode with
  | lineStart => simp [isOutside, hmode] at hin
  | midLine => simp [isOutside, hmode] at hin
  | front f => cases hafter : f.after t <;> simp [isOutside, hafter]
  | body v => rfl

end

end Reader

/-! ## Tokens with the gaps before them -/

/-- Whether a text ends the line before a text as it does by itself. -/
def Joins (gap text : List Char) : Prop :=
  ∀ w, w <+: text → endsLine (gap ++ w) = (endsLine gap || endsLine w)

theorem joins_nil (text : List Char) : Joins [] text :=
  fun _ _ => rfl

/-- Two gaps in a row end the line before a text as each of them does by itself. -/
theorem Joins.append {a b text : List Char} (h : Joins a (b ++ text)) (hb : Joins b text) :
    Joins (a ++ b) text := by
  intro w hw
  have hprefix : b ++ w <+: b ++ text := (List.prefix_append_right_inj b).2 hw
  rw [List.append_assoc, h (b ++ w) hprefix, hb w hw, h b (List.prefix_append b text),
    Bool.or_assoc]

namespace Token

/-- The tokens that are not whitespace, each with the whitespace before it. What is before the first
one starts with `gap`. -/
def gaps : (gap : List Char) → List Token → List (List Char × Token)
  | _, [] => []
  | gap, t :: ts => if t.kind = .whitespace then gaps (gap ++ t.text) ts else (gap, t) :: gaps [] ts

/-- Without their gaps, the tokens that are not whitespace are left. -/
theorem map_snd_gaps (gap : List Char) (ts : List Token) :
    (gaps gap ts).map Prod.snd = ts.filter (·.kind != .whitespace) := by
  induction ts generalizing gap with
  | nil => rfl
  | cons t ts ih =>
    rw [gaps]
    by_cases hk : t.kind = .whitespace
    · rw [if_pos hk, List.filter_cons_of_neg (by simp [hk]), ih]
    · rw [if_neg hk, List.filter_cons_of_pos (by simp [hk]), List.map_cons, ih]

/-- Whether each whitespace token is there, and ends the line as it does by itself. -/
def SpacesApart (ts : List Token) : Prop :=
  ∀ pre t post, ts = pre ++ t :: post → t.kind = .whitespace →
    t.text ≠ [] ∧ Joins t.text (post.flatMap Token.text)

theorem SpacesApart.of_append {ts ts' : List Token} (h : SpacesApart (ts ++ ts')) :
    SpacesApart ts' :=
  fun pre u post hts => h (ts ++ pre) u post (by rw [hts, List.append_assoc])

theorem SpacesApart.tail {t : Token} {ts : List Token} (h : SpacesApart (t :: ts)) :
    SpacesApart ts :=
  (show SpacesApart ([t] ++ ts) from h).of_append

theorem takeWhile_gaps_of_endsLine {gap : List Char} (h : EastConst.endsLine gap = true)
    (ts : List Token) : (gaps gap ts).takeWhile (!EastConst.endsLine ·.1) = [] := by
  induction ts generalizing gap with
  | nil => rfl
  | cons t ts ih =>
    rw [gaps]
    split
    · exact ih (endsLine_append_left h _)
    · exact List.takeWhile_cons_of_neg (by simp [h])

/-- The tokens up to where the line ends. -/
theorem takeWhile_gaps {gap : List Char} {ts : List Token} (hspaces : SpacesApart ts)
    (hjoins : Joins gap (ts.flatMap Token.text)) (hgap : EastConst.endsLine gap = false) :
    ((gaps gap ts).takeWhile (!EastConst.endsLine ·.1)).map Prod.snd =
      (ts.takeWhile (!·.endsLine)).filter (·.kind != .whitespace) := by
  induction ts generalizing gap with
  | nil => rfl
  | cons t ts ih =>
    rw [gaps]
    by_cases hk : t.kind = .whitespace
    · have hline : t.endsLine = EastConst.endsLine t.text := by simp [endsLine, hk]
      have hends : EastConst.endsLine (gap ++ t.text) = t.endsLine := by
        rw [hjoins t.text (List.prefix_append _ _), hgap, Bool.false_or, hline]
      rw [if_pos hk]
      cases ht : t.endsLine with
      | true =>
        rw [takeWhile_gaps_of_endsLine (hends.trans ht), List.takeWhile_cons_of_neg (by simp [ht])]
        rfl
      | false =>
        rw [ih hspaces.tail (hjoins.append (hspaces [] t ts rfl hk).2) (hends.trans ht),
          List.takeWhile_cons_of_pos (by simp [ht]), List.filter_cons_of_neg (by simp [hk])]
    · have ht : t.endsLine = false := by simp [endsLine, hk]
      rw [if_neg hk, List.takeWhile_cons_of_pos (by simp [hgap]), List.map_cons,
        ih hspaces.tail (joins_nil _) rfl, List.takeWhile_cons_of_pos (by simp [ht]),
        List.filter_cons_of_pos (by simp [hk])]

end Token

namespace Reader

/-- Whether every token that a reader comes to has a property, with the tokens after it. -/
def Every (options : Options) (p : Reader → Token → List (List Char × Token) → Prop) :
    Reader → List (List Char × Token) → Prop
  | _, [] => True
  | r, (gap, t) :: rest =>
    p (r.cross gap) t rest ∧ Every options p ((r.cross gap).read options t) rest

section

variable {options : Options} {p : Reader → Token → List (List Char × Token) → Prop} {r : Reader}
  {gap : List Char} {t : Token} {ts : List Token}

/-- What holds of every token with its gap holds of it where it stands. -/
theorem Every.of_gaps (h : Every options p r (Token.gaps gap ts)) (hspaces : Token.SpacesApart ts)
    (hjoins : Joins gap (ts.flatMap Token.text)) {pre post : List Token}
    (hts : ts = pre ++ t :: post)
    (ht : t.kind ≠ .whitespace) : p ((r.cross gap).run options pre) t (Token.gaps [] post) := by
  induction ts generalizing r gap pre with
  | nil => simp at hts
  | cons u ts ih =>
    rw [Token.gaps] at h
    cases pre with
    | nil =>
      obtain ⟨rfl, rfl⟩ := List.cons.inj hts
      rw [if_neg ht] at h
      exact h.1
    | cons v pre =>
      obtain ⟨rfl, rfl⟩ := List.cons.inj hts
      by_cases hk : u.kind = .whitespace
      · rw [if_pos hk] at h
        obtain ⟨hne, hu⟩ := hspaces [] u _ rfl hk
        have hcross : r.cross (gap ++ u.text) = (r.cross gap).read options u := by
          rw [read_whitespace hk hne, cross_append (hjoins u.text (List.prefix_append _ _))]
        have := ih h hspaces.tail (hjoins.append hu) rfl
        rwa [hcross] at this
      · rw [if_neg hk] at h
        exact ih h.2 hspaces.tail (joins_nil _) rfl

end

/-- What is known of a qualifier that a reader finds. -/
theorem mem_found {options : Options} {boundary index : Nat} {r : Reader} {ts : List Token}
    {o : Occurrence} (h : o ∈ found options boundary r index ts) :
    ∃ pre t post w, ts = pre ++ t :: post ∧ Qualifier.ofToken? t = some o.qualifier ∧
      (r.run options pre).here t = some w ∧ o.index = index + pre.length ∧ o.role = w.role ∧
      o.boundary = if (r.run options pre).isOutside then boundary
        else o.index + ((t :: post).takeWhile (!·.endsLine)).length := by
  induction ts generalizing r index with
  | nil => cases h
  | cons t ts ih =>
    rw [found_cons, List.mem_append] at h
    rcases h with h | h
    · split at h
      · rename_i w q hhere hq
        obtain rfl := List.mem_singleton.1 h
        exact ⟨[], t, ts, w, rfl, hq, hhere, rfl, rfl, rfl⟩
      · cases h
    · obtain ⟨pre, u, post, w, rfl, hq, hhere, hindex, hrole, hboundary⟩ := ih h
      refine ⟨t :: pre, u, post, w, rfl, hq, hhere, ?_, hrole, hboundary⟩
      rw [hindex, List.length_cons]
      omega

/-- A reader finds every qualifier that it comes to. -/
theorem exists_mem_found {options : Options} (boundary index : Nat) {r : Reader}
    {pre : List Token} (post : List Token) {t : Token} {q : Qualifier} {w : Walk}
    (hq : Qualifier.ofToken? t = some q) (hhere : (r.run options pre).here t = some w) :
    ∃ o ∈ found options boundary r index (pre ++ t :: post), o.index = index + pre.length ∧
      o.qualifier = q ∧ o.role = w.role := by
  induction pre generalizing r index with
  | nil =>
    rw [run_nil] at hhere
    rw [List.nil_append, found_cons, hhere, hq]
    exact ⟨_, List.mem_append_left _ List.mem_cons_self, rfl, rfl, rfl⟩
  | cons u pre ih =>
    obtain ⟨o, ho, hindex, hrest⟩ := ih (index + 1) hhere
    refine ⟨o, ?_, ?_, hrest⟩
    · rw [List.cons_append, found_cons]
      exact List.mem_append_right _ ho
    · rw [hindex, List.length_cons]
      omega

end Reader

end EastConst
