import EastConst.Proofs.Plan.Rewalking

/-!
# Reading the output beside the source

A reader of what a plan writes follows the reader of the source (`Follows`). In a directive they are
at the same place; outside they may disagree, between a qualifier that has gone and its type, on
whether a line has started. There is one lemma for each kind of token: whitespace, a qualifier that
goes, a token that stays, and the qualifiers that are put after it.
-/

namespace EastConst

section

variable {options : Options} {source : List Char} {i : Nat} {t : Token} {q : Qualifier}
  {r c : Reader} {next : Option Token}

/-- How the reader of the source before an index and the reader of what is written for it compare,
the second one behind the gap. Where a qualifier has gone and its type has not been met, a line may
have started for one of them only, and the body of a macro may not have been entered. -/
inductive Follows (options : Options) (source : List Char) (i : Nat) (r c : Reader) : Prop
  | outside (hr : r.isOutside = true) (hc : c.isOutside = true)
    (hmode : ¬ InLead options source i → c.mode = r.mode)
    (hwalk : Walk.Tracks options source i (r.nextOutside options (tokensFrom source i)) r.walk
      c.walk)
  | front (f : Front) (hr : r.mode = .front f) (hc : c.mode = .front f)
    (hwalk : Walk.Keeps (r.nextOutside options (tokensFrom source i)) r.walk c.walk)
  | body (v v' : Walk) (hr : r.mode = .body v) (hc : c.settle.mode = .body v')
    (hmode : ¬ InLead options source i → c.mode = .body v')
    (hbody : Walk.Tracks options source i (Reader.nextOnLine (tokensFrom source i)) v v')
    (hwalk : Walk.Keeps (r.nextOutside options (tokensFrom source i)) r.walk c.walk)

/-! ## Gaps -/

/-- No qualifier goes in the front of a directive. -/
theorem not_inLead_of_front {f : Front} (ht : (beforeEnd (tokens source))[i]? = some t)
    (hk : t.kind = .whitespace) (hr : (readerAt options source i).mode = .front f) :
    ¬ InLead options source i := by
  intro hi
  rcases hi.reader ht hk with hout | ⟨-, v, hv⟩
  · rw [Reader.isOutside_of_front hr] at hout
    cases hout
  · rw [hr] at hv
    cases hv

/-- In the body of a macro, the line does not end before the type of a qualifier that goes. -/
theorem not_inLead_of_body {v : Walk} (ht : (beforeEnd (tokens source))[i]? = some t)
    (hk : t.kind = .whitespace) (hr : (readerAt options source i).mode = .body v)
    (hends : endsLine t.text = true) : ¬ InLead options source i := by
  intro hi
  rcases hi.reader ht hk with hout | ⟨honLine, -⟩
  · rw [Reader.isOutside_of_body hr] at hout
    cases hout
  · rw [Token.endsLine, hk, hends] at honLine
    cases honLine

/-- Readers in the same front of a directive follow each other behind whitespace. It takes them to
the body of the macro, out of the directive, or nowhere. -/
theorem Follows.cross_front {f : Front} {a b : List Char} (hr : r.mode = .front f)
    (hc : c.mode = .front f) (ha : a ≠ []) (hline : endsLine b = endsLine a)
    (hsame : ¬ InLead options source i → b = a)
    (hwalk : Walk.Keeps ((r.cross a).nextOutside options (tokensFrom source i)) r.walk c.walk) :
    Follows options source i (r.cross a) (c.cross b) := by
  cases hends : endsLine a with
  | true =>
    rw [Reader.cross_of_endsLine hends, Reader.leave_of_front hr] at hwalk ⊢
    rw [Reader.cross_of_endsLine (hline.trans hends), Reader.leave_of_front hc]
    exact .outside rfl rfl (fun _ => rfl) (.inl hwalk)
  | false =>
    have hb := hline.trans hends
    rw [Reader.cross_of_onLine hends ha] at hwalk ⊢
    by_cases hname : f = .name
    · rw [hname] at hr hc
      rw [Reader.settle_of_name hr] at hwalk ⊢
      have hc' := Reader.settle_of_name hc
      refine .body _ _ rfl (by rw [Reader.settle_cross hb, hc']) (fun hi => ?_) (.inl ?_)
        (by rwa [Reader.walk_cross hb])
      · rw [hsame hi, Reader.cross_of_onLine hends ha, hc']
      · rw [hwalk.agrees.enterBody]
        exact .same _
    · have hsettle (x : Reader) (hx : x.mode = .front f) : x.settle = x :=
        Reader.settle_of_ne (by simpa [hx] using hname)
      rw [hsettle r hr] at hwalk ⊢
      rw [Reader.cross_of_settled (hsettle c hc) hb]
      exact .front f hr hc hwalk

/-- Readers in the bodies of macros that agree follow each other behind the end of the line. -/
theorem Follows.leave_body {v v' : Walk} {a b : List Char} (hr : r.mode = .body v)
    (hc : c.mode = .body v') (ha : endsLine a = true) (hb : endsLine b = true)
    (hbody : Walk.Agrees v v')
    (hwalk : Walk.Keeps ((r.cross a).nextOutside options (tokensFrom source i)) r.walk c.walk) :
    Follows options source i (r.cross a) (c.cross b) := by
  rw [Reader.cross_of_endsLine ha, Reader.leave_of_body hr] at hwalk ⊢
  rw [Reader.cross_of_endsLine hb, Reader.leave_of_body hc]
  refine .outside rfl rfl (fun _ => rfl) (.inl ?_)
  rw [← hbody.nesting, ← hwalk.agrees.nesting]
  exact hwalk.withNesting _

/-- The step lemma for whitespace: the readers still follow each other behind it, whatever is left
of it. -/
theorem Follows.whitespace {r' : Reader} {gap : List Char}
    (h : Follows options source i (readerAt options source i) (r'.cross gap))
    (hjoins : ¬ InLead options source i → Joins gap (textFrom (tokens source) i))
    (ht : (beforeEnd (tokens source))[i]? = some t) (hk : t.kind = .whitespace) :
    Follows options source (i + 1) (readerAt options source (i + 1))
      (r'.cross (gap ++ (planOf options source).piece t i)) := by
  obtain ⟨ht', -⟩ := getElem?_beforeEnd.1 ht
  have hsig : t.isSignificant = false := by simp [Token.isSignificant, Token.isTrivia, hk]
  have hne : t.text ≠ [] := text_ne_nil ht' (by simp [hk])
  have hnext : (readerAt options source i).nextOutside options (tokensFrom source i) =
      (readerAt options source (i + 1)).nextOutside options (tokensFrom source (i + 1)) := by
    rw [tokensFrom_cons ht, Reader.nextOutside_of_insignificant hsig, readerAt_succ ht]
  have hread : readerAt options source (i + 1) = (readerAt options source i).cross t.text := by
    rw [readerAt_succ ht, Reader.read_whitespace hk hne]
  have hback : ¬ InLead options source (i + 1) → ¬ InLead options source i :=
    mt fun h => h.succ ht' hsig
  obtain ⟨hline, -⟩ := endsLine_piece_of_whitespace options ht' hk
  have hcross (hi : ¬ InLead options source i) :
      r'.cross (gap ++ (planOf options source).piece t i) =
        (r'.cross gap).cross ((planOf options source).piece t i) :=
    Reader.cross_append (endsLine_append_piece (hjoins hi) ht' hk)
  rw [hread] at hnext ⊢
  cases h with
  | outside hr hc hmode hwalk =>
    obtain ⟨hc', hwalk'⟩ := Reader.cross_append_outside hc ((planOf options source).piece t i)
    have hr' := Reader.cross_append_outside (r := readerAt options source i) (a := []) hr t.text
    rw [List.nil_append, Reader.cross_nil] at hr'
    refine .outside hr'.1 hc' (fun hi => ?_) ?_
    · rw [hcross (hback hi), piece_eq_text ht' hk hi, Reader.cross_outside hc,
        Reader.cross_outside hr, hmode (hback hi)]
    · rw [← hnext, hwalk', hr'.2]
      exact hwalk.insignificant ht' hsig
  | front f hr hc hwalk =>
    rw [hnext] at hwalk
    rw [hcross (not_inLead_of_front ht hk hr)]
    exact .cross_front hr hc hne hline (piece_eq_text ht' hk) hwalk
  | body v v' hr hc hmode hbody hwalk =>
    rw [hnext] at hwalk
    cases hends : endsLine t.text with
    | true =>
      have hi := not_inLead_of_body ht hk hr hends
      rw [hcross hi]
      exact .leave_body hr (hmode hi) hends (hline.trans hends) hbody.agrees hwalk
    | false =>
      have hpiece := hline.trans hends
      obtain ⟨hsettle, hwalk'⟩ :=
        Reader.cross_append_inside (Reader.isOutside_of_settle hc) hpiece
      rw [Reader.cross_of_settled (Reader.settle_of_ne (by simp [hr])) hends] at hwalk ⊢
      rw [tokensFrom_cons ht, Reader.nextOnLine_of_insignificant hsig
        (by simp [Token.endsLine, hends])] at hbody
      refine .body v v' hr (by rw [hsettle, hc]) (fun hi => ?_) (hbody.insignificant ht' hsig) ?_
      · rw [hcross (hback hi), Reader.cross_of_settled (Reader.settle_of_ne ?_) hpiece,
          hmode (hback hi)]
        simp [hmode (hback hi)]
      · rwa [hwalk']

/-! ## Meeting a token -/

theorem InLead.isMark_eq_false (h : InLead options source i) (ht : (tokens source)[i]? = some t)
    {m : Mark} (hm : m ≠ .scope) : t.isMark m = false := by
  obtain ⟨e, he, k, hk, hki, hi⟩ := h
  have hmoves := mem_movable (tokens_terminated source) he
  rcases Nat.lt_or_eq_of_le hi with hlt | rfl
  · exact Token.isMark_of_isLeadIn (hmoves.isLeadIn hk hki hlt ht) m
  · obtain ⟨u, hu, hstart, -⟩ := hmoves.type
    obtain rfl := Option.some.inj (ht.symm.trans hu)
    exact Token.isMark_of_startsType hstart hm

/-- How a token that stays is met: by the walks outside directives, by the walks in the body of a
macro, or by none. -/
inductive Meets (options : Options) (source : List Char) (i : Nat) (t : Token) (r c : Reader) : Prop
  | outside (hr : r.isOutside = true) (hc : c.isOutside = true)
    (hhash : t.isMark .hash = true → r.mode = .midLine ∧ c.mode = .midLine)
    (hmode : ¬ InLead options source i → c.mode = r.mode)
    (hwalk : Walk.Tracks options source i (r.nextOutside options (tokensFrom source i)) r.walk
      c.walk)
  | body (v v' : Walk) (hr : r.settle.mode = .body v) (hc : c.settle.mode = .body v')
    (hparen : r.mode = .front .name ∨ c.mode = .front .name → t.isMark .parenOpen = false)
    (hbody : Walk.Tracks options source i (Reader.nextOnLine (tokensFrom source i)) v v')
    (hwalk : Walk.Keeps (r.nextOutside options (tokensFrom source i)) r.walk c.walk)
  | unread (hr : r.here t = none) (hc : c.here t = none)
    (hmode : (r.read options t).isOutside = false)
    (hfresh : ∀ v, (r.read options t).mode = .body v → v.last = none)
    (hread : (c.read options t).mode = (r.read options t).mode)
    (hwalk : Walk.Keeps (r.nextOutside options (tokensFrom source i)) (r.read options t).walk
      (c.read options t).walk)

/-- Readers that follow each other meet a token alike. -/
theorem Follows.meets (h : Follows options source i r c)
    (ht : (beforeEnd (tokens source))[i]? = some t) (hline : t.endsLine = false) :
    Meets options source i t r c := by
  have ht' := (getElem?_beforeEnd.1 ht).1
  cases h with
  | outside hr hc hmode hwalk =>
    by_cases hhash : t.isMark .hash = true
    · have hi : ¬ InLead options source i := fun hi => by
        rw [hi.isMark_eq_false ht' (by decide)] at hhash
        cases hhash
      have hwalk' := hwalk.resolve_right fun h => hi h.inLead
      rcases Reader.isOutside_iff.1 hr with hstart | hmid
      · obtain ⟨hhere, hread⟩ := Reader.read_hash options hstart hhash
        obtain ⟨hhere', hread'⟩ := Reader.read_hash options ((hmode hi).trans hstart) hhash
        refine .unread hhere hhere' ?_ ?_ ?_ ?_
        · rw [hread]
          rfl
        · simp [hread]
        · rw [hread, hread']
        · rw [hread, hread']
          exact hwalk'
      · exact .outside hr hc (fun _ => ⟨hmid, (hmode hi).trans hmid⟩) hmode hwalk
    · exact .outside hr hc (fun hm => absurd hm hhash) hmode hwalk
  | front f hr hc hwalk =>
    by_cases hname : f = .name ∧ t.isMark .parenOpen = false
    · obtain ⟨rfl, hparen⟩ := hname
      refine .body r.walk.enterBody r.walk.enterBody ?_ ?_ (fun _ => hparen) (.inl (.same _)) hwalk
      · rw [Reader.settle_of_name hr]
      · rw [Reader.settle_of_name hc, hwalk.agrees.enterBody]
    · have hparen : f = .name → t.isMark .parenOpen = true := fun hf => by
        simpa [hf] using hname
      obtain ⟨hhere, hread⟩ := Reader.read_front options hr hparen hline
      obtain ⟨hhere', hread'⟩ := Reader.read_front options hc hparen hline
      refine .unread hhere hhere' ?_ ?_ ?_ ?_
      · rw [hread]
        cases f.after t <;> rfl
      · rintro v hv
        rw [hread] at hv
        cases hafter : f.after t with
        | none =>
          rw [hafter] at hv
          obtain rfl := Mode.body.inj hv
          rfl
        | some f' => simp [hafter] at hv
      · rw [hread, hread', hwalk.agrees.enterBody]
      · rw [hread, hread']
        exact hwalk
  | body v v' hr hc hmode hbody hwalk =>
    refine .body v v' (Reader.settle_of_body hr) hc (fun hname => ?_) hbody hwalk
    rcases hname with hname | hname
    · rw [hr] at hname
      cases hname
    · by_cases hi : InLead options source i
      · exact hi.isMark_eq_false ht' (by decide)
      · rw [hmode hi] at hname
        cases hname

theorem Follows.of_inside (hr : r.isOutside = false) (hmode : c.mode = r.mode)
    (hwalk : Walk.Keeps (r.nextOutside options (tokensFrom source i)) r.walk c.walk) :
    Follows options source i r c := by
  cases hm : r.mode with
  | lineStart => simp [Reader.isOutside, hm] at hr
  | midLine => simp [Reader.isOutside, hm] at hr
  | front f => exact .front f hm (hmode.trans hm) hwalk
  | body v =>
    rw [hm] at hmode
    exact .body v v hm (Reader.settle_of_body hmode) (fun _ => hmode) (.inl (.same v)) hwalk

/-- A qualifier that goes is met in the source only. -/
theorem Follows.removed {r' : Reader} {gap : List Char}
    (h : Follows options source i (readerAt options source i) (r'.cross gap))
    (ht : (beforeEnd (tokens source))[i]? = some t)
    (hr : (planOf options source).removes i = true) :
    Follows options source (i + 1) (readerAt options source (i + 1))
      (r'.cross (gap ++ (planOf options source).piece t i)) := by
  obtain ⟨q, w, hq, hhere, hrole⟩ := here_of_removes hr ht
  have hpiece := endsLine_piece_of_removes (getElem?_beforeEnd.1 ht).1 hr
  have hi := (inLead_of_removes hr).2
  have hk := Token.kind_of_qualifier hq
  have hline := Token.endsLine_of_qualifier hq
  rw [readerAt_succ ht]
  generalize readerAt options source i = r at *
  cases h.meets ht hline with
  | outside hr' hc hhash _ hwalk =>
    obtain ⟨hhere', hread⟩ := Reader.read_outside options hr' (fun h => (hhash h).1) hline
    obtain rfl := Option.some.inj (hhere.symm.trans hhere')
    obtain ⟨hc', hwalk'⟩ := Reader.cross_append_outside hc ((planOf options source).piece t i)
    refine .outside ?_ hc' (fun h => absurd hi h) (.inr ?_)
    · simp [hread, Token.isTrivia, hk, Reader.isOutside]
    · rw [hread, hwalk']
      exact hwalk.removed hq hrole hr
  | body v v' hv hv' hparen hbody hwalk =>
    obtain ⟨hhere', hread⟩ := Reader.read_body options hv (fun h => hparen (.inl h)) hline
    obtain rfl := Option.some.inj (hhere.symm.trans hhere')
    obtain ⟨hsettle, hwalk'⟩ :=
      Reader.cross_append_inside (Reader.isOutside_of_settle hv') hpiece
    rw [tokensFrom_cons ht, Reader.nextOutside_of_inside (Reader.isOutside_of_settle hv), hread]
      at hwalk
    rw [hread]
    refine .body _ v' rfl (by rw [hsettle, hv']) (fun h => absurd hi h)
      (.inr (hbody.removed hq hrole hr)) ?_
    rwa [hwalk']
  | unread hnone =>
    rw [hhere] at hnone
    cases hnone

/-- A comment is met by no walk, but it separates the name of a macro from its body. -/
theorem Meets.trivia (h : Meets options source i t r c)
    (ht : (beforeEnd (tokens source))[i]? = some t) (hline : t.endsLine = false)
    (htrivia : t.isTrivia = true) :
    Follows options source (i + 1) (r.read options t) (c.read options t) := by
  have ht' := (getElem?_beforeEnd.1 ht).1
  have hsig : t.isSignificant = false := by simp [Token.isSignificant, htrivia]
  have hnext : r.nextOutside options (tokensFrom source i) =
      (r.read options t).nextOutside options (tokensFrom source (i + 1)) := by
    rw [tokensFrom_cons ht, Reader.nextOutside_of_insignificant hsig]
  cases h with
  | outside hr hc hhash hmode hwalk =>
    have hread := (Reader.read_outside options hr (fun h => (hhash h).1) hline).2
    have hread' := (Reader.read_outside options hc (fun h => (hhash h).2) hline).2
    rw [if_pos htrivia, Walk.step_insignificant hsig] at hread hread'
    rw [hnext] at hwalk
    rw [hread] at hwalk ⊢
    rw [hread']
    exact .outside hr hc (fun hi => hmode (mt (fun h => h.succ ht' hsig) hi))
      (hwalk.insignificant ht' hsig)
  | body v v' hv hv' hparen hbody hwalk =>
    have hread := (Reader.read_body options hv (fun h => hparen (.inl h)) hline).2
    have hread' := (Reader.read_body options hv' (fun h => hparen (.inr h)) hline).2
    rw [Walk.step_insignificant hsig] at hread hread'
    rw [tokensFrom_cons ht, Reader.nextOnLine_of_insignificant hsig hline] at hbody
    rw [hnext] at hwalk
    rw [hread] at hwalk ⊢
    rw [hread']
    exact .body v v' rfl rfl (fun _ => rfl) (hbody.insignificant ht' hsig) hwalk
  | unread _ _ hmode _ hread hwalk =>
    rw [hnext] at hwalk
    exact .of_inside hmode hread hwalk

/-- A qualifier that stays, and leads in the output and is to be moved, is met at the same place by
walks that are the same. -/
theorem Meets.qualifier (h : Meets options source i t (readerAt options source i) c)
    (ht : (beforeEnd (tokens source))[i]? = some t) (hq : Qualifier.ofToken? t = some q)
    (hr : (planOf options source).removes i = false) :
    (∀ w, options.relocates q = true → c.here t = some w → w.role = .leading →
        (readerAt options source i).here t = some w ∧
          (readerAt options source i).isOutside = c.isOutside) ∧
      Follows options source (i + 1) (readerAt options source (i + 1)) (c.read options t) := by
  have hk := Token.kind_of_qualifier hq
  have hline := Token.endsLine_of_qualifier hq
  have htrivia : t.isTrivia = false := by simp [Token.isTrivia, hk]
  rw [readerAt_succ ht]
  cases h with
  | outside hr' hc hhash hmode hwalk =>
    obtain ⟨hhere, hread⟩ := Reader.read_outside options hr' (fun h => (hhash h).1) hline
    obtain ⟨hhere', hread'⟩ := Reader.read_outside options hc (fun h => (hhash h).2) hline
    rw [if_neg (by simp [htrivia])] at hread hread'
    obtain ⟨hstays, htracks⟩ := hwalk.kept ht hq hhere hr
    refine ⟨fun w hrel hw hrole => ?_, ?_⟩
    · obtain rfl := Option.some.inj (hhere'.symm.trans hw)
      rw [hhere, hstays hrel hrole, hr', hc]
      exact ⟨rfl, rfl⟩
    · rw [hread, hread']
      exact .outside rfl rfl (fun _ => rfl) (htracks _)
  | body v v' hv hv' hparen hbody hwalk =>
    obtain ⟨hhere, hread⟩ := Reader.read_body options hv (fun h => hparen (.inl h)) hline
    obtain ⟨hhere', hread'⟩ := Reader.read_body options hv' (fun h => hparen (.inr h)) hline
    rw [tokensFrom_cons ht, Reader.nextOutside_of_inside (Reader.isOutside_of_settle hv), hread]
      at hwalk
    obtain ⟨hstays, htracks⟩ := hbody.kept ht hq hhere hr
    refine ⟨fun w hrel hw hrole => ?_, ?_⟩
    · obtain rfl := Option.some.inj (hhere'.symm.trans hw)
      rw [hhere, hstays hrel hrole, Reader.isOutside_of_settle hv,
        Reader.isOutside_of_settle hv']
      exact ⟨rfl, rfl⟩
    · rw [hread, hread']
      exact .body _ _ rfl rfl (fun _ => rfl) (htracks _) hwalk
  | unread hhere hhere' hmode _ hread hwalk =>
    rw [tokensFrom_cons ht, Reader.nextOutside_of_hash hhere] at hwalk
    refine ⟨fun w _ hw => ?_, .of_inside hmode hread hwalk⟩
    rw [hhere'] at hw
    cases hw

/-- Readers that are at the same place behind a token, the walks of which are the same where they
have met it. -/
structure Catches (t : Token) (next : Option Token) (r c : Reader) : Prop where
  mode : c.mode = r.mode
  walk : Walk.Keeps next r.walk c.walk
  outside : r.isOutside = true → r.mode = .midLine ∧ c.walk = r.walk ∧ r.walk.last = some t
  body : ∀ v, r.mode = .body v → v.last = none ∨ v.last = some t

/-- Readers that have caught up follow each other. -/
theorem Catches.follows
    (h : Catches t (r.nextOutside options (tokensFrom source i)) r c) :
    Follows options source i r c := by
  cases hout : r.isOutside with
  | true =>
    refine .outside hout ?_ (fun _ => h.mode) (.inl h.walk)
    rw [Reader.isOutside, h.mode, ← Reader.isOutside, hout]
  | false => exact .of_inside hout h.mode h.walk

/-- The readers come together at a token that is no qualifier. -/
theorem Meets.catches (h : Meets options source i t r c)
    (ht : (beforeEnd (tokens source))[i]? = some t) (hsig : t.isSignificant = true)
    (hq : Qualifier.ofToken? t = none) :
    Catches t ((r.read options t).nextOutside options (tokensFrom source (i + 1)))
      (r.read options t) (c.read options t) := by
  have ht' := (getElem?_beforeEnd.1 ht).1
  have htrivia : t.isTrivia = false := by
    rw [Token.isSignificant, Bool.and_eq_true, Bool.not_eq_true'] at hsig
    exact hsig.1
  have hline : t.endsLine = false := by
    rw [Token.isTrivia, Bool.or_eq_false_iff] at htrivia
    rw [Token.endsLine, htrivia.1, Bool.false_and]
  cases h with
  | outside hr hc hhash hmode hwalk =>
    obtain ⟨hhere, hread⟩ := Reader.read_outside options hr (fun h => (hhash h).1) hline
    have hread' := (Reader.read_outside options hc (fun h => (hhash h).2) hline).2
    rw [if_neg (by simp [htrivia])] at hread hread'
    rw [tokensFrom_cons ht, Reader.nextOutside_of_here hr hsig hhere] at hwalk
    rw [hread, hread', ← hwalk.step_eq ht' hsig hq]
    refine ⟨rfl, .same _, fun _ => ⟨rfl, rfl, ?_⟩, by simp⟩
    rw [Walk.step_of_not_qualifier hsig hq]
  | body v v' hv hv' hparen hbody hwalk =>
    have hread := (Reader.read_body options hv (fun h => hparen (.inl h)) hline).2
    have hread' := (Reader.read_body options hv' (fun h => hparen (.inr h)) hline).2
    rw [tokensFrom_cons ht, Reader.nextOutside_of_inside (Reader.isOutside_of_settle hv), hread]
      at hwalk
    rw [tokensFrom_cons ht, Reader.nextOnLine_of_significant hsig hline] at hbody
    rw [hread, hread', ← hbody.step_eq ht' hsig hq]
    refine ⟨rfl, hwalk, by simp [Reader.isOutside], fun x hx => .inr ?_⟩
    rw [← Mode.body.inj hx, Walk.step_of_not_qualifier hsig hq]
  | unread hhere _ hmode hfresh hread hwalk =>
    rw [tokensFrom_cons ht, Reader.nextOutside_of_hash hhere] at hwalk
    exact ⟨hread, hwalk, by simp [hmode], fun v hv => .inl (hfresh v hv)⟩

end

/-! ## Qualifiers that are put in -/

/-- Behind qualifiers that do not lead, a walk has the same brackets open, and the next qualifier
does not lead either. -/
theorem Walk.run_qualifiers (options : Options) {w : Walk} {qs : List Qualifier} (hqs : qs ≠ [])
    (hrole : w.role ≠ .leading) :
    Agrees w (w.run options (qs.map fun q => ⟨.keyword, q.text⟩)) ∧
      (∃ role, role ≠ .leading ∧
        (w.run options (qs.map fun q => ⟨.keyword, q.text⟩)).preceding = .qualifier role) ∧
      ∃ q : Qualifier,
        (w.run options (qs.map fun q => ⟨.keyword, q.text⟩)).last = some ⟨.keyword, q.text⟩ := by
  induction qs generalizing w with
  | nil => exact absurd rfl hqs
  | cons q qs ih =>
    have hq : Qualifier.ofToken? ⟨.keyword, q.text⟩ = some q := by cases q <;> rfl
    have hagrees : Agrees w (w.step options ⟨.keyword, q.text⟩) := agrees_step_qualifier hq
    by_cases hnil : qs = []
    · rw [hnil, List.map_singleton, run_cons]
      refine ⟨hagrees, ⟨w.role, hrole, ?_⟩, q, ?_⟩
      all_goals rw [step_qualifier hq]; rfl
    · obtain ⟨hagrees', hrest⟩ := ih hnil (w := w.step options ⟨.keyword, q.text⟩)
        (by rwa [role_step_qualifier hq])
      exact ⟨hagrees.trans hagrees', hrest⟩

namespace Reader

variable {options : Options} {r : Reader} {v : Walk} {f : Front} {ms : List Move}

/-- The reader behind qualifiers that are put in. -/
def place (options : Options) (r : Reader) (ms : List Move) : Reader :=
  ms.foldl (fun r m => (r.cross [' ']).read options ⟨.keyword, m.qualifier.text⟩) r

theorem place_midLine (h : r.mode = .midLine) :
    r.place options ms =
      ⟨.midLine, r.walk.run options ((ms.map Move.qualifier).map fun q => ⟨.keyword, q.text⟩)⟩ := by
  induction ms generalizing r with
  | nil =>
    obtain ⟨mode, walk⟩ := r
    obtain rfl : mode = .midLine := h
    rfl
  | cons m ms ih =>
    have hout : r.isOutside = true := isOutside_iff.2 (.inr h)
    have hcross : r.cross [' '] = r := cross_of_settled (settle_of_outside hout) rfl
    have hread := (read_outside options (t := ⟨.keyword, m.qualifier.text⟩) hout (fun _ => h) rfl).2
    rw [place, List.foldl_cons, hcross, hread, ← place, ih rfl]
    rfl

/-- In a macro's body, qualifiers that are put in are walked there. -/
theorem place_body (h : r.mode = .body v) :
    r.place options ms =
      ⟨.body (v.run options ((ms.map Move.qualifier).map fun q => ⟨.keyword, q.text⟩)),
       r.walk⟩ := by
  induction ms generalizing r v with
  | nil =>
    obtain ⟨mode, walk⟩ := r
    obtain rfl : mode = .body v := h
    rfl
  | cons m ms ih =>
    have hcross : r.cross [' '] = r := cross_of_settled (settle_of_ne (by simp [h])) rfl
    have hread := (read_body options (t := ⟨.keyword, m.qualifier.text⟩) (settle_of_body h)
      (fun _ => rfl) rfl).2
    rw [place, List.foldl_cons, hcross, hread, ← place, ih rfl]
    rfl

theorem unsettles_of_outside (h : r.isOutside = true) :
    r.unsettles = (r.walk.role == .leading) := by
  rcases isOutside_iff.1 h with hm | hm <;> rw [unsettles, hm]

/-- In the front of a directive, a qualifier is not counted. -/
theorem read_qualifier_of_front (options : Options) (h : r.mode = .front f)
    (hr : r.unsettles = false) {t : Token} {q : Qualifier} (hq : Qualifier.ofToken? t = some q) :
    (r.cross [' ']).here t = none ∧ (r.cross [' ']).read options t = r := by
  have hk := Token.kind_of_qualifier hq
  have hfront : f ≠ .name ∧ f.after t = some f := by
    cases f with
    | hash => simp [unsettles, h] at hr
    | define => simp [unsettles, h] at hr
    | name => simp [unsettles, h] at hr
    | parameters depth => exact ⟨by simp, by simp [Front.after, Token.mark?, hk]⟩
    | other => exact ⟨by simp, rfl⟩
  obtain ⟨hname, hafter⟩ := hfront
  obtain ⟨hhere, hread⟩ := read_front options h (by simp [hname]) (Token.endsLine_of_qualifier hq)
  rw [hafter, Option.map_some, Option.getD_some, ← h] at hread
  rw [cross_of_settled (settle_of_ne (by simp [h, hname])) rfl]
  exact ⟨hhere, hread⟩

theorem place_front (h : r.mode = .front f) (hr : r.unsettles = false) :
    r.place options ms = r := by
  induction ms with
  | nil => rfl
  | cons m ms ih =>
    have hq : Qualifier.ofToken? ⟨.keyword, m.qualifier.text⟩ = some m.qualifier := by
      cases m.qualifier <;> rfl
    rw [place, List.foldl_cons, (read_qualifier_of_front options h hr hq).2, ← place, ih]

/-- Where a qualifier that is put in does not lead, nor does the next one. -/
theorem read_of_settled (h : r.unsettles = false) {t : Token} {q : Qualifier}
    (hq : Qualifier.ofToken? t = some q) :
    (∀ w, (r.cross [' ']).here t = some w → w.role ≠ .leading) ∧
      ((r.cross [' ']).read options t).unsettles = false := by
  have hline := Token.endsLine_of_qualifier hq
  have hk := Token.kind_of_qualifier hq
  have hmark (m : Mark) : t.isMark m = false := by simp [Token.isMark, Token.mark?, hk]
  have hrole (w : Walk) : (w.step options t).role = w.role := Walk.role_step_qualifier hq
  cases hout : r.isOutside with
  | true =>
    rw [unsettles_of_outside hout, beq_eq_false_iff_ne] at h
    obtain ⟨hhere, hread⟩ := read_outside options hout (by simp [hmark]) hline
    rw [cross_of_settled (settle_of_outside hout) rfl, hhere, hread]
    refine ⟨fun w hw => Option.some.inj hw ▸ h, ?_⟩
    rw [if_neg (by simp [Token.isTrivia, hk]), unsettles_of_outside rfl, hrole, beq_eq_false_iff_ne]
    exact h
  | false =>
    cases hm : r.mode with
    | lineStart => simp [isOutside, hm] at hout
    | midLine => simp [isOutside, hm] at hout
    | front f =>
      obtain ⟨hhere, hread⟩ := read_qualifier_of_front options hm h hq
      rw [hhere, hread]
      exact ⟨by simp, h⟩
    | body v =>
      obtain ⟨hhere, hread⟩ := read_body options (settle_of_body hm) (fun _ => hmark _) hline
      have hv : v.role ≠ .leading := by simpa [unsettles, hm] using h
      rw [cross_of_settled (settle_of_ne (by simp [hm])) rfl, hhere, hread]
      refine ⟨fun w hw => Option.some.inj hw ▸ hv, ?_⟩
      simpa [unsettles, hrole] using hv

/-- Nothing is found at qualifiers that are put where none leads. -/
theorem Every.place {p : Reader → Token → List (List Char × Token) → Prop}
    {rest : List (List Char × Token)} (h : r.unsettles = false)
    (hp : ∀ r t post, (∀ w, r.here t = some w → w.role ≠ .leading) → p r t post)
    (hrest : Every options p (r.place options ms) rest) :
    Every options p r (ms.map (fun m => ([' '], ⟨.keyword, m.qualifier.text⟩)) ++ rest) := by
  induction ms generalizing r with
  | nil => exact hrest
  | cons m ms ih =>
    have hq : Qualifier.ofToken? ⟨.keyword, m.qualifier.text⟩ = some m.qualifier := by
      cases m.qualifier <;> rfl
    obtain ⟨hhere, hread⟩ := read_of_settled h hq
    exact ⟨hp _ _ _ hhere, ih hread hrest⟩

end Reader

section

variable {options : Options} {source : List Char} {i : Nat} {t : Token} {q : Qualifier}
  {r c : Reader} {next : Option Token}

/-- Qualifiers behind the end of a type that do not lead are not seen by what comes next. -/
theorem Walk.Keeps.of_qualifiers {w : Walk} {ms : List Move} (hms : ms ≠ [])
    (hrole : w.role ≠ .leading) (hends : t.endsType = true)
    (hlast : w.last = none ∨ w.last = some t) (hnext : ∀ u, next = some u → t.joins u = false) :
    Walk.Keeps next w
      (w.run options ((ms.map Move.qualifier).map fun q => ⟨.keyword, q.text⟩)) := by
  have hqs : ms.map Move.qualifier ≠ [] := by simpa using hms
  obtain ⟨hagrees, ⟨role, hne, hpreceding⟩, q, hq⟩ := Walk.run_qualifiers options hqs hrole
  refine .trailing hagrees hne hpreceding fun u hu => ?_
  rcases hlast with hlast | hlast
  · exact .of_none hlast hq
  · exact .of_endsType hlast hends hq (hnext u hu)

/-- Behind the qualifiers that are put after a token, the reader of the output follows as well. -/
theorem Catches.place {ms : List Move}
    (h : Catches t (r.nextOutside options (tokensFrom source i)) r c) (hms : ms ≠ [])
    (hends : t.endsType = true) (hr : r.unsettles = false)
    (hapart : ∀ u, r.next? options (tokensFrom source i) = some u → t.joins u = false) :
    c.unsettles = false ∧ (c.place options ms).settle = c.place options ms ∧
      Follows options source i r (c.place options ms) := by
  have hmode := h.mode
  cases hm : r.mode with
  | lineStart =>
    have := (h.outside (by simp [Reader.isOutside, hm])).1
    rw [hm] at this
    cases this
  | midLine =>
    have hout : r.isOutside = true := by simp [Reader.isOutside, hm]
    obtain ⟨-, hwalk, hlast⟩ := h.outside hout
    rw [hm] at hmode
    have hrole : r.walk.role ≠ .leading := by simpa [Reader.unsettles, hm] using hr
    rw [Reader.place_midLine hmode, hwalk]
    refine ⟨?_, Reader.settle_of_outside rfl, .outside hout rfl (fun _ => hm.symm) (.inl ?_)⟩
    · simpa [Reader.unsettles, hmode, hwalk] using hrole
    · refine .of_qualifiers hms hrole hends (.inr hlast) fun u hu => hapart u ?_
      rwa [Reader.next?, hm]
  | front f =>
    rw [hm] at hmode
    have hc : c.unsettles = false := by
      rw [Reader.unsettles, hm] at hr
      rw [Reader.unsettles, hmode]
      cases f <;> first | rfl | cases hr
    have hname : f ≠ .name := by
      rintro rfl
      simp [Reader.unsettles, hm] at hr
    rw [Reader.place_front hmode hc]
    exact ⟨hc, Reader.settle_of_ne (by simp [hmode, hname]), .front f hm hmode h.walk⟩
  | body v =>
    rw [hm] at hmode
    have hrole : v.role ≠ .leading := by simpa [Reader.unsettles, hm] using hr
    rw [Reader.place_body hmode]
    refine ⟨?_, Reader.settle_of_ne (by simp), .body v _ hm rfl (fun _ => rfl) (.inl ?_) h.walk⟩
    · simpa [Reader.unsettles, hmode] using hrole
    · refine .of_qualifiers hms hrole hends (h.body v hm) fun u hu => hapart u ?_
      rwa [Reader.next?, hm]

/-! ## The whole output -/

/-- A qualifier that leads in the output, and is to be moved, leads in the source as well and stays
there, and what follows in the output is written for what follows in the source. -/
def Reappears (options : Options) (source : List Char) (r : Reader) (t : Token)
    (rest : List (List Char × Token)) : Prop :=
  ∀ q w, Qualifier.ofToken? t = some q → options.relocates q = true → r.here t = some w →
    w.role = .leading → ∃ k, (beforeEnd (tokens source))[k]? = some t ∧
      (planOf options source).removes k = false ∧ (readerAt options source k).here t = some w ∧
      (readerAt options source k).isOutside = r.isOutside ∧
      rest = (planOf options source).weave [] (k + 1) (tokensFrom source (k + 1))

/-- Where the moves settle, qualifiers may be put after an anchor: a type ends there, no qualifier
leads there, and what comes next is not joined to the anchor. -/
theorem Settles.at_anchor (hs : Settles options source) {m : Move}
    (hm : m ∈ (planOf options source).moves) (ht : (tokens source)[m.anchor]? = some t) :
    t.endsType = true ∧ (readerAt options source (m.anchor + 1)).unsettles = false ∧
      ∀ u, (readerAt options source (m.anchor + 1)).next? options
        (tokensFrom source (m.anchor + 1)) = some u → t.joins u = false := by
  obtain ⟨e, -, hmoves, -, hanchor, -⟩ := exists_group_of_move hm
  obtain ⟨-, -, u, hu, hends⟩ := hmoves.anchored
  rw [← hanchor, ht] at hu
  obtain rfl := Option.some.inj hu
  have hapart := hs.apart m hm
  rw [joinsNext, ht, Option.any_some] at hapart
  exact ⟨hends, hs.role m hm, fun u hu => by rwa [hu, Option.any_some] at hapart⟩

/-- The run lemma: a reader that follows finds only what is found in the source. -/
theorem Follows.every (hs : Settles options source) {r' : Reader} {gap : List Char}
    (h : Follows options source i (readerAt options source i) (r'.cross gap))
    (hjoins : ¬ InLead options source i → Joins gap (textFrom (tokens source) i)) :
    Reader.Every options (Reappears options source) r'
      ((planOf options source).weave gap i (tokensFrom source i)) := by
  induction hrest : tokensFrom source i generalizing i r' gap with
  | nil => trivial
  | cons t rest ih =>
    obtain ⟨ht, hdrop⟩ := getElem?_of_drop hrest
    obtain ⟨ht', hend⟩ := getElem?_beforeEnd.1 ht
    rw [Plan.weave]
    split
    · rename_i hgone
      rcases hgone with hr | hk
      · exact ih (h.removed ht hr) (fun hi => absurd (inLead_of_removes hr).2 hi) hdrop
      · exact ih (h.whitespace hjoins ht hk) (joins_append_piece hjoins ht' hk) hdrop
    · rename_i hkept
      obtain ⟨hr, hk⟩ := not_or.1 hkept
      rw [Bool.not_eq_true] at hr
      have hline : t.endsLine = false := by simp [Token.endsLine, hk]
      have hmeets := h.meets ht hline
      cases hq : Qualifier.ofToken? t with
      | some q =>
        have hnone : (planOf options source).moves.filter (·.anchor == i) = [] :=
          filter_anchor_eq_nil ht' (Token.endsType_of_qualifier hq)
        obtain ⟨hstays, hfollows⟩ := hmeets.qualifier ht hq hr
        rw [hnone, padding_eq_nil hnone]
        refine ⟨fun q' w hq' hrel hw hrole => ?_, ih hfollows (fun _ => joins_nil _) hdrop⟩
        obtain rfl := Option.some.inj (hq.symm.trans hq')
        obtain ⟨hhere, hout⟩ := hstays w hrel hw hrole
        exact ⟨i, ht, hr, hhere, hout, by rw [tokensFrom, hdrop]; rfl⟩
      | none =>
        have hfound (c : Reader) (rest : List (List Char × Token)) :
            Reappears options source c t rest := fun q' _ hq' => by
          rw [hq] at hq'
          cases hq'
        cases hsig : t.isSignificant with
        | false =>
          have htrivia : t.isTrivia = true := by
            simpa [Token.isSignificant, hend] using hsig
          have hnone : (planOf options source).moves.filter (·.anchor == i) = [] :=
            filter_anchor_eq_nil ht' (endsType_of_isSignificant hsig)
          have hfollows := hmeets.trivia ht hline htrivia
          rw [← readerAt_succ ht] at hfollows
          rw [hnone, padding_eq_nil hnone]
          exact ⟨hfound _ _, ih hfollows (fun _ => joins_nil _) hdrop⟩
        | true =>
          have hcatches := hmeets.catches ht hsig hq
          rw [← readerAt_succ ht] at hcatches
          cases hms : (planOf options source).moves.filter (·.anchor == i) with
          | nil =>
            rw [padding_eq_nil hms]
            exact ⟨hfound _ _, ih hcatches.follows (fun _ => joins_nil _) hdrop⟩
          | cons m ms =>
            obtain ⟨hm, ha⟩ : m ∈ (planOf options source).moves ∧ (m.anchor == i) = true :=
              List.mem_filter.1 (by rw [hms]; exact List.mem_cons_self)
            obtain rfl := beq_iff_eq.1 ha
            obtain ⟨hends, hrole, hapart⟩ := hs.at_anchor hm ht'
            obtain ⟨hc, hsettle, hfollows⟩ :=
              hcatches.place (List.cons_ne_nil m ms) hends hrole hapart
            refine ⟨hfound _ _, Reader.Every.place hc (fun r u post hne q w _ _ hw hrole =>
              absurd hrole (hne w hw)) (ih ?_ (fun _ => joins_padding _ _ _) hdrop)⟩
            rwa [Reader.cross_of_settled hsettle (endsLine_padding _ _)]

/-! ## Lines -/

/-- In a directive, what is written for the tokens on a line is what is written on the line. -/
theorem takeWhile_weave {gap : List Char} (hin : (readerAt options source i).isOutside = false)
    (hgap : endsLine gap = false)
    (hjoins : ¬ InLead options source i → Joins gap (textFrom (tokens source) i)) :
    ((planOf options source).weave gap i (tokensFrom source i)).takeWhile (!endsLine ·.1) =
      (planOf options source).weave gap i ((tokensFrom source i).takeWhile (!·.endsLine)) := by
  induction hrest : tokensFrom source i generalizing i gap with
  | nil => rfl
  | cons t rest ih =>
    obtain ⟨ht, hdrop⟩ := getElem?_of_drop hrest
    have ht' := (getElem?_beforeEnd.1 ht).1
    cases hline : t.endsLine with
    | true =>
      have hk : t.kind = .whitespace ∧ endsLine t.text = true := by
        simpa [Token.endsLine] using hline
      have hi : ¬ InLead options source i := fun hi => by
        rcases hi.reader ht hk.1 with hout | ⟨hnot, -⟩
        · rw [hin] at hout
          cases hout
        · rw [hline] at hnot
          cases hnot
      have hends : endsLine (gap ++ (planOf options source).piece t i) = true := by
        rw [endsLine_append_piece (hjoins hi) ht' hk.1,
          (endsLine_piece_of_whitespace options ht' hk.1).1, hk.2, Bool.or_true]
      rw [List.takeWhile_cons_of_neg (by simp [hline]), Plan.weave, Plan.weave, if_pos (.inr hk.1),
        takeWhile_weave_of_endsLine hends]
    | false =>
      have hin' := Reader.isOutside_read options hin hline
      rw [← readerAt_succ ht] at hin'
      rw [List.takeWhile_cons_of_pos (by simp [hline]), Plan.weave, Plan.weave]
      split
      · rename_i hgone
        have hpiece : endsLine ((planOf options source).piece t i) = false := by
          rcases hgone with hr | hk
          · exact endsLine_piece_of_removes ht' hr
          · rw [(endsLine_piece_of_whitespace options ht' hk).1]
            simpa [Token.endsLine, hk] using hline
        refine ih hin' (endsLine_append_of_false hgap hpiece) (fun hi => ?_) hdrop
        rcases hgone with hr | hk
        · exact absurd (inLead_of_removes hr).2 hi
        · exact joins_append_piece hjoins ht' hk hi
      · have hplaced : ∀ p ∈ ((planOf options source).moves.filter (·.anchor == i)).map
            (fun m => ([' '], (⟨.keyword, m.qualifier.text⟩ : Token))), (!endsLine p.1) = true := by
          intro p hp
          obtain ⟨m, -, rfl⟩ := List.mem_map.1 hp
          rfl
        rw [List.cons_append, List.takeWhile_cons_of_pos (by simp [hgap]),
          List.takeWhile_append_of_pos hplaced,
          ih hin' (endsLine_padding _ _) (fun _ => joins_padding _ _ _) hdrop, List.cons_append]

end

end EastConst
