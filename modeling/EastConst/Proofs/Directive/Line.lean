import EastConst.Proofs.Layout.Spaced
import EastConst.Proofs.Occurrence.Around
import EastConst.Proofs.Token.Parens

/-!
# What a directive is

A directive is told by the indices of its tokens: a `#` with which a line starts, and what follows
it to where the line or the input ends (`IsDirective`). These are the directives that the walk meets
(`isDirective_iff_segments`). The macro that a directive defines has a name and perhaps parameters,
and a body behind them (`DefinesMacro`, `InBody`), which is the body that the walk goes through
(`macroBody?_iff`, `inBody_iff`).
-/

namespace EastConst

/-! ## Lines -/

/-- Whether a line ends between each significant token before an index and the index. -/
def StartsLine (ts : List Token) (index : Nat) : Prop :=
  ∀ k t, k < index → ts[k]? = some t → t.isSignificant = true →
    ∃ j u, k < j ∧ j < index ∧ ts[j]? = some u ∧ u.endsLine = true

/-- Whether the tokens from `start` to before `stop` are a directive. -/
structure IsDirective (ts : List Token) (start stop : Nat) : Prop where
  hash : ∃ t, ts[start]? = some t ∧ t.isMark .hash = true
  first : StartsLine ts start
  lt : start < stop
  line : ∀ k t, start ≤ k → k < stop → ts[k]? = some t → t.endsLine = false ∧ t.kind ≠ .endOfInput
  stop : ∃ t, ts[stop]? = some t ∧ (t.endsLine = true ∨ t.kind = .endOfInput)

/-- A text that ends a line does so whatever follows. -/
theorem endsLine_append_left {a : List Char} (h : endsLine a = true) (b : List Char) :
    endsLine (a ++ b) = true := by
  fun_induction endsLine a with
  | case1 => cases h
  | case2 text ih => exact ih h
  | case3 text ih => exact ih h
  | case4 text => rfl
  | case5 c text hlf hcrlf hnl ih =>
    have hnext : endsLine (c :: (text ++ b)) = endsLine (text ++ b) := by
      rw [endsLine]
      · rintro rest rfl htext
        cases text with
        | nil => cases h
        | cons d text =>
          obtain ⟨rfl, rfl⟩ := List.cons.inj htext
          exact hlf text rfl rfl
      · rintro rest rfl htext
        cases text with
        | nil => cases h
        | cons d text =>
          cases text with
          | nil =>
            obtain ⟨rfl, -⟩ := List.cons.inj htext
            exact absurd h (by decide)
          | cons e text =>
            rw [List.cons_append, List.cons_append, List.cons.injEq, List.cons.injEq] at htext
            obtain ⟨rfl, rfl, -⟩ := htext
            exact hcrlf text rfl rfl
      · exact hnl
    rw [List.cons_append, hnext, ih h]

/-- If neither of two texts ends a line, nor do they together. -/
theorem endsLine_append_of_false {a b : List Char} (ha : endsLine a = false)
    (hb : endsLine b = false) :
    endsLine (a ++ b) = false := by
  have hlf (text : List Char) (h : b = '\n' :: text) : False := by
    rw [h] at hb
    exact absurd hb (by simp [endsLine])
  fun_induction endsLine a with
  | case1 => exact hb
  | case2 text ih => exact ih ha
  | case3 text ih => exact ih ha
  | case4 text => cases ha
  | case5 c text hc hcr hnl ih =>
    have hnext : endsLine (c :: (text ++ b)) = endsLine (text ++ b) := by
      rw [endsLine]
      · rintro rest rfl htext
        cases text with
        | nil => exact hlf _ htext
        | cons d text =>
          obtain ⟨rfl, rfl⟩ := List.cons.inj htext
          exact hc text rfl rfl
      · rintro rest rfl htext
        cases text with
        | nil =>
          rw [List.nil_append] at htext
          rw [htext] at hb
          exact absurd hb (by simp [endsLine])
        | cons d text =>
          cases text with
          | nil => exact hlf _ (List.cons.inj htext).2
          | cons e text =>
            rw [List.cons_append, List.cons_append, List.cons.injEq, List.cons.injEq] at htext
            obtain ⟨rfl, rfl, -⟩ := htext
            exact hcr text rfl rfl
      · exact hnl
    rw [List.cons_append, hnext, ih ha]

theorem Token.isTrivia_of_endsLine {t : Token} (h : t.endsLine = true) : t.isTrivia = true := by
  rw [Token.endsLine, Bool.and_eq_true, beq_iff_eq] at h
  simp [Token.isTrivia, h.1]

theorem Token.isSignificant_of_not_trivia {t : Token} (h : t.isTrivia = false)
    (hk : t.kind ≠ .endOfInput) :
    t.isSignificant = true := by
  simp [Token.isSignificant, h, hk]

theorem Token.isMark_of_isTrivia {t : Token} (h : t.isTrivia = true) (m : Mark) :
    t.isMark m = false := by
  have hk : t.kind ≠ .punctuation := by
    intro hk
    simp [Token.isTrivia, hk] at h
  simp [Token.isMark, Token.mark?, hk]

namespace Place

variable {t : Token}

theorem after_of_endsLine (place : Place) (h : t.endsLine = true) : place.after t = .lineStart := by
  have htrivia := Token.isTrivia_of_endsLine h
  cases place with
  | lineStart => simp [after, Token.isMark_of_isTrivia htrivia, htrivia]
  | midLine => simp [after, h]
  | directive held => simp [after, h]

/-- After a significant token the line is no longer at its start. -/
theorem after_of_significant (place : Place) (h : t.isSignificant = true) :
    place.after t ≠ .lineStart := by
  have htrivia : t.isTrivia = false := by
    rw [Token.isSignificant, Bool.and_eq_true] at h
    simpa using h.1
  have hline : t.endsLine = false := by
    refine Bool.eq_false_iff.2 fun hl => ?_
    simp [Token.isTrivia_of_endsLine hl] at htrivia
  cases place with
  | lineStart =>
    rw [after]
    split
    · simp
    · simp [htrivia]
  | midLine => simp [after, hline]
  | directive held => simp [after, hline]

/-- Whitespace and comments within a line leave it where it is. -/
theorem after_of_trivia (place : Place) (h : t.isTrivia = true) (hl : t.endsLine = false) :
    place.after t = .lineStart ↔ place = .lineStart := by
  cases place with
  | lineStart => simp [after, Token.isMark_of_isTrivia h, h]
  | midLine => simp [after, hl]
  | directive held => simp [after, hl]

end Place

/-- The walk is at the start of a line where no significant token has come since a line ended. -/
theorem foldl_after_eq_lineStart_iff {ts : List Token} {n : Nat} (hn : n ≤ ts.length)
    (hinput : ∀ k t, k < n → ts[k]? = some t → t.kind ≠ .endOfInput) :
    (ts.take n).foldl Place.after .lineStart = .lineStart ↔ StartsLine ts n := by
  induction n with
  | zero => exact iff_of_true rfl fun k t hk => absurd hk (Nat.not_lt_zero k)
  | succ n ih =>
    have ih := ih (by omega) fun k t hk => hinput k t (by omega)
    have ht : ts[n]? = some ts[n] := List.getElem?_eq_getElem hn
    rw [List.take_add_one, ht, Option.toList_some, List.foldl_append, List.foldl_cons,
      List.foldl_nil]
    cases hl : ts[n].endsLine with
    | true =>
      -- every significant token is before the one that ends the line
      refine iff_of_true (Place.after_of_endsLine _ hl) ?_
      intro k t hk hkt hs
      refine ⟨n, ts[n], ?_, Nat.lt_succ_self n, ht, hl⟩
      refine Nat.lt_of_le_of_ne (Nat.le_of_lt_succ hk) ?_
      rintro rfl
      obtain rfl := Option.some.inj (ht.symm.trans hkt)
      simp [Token.isSignificant, Token.isTrivia_of_endsLine hl] at hs
    | false =>
      cases htrivia : ts[n].isTrivia with
      | true =>
        rw [Place.after_of_trivia _ htrivia hl, ih]
        constructor
        · intro h k t hk hkt hs
          have hne : k ≠ n := by
            rintro rfl
            obtain rfl := Option.some.inj (ht.symm.trans hkt)
            simp [Token.isSignificant, htrivia] at hs
          obtain ⟨j, u, hkj, hjn, hu, hul⟩ := h k t (by omega) hkt hs
          exact ⟨j, u, hkj, Nat.lt_succ_of_lt hjn, hu, hul⟩
        · intro h k t hk hkt hs
          obtain ⟨j, u, hkj, hjn, hu, hul⟩ := h k t (Nat.lt_succ_of_lt hk) hkt hs
          refine ⟨j, u, hkj, ?_, hu, hul⟩
          refine Nat.lt_of_le_of_ne (Nat.le_of_lt_succ hjn) ?_
          rintro rfl
          obtain rfl := Option.some.inj (ht.symm.trans hu)
          simp [hl] at hul
      | false =>
        have hs := Token.isSignificant_of_not_trivia htrivia (hinput n _ (Nat.lt_succ_self n) ht)
        refine iff_of_false (Place.after_of_significant _ hs) ?_
        intro h
        obtain ⟨j, u, hnj, hjn, -, -⟩ := h n ts[n] (Nat.lt_succ_self n) ht hs
        omega

section

variable {ts : List Token} {start stop : Nat}

/-- The tokens of a range are those at its indices. -/
theorem mem_extract {t : Token} (h : t ∈ ts.extract start stop) :
    ∃ k, start ≤ k ∧ k < stop ∧ ts[k]? = some t := by
  obtain ⟨j, hj⟩ := List.mem_iff_getElem?.1 h
  rw [List.getElem?_take] at hj
  split at hj
  · rename_i hlt
    rw [List.getElem?_drop] at hj
    exact ⟨start + j, by omega, by omega, hj⟩
  · cases hj

theorem extract_cons {t : Token} (ht : ts[start]? = some t) (h : start < stop) :
    ts.extract start stop = t :: ts.extract (start + 1) stop := by
  obtain ⟨hlt, rfl⟩ := List.getElem?_eq_some_iff.1 ht
  rw [List.extract_eq_take_drop, List.drop_eq_getElem_cons hlt,
    show stop - start = stop - (start + 1) + 1 by omega, List.take_succ_cons]

theorem extract_of_le (h : stop ≤ start) : ts.extract start stop = [] := by
  rw [List.extract_eq_take_drop, Nat.sub_eq_zero_of_le h, List.take_zero]

theorem length_extract (h : stop ≤ ts.length) : (ts.extract start stop).length = stop - start := by
  rw [List.extract_eq_take_drop, List.length_take, List.length_drop]
  omega

theorem extract_append {mid : Nat} (h : start ≤ mid) (h' : mid ≤ stop) :
    ts.extract start mid ++ ts.extract mid stop = ts.extract start stop := by
  rw [List.extract_eq_take_drop, List.extract_eq_take_drop, List.extract_eq_take_drop,
    show stop - start = (mid - start) + (stop - mid) by omega, List.take_add, List.drop_drop,
    show start + (mid - start) = mid by omega]

/-- A directive never runs to the end of the tokens: the end of the input is outside. -/
theorem IsDirective.stop_lt (h : IsDirective ts start stop) : stop < ts.length := by
  obtain ⟨t, ht, -⟩ := h.stop
  exact (List.getElem?_eq_some_iff.1 ht).1

theorem take_append_extract (h : start ≤ stop) :
    ts.take start ++ ts.extract start stop ++ ts.drop stop = ts := by
  rw [List.extract_eq_take_drop, ← List.take_add, Nat.add_sub_cancel' h, List.take_append_drop]

/-- The tokens of a directive are one for the walk. -/
theorem IsDirective.directs (hts : Terminated ts) (h : IsDirective ts start stop) :
    Directs (ts.take start) (ts.extract start stop) (ts.drop stop) := by
  have hlt := h.stop_lt
  have hstart := h.lt
  have hinput : ∀ k t, k < start → ts[k]? = some t → t.kind ≠ .endOfInput := by
    intro k t hk ht
    exact hts.kind_ne (by omega) ht
  obtain ⟨hash, hget, hhash⟩ := h.hash
  obtain ⟨u, hu, hstop⟩ := h.stop
  exact
    { start := (foldl_after_eq_lineStart_iff (by omega) hinput).2 h.first
      inInput := by
        intro t ht
        rcases List.mem_append.1 ht with ht | ht
        · obtain ⟨k, hk⟩ := List.mem_iff_getElem?.1 ht
          rw [List.getElem?_take] at hk
          split at hk
          · rename_i hks
            exact hinput k t hks hk
          · cases hk
        · obtain ⟨k, hk, hks, hkt⟩ := mem_extract ht
          exact (h.line k t hk hks hkt).2
      hash := ⟨hash, _, extract_cons hget hstart, hhash⟩
      onLine := by
        intro t ht
        obtain ⟨k, hk, hks, hkt⟩ := mem_extract ht
        exact (h.line k t hk hks hkt).1
      stop := by
        intro t ht
        rw [List.head?_drop, hu] at ht
        obtain rfl := Option.some.inj ht
        exact hstop }

/-- What the walk takes for a directive is one. -/
theorem Directs.isDirective {before d after : List Token} (h : Directs before d after)
    (hne : after ≠ []) :
    IsDirective (before ++ d ++ after) before.length (before.length + d.length) := by
  obtain ⟨hash, rest, hd, hhash⟩ := h.hash
  have hget (k : Nat) : (before ++ d ++ after)[before.length + k]? = (d ++ after)[k]? := by
    rw [List.append_assoc, List.getElem?_append_right (Nat.le_add_right _ _),
      Nat.add_sub_cancel_left]
  have hbefore : (before ++ d ++ after).take before.length = before := by
    rw [List.append_assoc, List.take_left]
  obtain ⟨t, after, rfl⟩ := List.exists_cons_of_ne_nil hne
  exact
    { hash := ⟨hash, by rw [show before.length = before.length + 0 from rfl, hget, hd]; rfl, hhash⟩
      first := by
        refine (foldl_after_eq_lineStart_iff (by simp) ?_).1 (hbefore.symm ▸ h.start)
        intro k u hk hu
        rw [List.append_assoc, List.getElem?_append_left hk] at hu
        exact h.inInput u (List.mem_append_left _ (List.mem_of_getElem? hu))
      lt := by
        rw [hd, List.length_cons]
        omega
      line := by
        intro k u hk hks hu
        obtain ⟨j, rfl⟩ := Nat.exists_eq_add_of_le hk
        rw [hget, List.getElem?_append_left (by omega)] at hu
        have hmem := List.mem_of_getElem? hu
        exact ⟨h.onLine u hmem, h.inInput u (List.mem_append_right _ hmem)⟩
      stop := ⟨t, by rw [hget, List.getElem?_append_right (Nat.le_refl _), Nat.sub_self]; rfl,
        h.stop t rfl⟩ }

/-- The directives are those that the walk meets. -/
theorem isDirective_iff_segments (hts : Terminated ts) :
    IsDirective ts start stop ↔
      ∃ pre post, segments ts = pre ++ .directive (ts.extract start stop) :: post ∧
        (Segment.flatten pre).length = start ∧ start + (ts.extract start stop).length = stop := by
  constructor
  · intro h
    have hdirects := h.directs hts
    have hlt := h.stop_lt
    have hstart := h.lt
    refine ⟨segments (ts.take start), segments (ts.drop stop), ?_, ?_, ?_⟩
    · rw [← hdirects.segments_eq, take_append_extract (Nat.le_of_lt hstart)]
    · rw [hdirects.flatten_segments_before, List.length_take]
      omega
    · rw [length_extract (Nat.le_of_lt hlt)]
      omega
  · rintro ⟨pre, post, hsegs, rfl, hstop⟩
    obtain ⟨after, hts', hdirects, -⟩ := directs_of_segments hsegs
    have hne : after ≠ [] := by
      rintro rfl
      -- the end of the input would be before the end of the directive
      have hend : Token.endOfInput ∈ ts := by
        rw [hts]
        simp
      rw [hts', List.append_nil] at hend
      exact hdirects.inInput _ hend rfl
    have h := hdirects.isDirective hne
    rwa [← hts', hstop] at h

end

/-! ## Macros -/

/-- Whether the token at an index is the first significant one from another index on. -/
structure IsNext (ts : List Token) (start index : Nat) (t : Token) : Prop where
  le : start ≤ index
  token : ts[index]? = some t
  significant : t.isSignificant = true
  trivia : ∀ k u, start ≤ k → k < index → ts[k]? = some u → u.isTrivia = true

/-- Whether the tokens from `start` to before `stop` are a directive that defines a macro, whose
name is at the index `name`. -/
structure DefinesMacro (ts : List Token) (start stop name : Nat) : Prop where
  directive : IsDirective ts start stop
  define : ∃ index word t, IsNext ts (start + 1) index word ∧ word.text = "define".toList ∧
    IsNext ts (index + 1) name t
  inside : name < stop

/-- Whether an index lies behind the name of a macro and its parameters. There are parameters if a
parenthesis touches the name. -/
structure InBody (ts : List Token) (stop name index : Nat) : Prop where
  afterName : name < index
  beforeStop : index < stop
  afterParameters : ∀ t, ts[name + 1]? = some t → t.isMark .parenOpen = true →
    ∃ close, Matches ts (name + 1) close ∧ close < index

section

variable {ts : List Token} {start stop : Nat}

/-- The next token of a range that does not reach the end of the input, by its index. -/
theorem nextToken?_extract_iff (hstop : stop ≤ ts.length)
    (hinput : ∀ k t, start ≤ k → k < stop → ts[k]? = some t → t.kind ≠ .endOfInput) {t : Token}
    {rest : List Token} :
    nextToken? (ts.extract start stop) = some (t, rest) ↔
      ∃ index, index < stop ∧ IsNext ts start index t ∧ rest = ts.extract (index + 1) stop := by
  induction hn : stop - start generalizing start with
  | zero =>
    rw [extract_of_le (by omega)]
    refine iff_of_false (by simp [nextToken?]) ?_
    rintro ⟨index, hlt, hnext, -⟩
    have := hnext.le
    omega
  | succ n ih =>
    have hlt : start < ts.length := by omega
    have hget : ts[start]? = some ts[start] := List.getElem?_eq_getElem hlt
    rw [extract_cons hget (by omega)]
    cases htrivia : ts[start].isTrivia with
    | true =>
      rw [nextToken?_trivia htrivia, ih (fun k t hk => hinput k t (by omega)) (by omega)]
      refine exists_congr fun index => and_congr_right fun _ => and_congr_left fun _ => ?_
      constructor
      · intro h
        refine ⟨by have := h.le; omega, h.token, h.significant, fun k u hk hki hu => ?_⟩
        rcases Nat.eq_or_lt_of_le hk with rfl | hk
        · obtain rfl := Option.some.inj (hget.symm.trans hu)
          exact htrivia
        · exact h.trivia k u hk hki hu
      · intro h
        refine ⟨?_, h.token, h.significant, fun k u hk => h.trivia k u (by omega)⟩
        refine Nat.lt_of_le_of_ne h.le ?_
        rintro rfl
        obtain rfl := Option.some.inj (hget.symm.trans h.token)
        have hs := h.significant
        simp [Token.isSignificant, htrivia] at hs
    | false =>
      have hs := Token.isSignificant_of_not_trivia htrivia
        (hinput start _ (Nat.le_refl _) (by omega) hget)
      rw [nextToken?_of_not_trivia htrivia, Option.some.injEq, Prod.mk.injEq]
      constructor
      · rintro ⟨rfl, rfl⟩
        exact ⟨start, by omega, ⟨Nat.le_refl _, hget, hs, fun k u hk hks => by omega⟩, rfl⟩
      · rintro ⟨index, -, h, rfl⟩
        -- no trivia come before the first token that is none
        have heq : index = start := by
          refine Nat.le_antisymm (Nat.le_of_not_lt fun hlt => ?_) h.le
          simp [h.trivia start _ (Nat.le_refl _) hlt hget] at htrivia
        subst heq
        exact ⟨Option.some.inj (hget.symm.trans h.token), rfl⟩

/-- The walk finds the body of a macro behind its name. -/
theorem IsDirective.macroBody?_iff (h : IsDirective ts start stop) {body : List Token} :
    macroBody? (ts.extract start stop) = some body ↔
      ∃ name, DefinesMacro ts start stop name ∧
        body = afterParameters (ts.extract (name + 1) stop) := by
  have hstop := Nat.le_of_lt h.stop_lt
  have hinput {first : Nat} (hfirst : start ≤ first) :
      ∀ k t, first ≤ k → k < stop → ts[k]? = some t → t.kind ≠ .endOfInput := by
    intro k t hk hks ht
    exact (h.line k t (by omega) hks ht).2
  obtain ⟨hash, hget, -⟩ := h.hash
  rw [macroBody?_eq, afterName?, extract_cons hget h.lt, List.drop_one, List.tail_cons]
  constructor
  · intro hbody
    obtain ⟨rest, hrest, rfl⟩ := Option.map_eq_some_iff.1 hbody
    obtain ⟨⟨word, rest'⟩, hword, hif⟩ := Option.bind_eq_some_iff.1 hrest
    obtain ⟨index, -, hnext, rfl⟩ := (nextToken?_extract_iff hstop (hinput (Nat.le_succ _))).1 hword
    split at hif
    · rename_i hdefine
      obtain ⟨⟨t, rest⟩, hname, rfl⟩ := Option.map_eq_some_iff.1 hif
      have hle := hnext.le
      obtain ⟨name, hlt, hnext', rfl⟩ := (nextToken?_extract_iff hstop (hinput (by omega))).1 hname
      exact ⟨name, ⟨h, ⟨index, word, t, hnext, hdefine, hnext'⟩, hlt⟩, rfl⟩
    · cases hif
  · rintro ⟨name, ⟨-, ⟨index, word, t, hnext, hdefine, hnext'⟩, hlt⟩, rfl⟩
    have hle := hnext.le
    have hle' := hnext'.le
    have hword := (nextToken?_extract_iff hstop (hinput (Nat.le_succ _))).2
      ⟨index, by omega, hnext, rfl⟩
    have hname := (nextToken?_extract_iff hstop (hinput (by omega))).2 ⟨name, hlt, hnext', rfl⟩
    rw [hword, Option.bind_some]
    dsimp only
    rw [if_pos hdefine, hname]
    rfl

/-- What follows the parenthesis that closes another one is what is passed over to. -/
theorem exists_matches_iff {first index : Nat} {t : Token} (hfirst : ts[first]? = some t)
    (hopen : t.isMark .parenOpen = true) (hlt : first < stop) (hstop : stop ≤ ts.length)
    (hindex : index < stop) :
    stop - (afterParens 1 (ts.extract (first + 1) stop)).length ≤ index ↔
      ∃ close, Matches ts first close ∧ close < index := by
  have hlen : (ts.extract (first + 1) stop).length = stop - (first + 1) := length_extract hstop
  constructor
  · intro hle
    have hne : afterParens (0 + 1) (ts.extract (first + 1) stop) ≠ [] := by
      intro hnil
      rw [hnil, List.length_nil] at hle
      omega
    obtain ⟨us, c, hsplit, hc, hus⟩ := exists_balances_of_afterParens hne
    rw [Nat.zero_add] at hsplit
    have hlen' := congrArg List.length hsplit
    rw [hlen, List.length_append, List.length_cons] at hlen'
    have hclose : ts[first + 1 + us.length]? = some c := by
      have hc' : (ts.extract (first + 1) stop)[us.length]? = some c := by
        rw [hsplit, List.getElem?_append_right (Nat.le_refl _), Nat.sub_self]
        rfl
      rwa [List.getElem?_take_of_lt (by omega), List.getElem?_drop] at hc'
    have hbetween : ts.extract (first + 1) (first + 1 + us.length) = us := by
      have htake := congrArg (List.take us.length) hsplit
      rw [List.take_left, List.take_take, Nat.min_eq_left (by omega)] at htake
      rw [List.extract_eq_take_drop, Nat.add_sub_cancel_left]
      exact htake
    refine ⟨first + 1 + us.length, ?_, by omega⟩
    exact ⟨by omega, ⟨t, hfirst, hopen⟩, ⟨c, hclose, hc⟩, hbetween.symm ▸ hus⟩
  · rintro ⟨close, hmatches, hclose⟩
    obtain ⟨c, hget, hc⟩ := hmatches.closes
    have hbefore := hmatches.lt
    have hsplit : ts.extract (first + 1) stop =
        ts.extract (first + 1) close ++ c :: ts.extract (close + 1) stop := by
      rw [← extract_cons hget (by omega), extract_append (by omega) (by omega)]
    rw [hsplit, afterParens_of_balances hmatches.between hc, length_extract hstop]
    omega

/-- The body of a macro starts behind its name, or where the parenthesis that touches the name is
closed. -/
theorem DefinesMacro.inBody_iff {name index : Nat} (h : DefinesMacro ts start stop name)
    (hindex : index < stop) :
    stop - (afterParameters (ts.extract (name + 1) stop)).length ≤ index ↔
      InBody ts stop name index := by
  have hlt := h.directive.stop_lt
  have hinside := h.inside
  obtain ⟨t, ht⟩ : ∃ t, ts[name + 1]? = some t := ⟨_, List.getElem?_eq_getElem (by omega)⟩
  cases hparen : t.isMark .parenOpen with
  | true =>
    -- the token that ends the line is no parenthesis
    have hnext : name + 1 < stop := by
      refine Nat.lt_of_le_of_ne hinside fun heq => ?_
      obtain ⟨u, hu, hend⟩ := h.directive.stop
      rw [← heq, ht] at hu
      obtain rfl := Option.some.inj hu
      rcases hend with hl | hk
      · rw [Token.endsLine_of_isMark hparen] at hl
        cases hl
      · simp [Token.isMark, Token.mark?, hk] at hparen
    rw [extract_cons ht hnext, afterParameters, if_pos hparen,
      exists_matches_iff ht hparen hnext (Nat.le_of_lt hlt) hindex]
    constructor
    · rintro ⟨close, hmatches, hclose⟩
      have := hmatches.lt
      exact ⟨by omega, hindex, fun _ _ _ => ⟨close, hmatches, hclose⟩⟩
    · intro hbody
      exact hbody.afterParameters t ht hparen
  | false =>
    have hsame : afterParameters (ts.extract (name + 1) stop) = ts.extract (name + 1) stop := by
      refine afterParameters_of_not_paren fun u hu => ?_
      obtain ⟨k, hk, hks, hget⟩ := mem_extract (List.mem_of_mem_head? hu)
      rw [extract_cons ht (by omega)] at hu
      obtain rfl := Option.some.inj hu
      exact hparen
    rw [hsame, length_extract (Nat.le_of_lt hlt)]
    constructor
    · intro hle
      refine ⟨by omega, hindex, ?_⟩
      intro u hu hm
      obtain rfl := Option.some.inj (ht.symm.trans hu)
      simp [hparen] at hm
    · intro hbody
      have := hbody.afterName
      omega

end

end EastConst
