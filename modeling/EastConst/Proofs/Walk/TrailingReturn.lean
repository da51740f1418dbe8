import EastConst.Proofs.Walk.Bracketed

/-!
# Where a trailing return type ends

An arrow after a parenthesis starts a trailing return type, in which every qualifier is ignored. It
is ended by a semicolon, or by a bracket, a comma or an equals sign where no more brackets are open
than at the arrow (`Walk.trailingReturn_step`, `Walk.trailingReturn_run_eq_some_iff`). The brackets
are counted before the mark has dropped any angle bracket, and an angle bracket may be a comparison.
So the parenthesis around an arrow ends what the arrow has started, unless more angle brackets are
open there than at the arrow (`trailingReturn_bracketed`).
-/

namespace EastConst

namespace Walk

variable {options : Options} {w : Walk} {t : Token} {ts : List Token} {start : Nat}

/-- Whether a trailing return type starts at a token: an arrow right after a parenthesis, where
there is no other one. -/
structure StartsReturn (w : Walk) (t : Token) : Prop where
  arrow : t.isMark .arrow = true
  afterParen : w.lastIsMark .parenClose = true
  outside : w.trailingReturn = none

/-- Whether no token ends a trailing return type that started with `start` brackets open. -/
def Continues (options : Options) (w : Walk) (start : Nat) (ts : List Token) : Prop :=
  ∀ pre t post, ts = pre ++ t :: post →
    endsTrailingReturn start (w.run options pre).nesting.depth t.mark? = false

theorem continues_cons :
    w.Continues options start (t :: ts) ↔
      endsTrailingReturn start w.nesting.depth t.mark? = false ∧
        (w.step options t).Continues options start ts := by
  constructor
  · intro h
    refine ⟨h [] t ts rfl, ?_⟩
    intro pre u post heq
    exact h (t :: pre) u post (by rw [heq]; rfl)
  · rintro ⟨hfirst, hrest⟩ pre u post heq
    cases pre with
    | nil =>
      obtain ⟨rfl, -⟩ := List.cons.inj heq
      exact hfirst
    | cons v pre =>
      obtain ⟨rfl, hts⟩ := List.cons.inj heq
      exact hrest pre u post hts

theorem trailingReturn_endTrailingReturn (w : Walk) (m : Option Mark) :
    (w.endTrailingReturn m).trailingReturn =
      w.trailingReturn.filter fun start => !endsTrailingReturn start w.nesting.depth m := by
  unfold endTrailingReturn
  cases htr : w.trailingReturn with
  | none => exact htr
  | some start =>
    cases hends : endsTrailingReturn start w.nesting.depth m with
    | true => simp [Option.filter, hends]
    | false => simp [Option.filter, hends, htr]

/-- A trailing return type starts at an arrow behind a parenthesis, and ends at a mark that ends
it. -/
theorem trailingReturn_punctuate (w : Walk) (m : Option Mark) :
    (w.punctuate m).trailingReturn =
      if m = some .arrow ∧ w.lastIsMark .parenClose = true ∧ w.trailingReturn = none then
        some w.nesting.depth
      else w.trailingReturn.filter fun start => !endsTrailingReturn start w.nesting.depth m := by
  rw [← trailingReturn_endTrailingReturn]
  by_cases hm : m = some .arrow
  · subst hm
    have hsame : w.endTrailingReturn (some .arrow) = w := by
      unfold endTrailingReturn
      split
      · exact if_neg (by simp [endsTrailingReturn])
      · rfl
    rw [punctuate, hsame]
    simp [Option.isNone_iff_eq_none]
  · rw [if_neg (by simp [hm])]
    unfold punctuate
    generalize w.endTrailingReturn m = v
    cases m with
    | none => rfl
    | some m =>
      cases m with
      | arrow => exact absurd rfl hm
      | less =>
        dsimp only
        split <;> rfl
      | _ => rfl

/-- The step lemma: what a token makes of a trailing return type. -/
theorem trailingReturn_step (options : Options) (w : Walk) (t : Token) :
    (w.step options t).trailingReturn =
      if t.mark? = some .arrow ∧ w.lastIsMark .parenClose = true ∧ w.trailingReturn = none then
        some w.nesting.depth
      else w.trailingReturn.filter fun start =>
        !endsTrailingReturn start w.nesting.depth t.mark? := by
  by_cases hk : t.kind = .punctuation
  · rw [step_of_punctuation hk]
    exact trailingReturn_punctuate w t.mark?
  · have hm : t.mark? = none := if_neg hk
    rw [hm, if_neg (by simp), ← (agrees_step_of_kind hk).trailingReturn]
    cases w.trailingReturn <;> rfl

/-- Behind a token a trailing return type goes on or has just started. -/
theorem trailingReturn_step_eq_some_iff :
    (w.step options t).trailingReturn = some start ↔
      w.trailingReturn = some start ∧ endsTrailingReturn start w.nesting.depth t.mark? = false ∨
        w.StartsReturn t ∧ w.nesting.depth = start := by
  rw [trailingReturn_step]
  split
  · rename_i h
    obtain ⟨hm, hlast, hnone⟩ := h
    have hstarts : w.StartsReturn t := ⟨by simp [Token.isMark, hm], hlast, hnone⟩
    simp [hnone, hstarts]
  · rename_i h
    have hstarts : ¬ w.StartsReturn t := by
      rintro ⟨harrow, hlast, hnone⟩
      exact h ⟨by simpa [Token.isMark] using harrow, hlast, hnone⟩
    simp [Option.filter_eq_some_iff, hstarts]

/-- The run lemma: the trailing return type at the end of tokens is the one at their start, if none
of them ends it, or one that starts at one of them and that none of the later ones ends. -/
theorem trailingReturn_run_eq_some_iff :
    (w.run options ts).trailingReturn = some start ↔
      w.trailingReturn = some start ∧ w.Continues options start ts ∨
        ∃ pre t post, ts = pre ++ t :: post ∧ (w.run options pre).StartsReturn t ∧
          (w.run options pre).nesting.depth = start ∧
          (w.run options (pre ++ [t])).Continues options start post := by
  induction ts generalizing w with
  | nil =>
    have hnil : w.Continues options start [] := by
      intro pre t post heq
      simp at heq
    simp [hnil, Walk.run]
  | cons t ts ih =>
    rw [run_cons, ih, trailingReturn_step_eq_some_iff, continues_cons]
    constructor
    · rintro (⟨⟨htr, hends⟩ | ⟨hstarts, hdepth⟩, hcont⟩ | ⟨pre, u, post, rfl, hu⟩)
      · exact .inl ⟨htr, hends, hcont⟩
      · exact .inr ⟨[], t, ts, rfl, hstarts, hdepth, hcont⟩
      · exact .inr ⟨t :: pre, u, post, rfl, hu⟩
    · rintro (⟨htr, hends, hcont⟩ | ⟨pre, u, post, heq, hstarts, hdepth, hcont⟩)
      · exact .inl ⟨.inl ⟨htr, hends⟩, hcont⟩
      · cases pre with
        | nil =>
          obtain ⟨rfl, rfl⟩ := List.cons.inj heq
          exact .inl ⟨.inr ⟨hstarts, hdepth⟩, hcont⟩
        | cons v pre =>
          obtain ⟨rfl, rfl⟩ := List.cons.inj heq
          exact .inr ⟨pre, u, post, rfl, hstarts, hdepth, hcont⟩

end Walk

/-! ## Parentheses around an arrow -/

section

variable {options : Options} {w : Walk} {place : Place} {o c : Token} {body : List Token}

/-- After a pair of brackets there is a trailing return type if one starts between them that nothing
ends, the closing bracket included. -/
theorem Bracketed.trailingReturn_eq_some_iff (h : Bracketed o body c) (hw : w.trailingReturn = none)
    {start : Nat} :
    (w.run options (o :: body ++ [c])).trailingReturn = some start ↔
      ∃ pre t post, body = pre ++ t :: post ∧ (w.run options (o :: pre)).StartsReturn t ∧
        (w.run options (o :: pre)).nesting.depth = start ∧
        (w.run options (o :: pre ++ [t])).Continues options start (post ++ [c]) := by
  obtain ⟨m, m', ho, hc, ⟨-, hm⟩, -, hm'⟩ := Token.exists_marks_of_pairs h.pair
  rw [Walk.trailingReturn_run_eq_some_iff]
  constructor
  · rintro (⟨htr, -⟩ | ⟨pre, t, post, heq, hstarts, hdepth, hcont⟩)
    · rw [hw] at htr
      cases htr
    · rcases split_bracketed heq with ⟨-, rfl⟩ | ⟨pre, rest, rfl, rfl⟩ | rfl
      · exact absurd hstarts.arrow (by simp [Token.isMark_of_ne ho hm])
      · obtain rfl : post = rest ++ [c] := by simpa using heq.symm
        exact ⟨pre, t, rest, rfl, hstarts, hdepth, hcont⟩
      · exact absurd hstarts.arrow (by simp [Token.isMark_of_ne hc hm'])
  · rintro ⟨pre, t, post, rfl, hstarts, hdepth, hcont⟩
    exact .inr ⟨o :: pre, t, post ++ [c], by simp, hstarts, hdepth, hcont⟩

theorem Bracketed.trailingReturn_eq_none_iff (h : Bracketed o body c)
    (hw : w.trailingReturn = none) :
    (w.run options (o :: body ++ [c])).trailingReturn = none ↔
      ∀ pre t post, body = pre ++ t :: post → (w.run options (o :: pre)).StartsReturn t →
        ∃ mid u rest, post ++ [c] = mid ++ u :: rest ∧
          Walk.endsTrailingReturn (w.run options (o :: pre)).nesting.depth
            (w.run options (o :: pre ++ t :: mid)).nesting.depth u.mark? = true := by
  rw [Option.eq_none_iff_forall_ne_some]
  constructor
  · intro hnone pre t post hbody hstarts
    apply Classical.byContradiction
    intro hcont
    refine hnone _ ((h.trailingReturn_eq_some_iff hw).2 ⟨pre, t, post, hbody, hstarts, rfl, ?_⟩)
    intro mid u rest heq
    rw [← Walk.run_append, List.append_assoc, List.singleton_append]
    exact Bool.eq_false_iff.2 fun hu => hcont ⟨mid, u, rest, heq, hu⟩
  · intro hall start hsome
    obtain ⟨pre, t, post, hbody, hstarts, rfl, hcont⟩ := (h.trailingReturn_eq_some_iff hw).1 hsome
    obtain ⟨mid, u, rest, heq, hu⟩ := hall pre t post hbody hstarts
    have hu' := hcont mid u rest heq
    rw [← Walk.run_append, List.append_assoc, List.singleton_append, hu] at hu'
    cases hu'

/-- A closing parenthesis that has no angle bracket to drop ends every trailing return type that
started after the opening one. -/
theorem Bracketed.trailingReturn_of_depth (h : Bracketed o body c) (hw : w.trailingReturn = none)
    (ho : o.isMark .parenOpen = true)
    (hdepth : (w.run options (o :: body)).nesting.depth = w.nesting.depth + 1) :
    (w.run options (o :: body ++ [c])).trailingReturn = none := by
  have hc : c.mark? = some .parenClose := by
    rcases Token.pairs_cases h.pair with ⟨-, hc⟩ | ⟨ho', -⟩ | ⟨ho', -⟩
    · simpa [Token.isMark] using hc
    · exact absurd ho' (by simp [Token.isMark_of_ne ho])
    · exact absurd ho' (by simp [Token.isMark_of_ne ho])
  rw [h.trailingReturn_eq_none_iff hw]
  intro pre t post hbody _
  refine ⟨post, c, [], rfl, ?_⟩
  -- it started inside the parentheses, with at least as many brackets open
  obtain ⟨awaited, hover⟩ :=
    awaits_prefix h.nested (Nesting.isFirm_push _ rfl) (nesting_step_paren options w ho) hbody
  rw [List.cons_append, ← hbody, hc, hdepth]
  exact decide_eq_true hover.depth_le

end

/-- After parentheses there is no trailing return type exactly if each one that starts between them
is ended by a mark up to the closing parenthesis. That parenthesis has only angle brackets over the
opening one; if there are none, it ends every one. Then qualifiers are suppressed only if they were
before. -/
theorem trailingReturn_bracketed (options : Options) {w : Walk} (hw : w.trailingReturn = none)
    {place : Place} (hplace : ∀ held, place ≠ .directive held) {o c : Token} {body : List Token}
    (ho : o.isMark .parenOpen = true) (h : Bracketed o body c) :
    ((w.runFrom options place (o :: body ++ [c])).trailingReturn = none ↔
      ∀ pre t post, body = pre ++ t :: post → (w.run options (o :: pre)).StartsReturn t →
        ∃ mid u rest, post ++ [c] = mid ++ u :: rest ∧
          Walk.endsTrailingReturn (w.run options (o :: pre)).nesting.depth
            (w.run options (o :: pre ++ t :: mid)).nesting.depth u.mark? = true) ∧
    (∃ angles, (∀ b ∈ angles, b.isAngle = true) ∧
      (w.run options (o :: body)).nesting.brackets =
        angles ++ .paren (w.lastIsKeyword "decltype") :: w.nesting.brackets ∧
      (angles = [] → (w.runFrom options place (o :: body ++ [c])).trailingReturn = none)) ∧
    ((w.runFrom options place (o :: body ++ [c])).trailingReturn = none →
      (w.runFrom options place (o :: body ++ [c])).isSuppressed = w.isSuppressed) := by
  rw [h.runFrom_eq hplace]
  refine ⟨h.trailingReturn_eq_none_iff hw, ?_, ?_⟩
  · obtain ⟨angles, hangles, hbrackets⟩ :=
      (Bracketed.awaits_body h.nested (Nesting.isFirm_push _ rfl)
      (Bracketed.nesting_step_paren options w ho)).exists_angles
    refine ⟨angles, hangles, hbrackets, ?_⟩
    rintro rfl
    exact h.trailingReturn_of_depth hw ho (congrArg List.length hbrackets)
  · intro hnone
    have hnesting := h.nesting_eq options w
    rw [if_neg (by simp [Token.isMark_of_ne ho])] at hnesting
    rw [Walk.isSuppressed, Walk.isSuppressed, hnesting, hnone, hw]

/-- Template arguments after an arrow are closed again before the parenthesis. -/
theorem trailingReturn_bracketed_arguments :
    ∃ ts w, tokens "if (p()->m<int>() > 3) x();".toList = ts ∧
      Walk.runFrom {} {} .lineStart (ts.take 2) = w ∧ w.trailingReturn = none ∧
      (w.runFrom {} .midLine (ts.extract 2 18)).trailingReturn = none := by
  obtain ⟨o, ho⟩ : ∃ o : Token, o = ⟨.punctuation, ['(']⟩ := ⟨_, rfl⟩
  obtain ⟨body, hbody⟩ : ∃ body : List Token, body =
      [⟨.identifier, ['p']⟩, ⟨.punctuation, ['(']⟩, ⟨.punctuation, [')']⟩,
       ⟨.punctuation, ['-', '>']⟩, ⟨.identifier, ['m']⟩, ⟨.punctuation, ['<']⟩,
       ⟨.keyword, "int".toList⟩, ⟨.punctuation, ['>']⟩, ⟨.punctuation, ['(']⟩,
       ⟨.punctuation, [')']⟩, ⟨.whitespace, [' ']⟩, ⟨.punctuation, ['>']⟩, ⟨.whitespace, [' ']⟩,
       ⟨.literal, ['3']⟩] := ⟨_, rfl⟩
  obtain ⟨c, hc⟩ : ∃ c : Token, c = ⟨.punctuation, [')']⟩ := ⟨_, rfl⟩
  obtain ⟨ts, hts⟩ : ∃ ts : List Token, ts =
      [⟨.keyword, "if".toList⟩, ⟨.whitespace, [' ']⟩] ++ (o :: body ++ [c]) ++
      [⟨.whitespace, [' ']⟩, ⟨.identifier, ['x']⟩, ⟨.punctuation, ['(']⟩, ⟨.punctuation, [')']⟩,
       ⟨.punctuation, [';']⟩, .endOfInput] := ⟨_, rfl⟩
  have hbracketed : Bracketed o body c := by
    subst ho hbody hc
    exact ⟨by decide, by decide, by decide, fun k t _ _ => not_startsLine (by decide) (by decide) k⟩
  have hextract : ts.extract 2 18 = o :: body ++ [c] := by
    rw [hts, hbody]
    rfl
  have hw : (Walk.runFrom {} {} .lineStart (ts.take 2)).trailingReturn = none := by
    rw [hts]
    rfl
  have hplace : ∀ held, Place.midLine ≠ .directive held := by simp
  refine ⟨ts, _, ?_, rfl, hw, ?_⟩
  · subst hts ho hbody hc
    decide +kernel
  · obtain ⟨-, ⟨angles, -, hbrackets, hnone⟩, -⟩ :=
      trailingReturn_bracketed {} hw hplace (by rw [ho]; rfl) hbracketed
    rw [hextract]
    apply hnone
    have hinside : ((Walk.runFrom {} {} .lineStart (ts.take 2)).run {}
        (o :: body)).nesting.brackets =
        .paren false :: (Walk.runFrom {} {} .lineStart (ts.take 2)).nesting.brackets := by
      subst hts ho hbody hc
      decide +kernel
    have hlen := congrArg List.length (hinside.symm.trans hbrackets)
    rw [List.length_append, List.length_cons, List.length_cons] at hlen
    exact List.length_eq_zero_iff.1 (by omega)

/-- A comparison after an arrow: the parenthesis does not end what the arrow has started, and a
qualifier after it is ignored. -/
theorem trailingReturn_outlives_comparison :
    ∃ ts o body c w, tokens "if (p()->n < 3) static const int x = 1;".toList = ts ∧
      ts.extract 2 13 = o :: body ++ [c] ∧ o.isMark .parenOpen = true ∧ Bracketed o body c ∧
      Walk.runFrom {} {} .lineStart (ts.take 2) = w ∧ w.trailingReturn = none ∧
      (w.runFrom {} .midLine (o :: body ++ [c])).trailingReturn = some 1 ∧
      roleAt {} ts 16 = some .ignored := by
  obtain ⟨ts, hts⟩ : ∃ ts : List Token, ts =
      [⟨.keyword, "if".toList⟩, ⟨.whitespace, [' ']⟩, ⟨.punctuation, ['(']⟩, ⟨.identifier, ['p']⟩,
       ⟨.punctuation, ['(']⟩, ⟨.punctuation, [')']⟩, ⟨.punctuation, ['-', '>']⟩,
       ⟨.identifier, ['n']⟩, ⟨.whitespace, [' ']⟩, ⟨.punctuation, ['<']⟩, ⟨.whitespace, [' ']⟩,
       ⟨.literal, ['3']⟩, ⟨.punctuation, [')']⟩, ⟨.whitespace, [' ']⟩, ⟨.keyword, "static".toList⟩,
       ⟨.whitespace, [' ']⟩, ⟨.keyword, "const".toList⟩, ⟨.whitespace, [' ']⟩,
       ⟨.keyword, "int".toList⟩, ⟨.whitespace, [' ']⟩, ⟨.identifier, ['x']⟩, ⟨.whitespace, [' ']⟩,
       ⟨.punctuation, ['=']⟩, ⟨.whitespace, [' ']⟩, ⟨.literal, ['1']⟩, ⟨.punctuation, [';']⟩,
       .endOfInput] := ⟨_, rfl⟩
  refine ⟨ts, ⟨.punctuation, ['(']⟩, ts.extract 3 12, ⟨.punctuation, [')']⟩, _, ?_, ?_, rfl, ?_,
    rfl, ?_, ?_, ?_⟩
  · rw [hts]
    decide +kernel
  · rw [hts]
    rfl
  · rw [hts]
    exact ⟨by decide, by decide, by decide, fun k t _ _ => not_startsLine (by decide) (by decide) k⟩
  · rw [hts]
    rfl
  · rw [hts]
    decide +kernel
  · rw [hts]
    decide +kernel

end EastConst
