import EastConst.Proofs.Occurrence.Gaps
import EastConst.Proofs.Plan.CarryOut

/-!
# The gaps in what a plan writes

The tokens of the output with the gaps before them are woven from those of the source
(`gaps_output`): what goes leaves its piece in the next gap, what stays comes after the gap, and
what is put in comes after a space. A line that ends in the source ends in the output
(`endsLine_append_piece`), but for whitespace between a qualifier that goes and its type (`InLead`),
where a line break may come to follow a backslash.
-/

namespace EastConst

open Lexeme (breaksLine)

/-! ## Line ends in whitespace -/

/-- A run of whitespace and a text end a line exactly if one of them does. -/
theorem endsLine_run_append {w : List Char} (h : Lexeme.Space.IsRun w) (x : List Char) :
    endsLine (w ++ x) = (endsLine w || endsLine x) := by
  unfold Lexeme.Space.IsRun at h
  fun_induction Lexeme.Space.runLength w with
  | case1 text ih => exact ih (by simpa using h)
  | case2 text ih => exact ih (by simpa using h)
  | case3 c text h1 h2 hc ih =>
    have hb : c ≠ '\\' := by rintro rfl; revert hc; decide
    by_cases hn : c = '\n'
    · subst hn
      rfl
    · simp [endsLine, hb, ih (by simpa using h)]
  | case4 c text h1 h2 hc => simp at h
  | case5 => rfl

theorem endsLine_backslash {x : List Char} (h : breaksLine x = false) :
    endsLine ('\\' :: x) = endsLine x := by
  rw [endsLine]
  · rintro text - rfl
    cases h
  · rintro text - rfl
    cases h
  · simp

/-- Whitespace cut back to its last line break still ends the line, if it did. -/
theorem endsLine_throughLastLine (text : List Char) :
    endsLine (Plan.throughLastLine text) = endsLine text := by
  by_cases h : '\n' ∈ text
  · obtain ⟨head, tail, rfl, htail⟩ := Plan.exists_last_line h
    have hsplit : head ++ '\n' :: tail = head ++ ['\n'] ++ tail := by simp
    rw [Plan.throughLastLine_eq htail, hsplit]
    cases hline : endsLine (head ++ ['\n']) with
    | true => rw [endsLine_append_left hline]
    | false => rw [endsLine_append_of_false hline (endsLine_eq_false htail)]
  · rw [Plan.throughLastLine_of_not_mem h, endsLine_eq_false h]
    rfl

section

variable {options : Options} {source : List Char} {i m : Nat} {t : Token}

/-- The whitespace tokens of a source end lines as they do by themselves. -/
theorem joins_text (ht : (tokens source)[i]? = some t) (hk : t.kind = .whitespace) :
    Joins t.text (textFrom (tokens source) (i + 1)) := by
  intro w hw
  obtain ⟨run, -, hrun, ⟨htext, -⟩ | ⟨htext, hbreak⟩⟩ := exists_run_of_whitespace ht hk
  · rw [htext, endsLine_run_append hrun]
  · have hw' : breaksLine w = false := by
      refine Bool.eq_false_iff.2 fun h => ?_
      obtain ⟨x, hx⟩ := hw
      rw [← hx, breaksLine_append h x] at hbreak
      cases hbreak
    rw [htext, List.append_assoc, endsLine_run_append hrun, endsLine_run_append hrun,
      List.singleton_append, endsLine_backslash hw', endsLine_backslash rfl]
    simp [endsLine]

theorem spacesApart (source : List Char) : Token.SpacesApart (beforeEnd (tokens source)) := by
  intro pre t post hts hk
  have htokens : tokens source = pre ++ t :: (post ++ [Token.endOfInput]) := by
    rw [tokens_terminated source, hts, List.append_assoc, List.cons_append]
  have ht : (tokens source)[pre.length]? = some t := by simp [htokens]
  have htext : textFrom (tokens source) (pre.length + 1) = post.flatMap Token.text := by
    rw [textFrom, htokens, List.append_cons, List.drop_append_of_le_length (by simp),
      List.drop_eq_nil_of_le (by simp)]
    simp [Token.endOfInput]
  refine ⟨text_ne_nil ht (by simp [hk]), ?_⟩
  rw [← htext]
  exact joins_text ht hk

/-! ## What is woven -/

/-- The tokens that a plan writes for tokens from an index on, each with the whitespace before
it. -/
def Plan.weave (plan : Plan) :
    (gap : List Char) → (index : Nat) → List Token → List (List Char × Token)
  | _, _, [] => []
  | gap, index, t :: ts =>
    if plan.removes index = true ∨ t.kind = .whitespace then
      plan.weave (gap ++ plan.piece t index) (index + 1) ts
    else
      (gap, t) :: (plan.moves.filter (·.anchor == index)).map
          (fun m => ([' '], ⟨.keyword, m.qualifier.text⟩)) ++
        plan.weave (plan.padding index) (index + 1) ts

theorem getElem?_of_drop {ts rest : List Token} (h : ts.drop i = t :: rest) :
    ts[i]? = some t ∧ ts.drop (i + 1) = rest := by
  have hlt : i < ts.length := by
    refine Decidable.byContradiction fun hge => ?_
    rw [List.drop_eq_nil_of_le (by omega)] at h
    cases h
  rw [List.drop_eq_getElem_cons hlt, List.cons.injEq] at h
  exact ⟨by rw [List.getElem?_eq_getElem hlt, h.1], h.2⟩

theorem getElem?_beforeEnd :
    (beforeEnd (tokens source))[i]? = some t ↔
      (tokens source)[i]? = some t ∧ t.kind ≠ .endOfInput := by
  constructor
  · intro h
    obtain ⟨hlt, -⟩ := List.getElem?_eq_some_iff.1 h
    have hend := List.all_eq_true.1 List.all_takeWhile t (List.mem_of_getElem? h)
    refine ⟨?_, by simpa using hend⟩
    rw [tokens_terminated source, List.getElem?_append_left hlt, h]
  · rintro ⟨h, hk⟩
    obtain ⟨l, hl, rfl, -⟩ := exists_lexeme h hk
    rw [beforeEnd_tokens, List.getElem?_map, hl]
    rfl

theorem exists_getElem?_beforeEnd (h : i < (tokens source).length - 1) :
    ∃ t, (beforeEnd (tokens source))[i]? = some t := by
  rw [tokens_terminated source, List.length_append] at h
  exact ⟨_, List.getElem?_eq_getElem h⟩

/-- Where every opening is kept, the tokens of the output are the woven ones. -/
theorem written_eq_weave (hraw : ∀ k, KeepsOpening options source k) (gap : List Char) (i : Nat) :
    written options source gap i =
      (planOf options source).weave gap i ((beforeEnd (tokens source)).drop i) := by
  induction hrest : (beforeEnd (tokens source)).drop i generalizing gap i with
  | nil =>
    have hlength : (tokens source).length - 1 ≤ i := by
      have := List.drop_eq_nil_iff.1 hrest
      rw [tokens_terminated source]
      simpa using this
    rw [written, outFrom_of_end hlength]
    rfl
  | cons t rest ih =>
    obtain ⟨hget, hdrop⟩ := getElem?_of_drop hrest
    obtain ⟨ht, hend⟩ := getElem?_beforeEnd.1 hget
    rw [Plan.weave]
    split
    · rename_i hgone
      rw [written_of_gone ht hgone, ih _ _ hdrop]
    · rename_i hkept
      obtain ⟨hr, hk⟩ := not_or.1 hkept
      rw [written_of_kept ht hend hk (by simpa using hr) (hraw i), ih _ _ hdrop]

theorem gaps_tokens (gap source : List Char) :
    Token.gaps gap (beforeEnd (tokens source)) =
      (Lexeme.gapped gap source).map (Prod.map id Token.ofLexeme) := by
  rw [beforeEnd_tokens, Lexeme.gapped]
  induction Lexeme.lexemes source generalizing gap with
  | nil => rfl
  | cons l ls ih =>
    rw [List.map_cons, Token.gaps, Lexeme.gaps]
    by_cases hk : l.kind = .whitespace
    · have hkt : (Token.ofLexeme l).kind = .whitespace := Token.kindOf_eq_whitespace.2 hk
      rw [if_pos hk, if_pos hkt, ih]
      rfl
    · have hkt : (Token.ofLexeme l).kind ≠ .whitespace := mt Token.kindOf_eq_whitespace.1 hk
      rw [if_neg hk, if_neg hkt, ih]
      rfl

/-- The tokens of the output, each with the whitespace before it, are woven from those of the
source. -/
theorem gaps_output (hraw : ∀ k, KeepsOpening options source k) :
    Token.gaps [] (beforeEnd (tokens (outFrom options source 0))) =
      (planOf options source).weave [] 0 (beforeEnd (tokens source)) := by
  rw [gaps_tokens]
  exact written_eq_weave hraw [] 0

/-! ## Lines -/

/-- What goes of whitespace does not end the line. -/
theorem endsLine_piece_of_whitespace (options : Options) (ht : (tokens source)[i]? = some t)
    (hk : t.kind = .whitespace) :
    endsLine ((planOf options source).piece t i) = endsLine t.text ∧
      (planOf options source).piece t i <+: t.text := by
  rcases piece_of_whitespace options ht hk with ⟨hp, -⟩ | ⟨hp, -, hblank, -⟩ | ⟨hp, -⟩
  · rw [hp]
    exact ⟨rfl, List.prefix_rfl⟩
  · have hline := Token.endsLine_of_isHorizontalSpace hblank
    rw [Token.endsLine, hk, beq_self_eq_true, Bool.true_and] at hline
    rw [hp, hline]
    exact ⟨rfl, List.nil_prefix⟩
  · rw [hp, endsLine_throughLastLine]
    exact ⟨rfl, Plan.throughLastLine_isPrefix t.text⟩

theorem endsLine_piece_of_removes (ht : (tokens source)[m]? = some t)
    (hr : (planOf options source).removes m = true) :
    endsLine ((planOf options source).piece t m) = false := by
  rcases piece_of_removes ht hr with ⟨hp, -⟩ | ⟨hp, -⟩ <;> rw [hp] <;> rfl

/-- Whether an index comes after a qualifier that goes, or is that of one, and not after the start
of its type. -/
def InLead (options : Options) (source : List Char) (i : Nat) : Prop :=
  ∃ e ∈ movable options (tokens source), ∃ m ∈ e.1.members, m ≤ i ∧ i ≤ e.1.typeStart

/-- A qualifier that goes stands in the lead-in of its group, and so does what follows it. -/
theorem inLead_of_removes (hr : (planOf options source).removes m = true) :
    InLead options source m ∧ InLead options source (m + 1) := by
  obtain ⟨e, he, hmem, hmoves⟩ := exists_group_of_removes hr
  have hlt := (hmoves.member m hmem).1
  exact ⟨⟨e, he, m, hmem, Nat.le_refl m, Nat.le_of_lt hlt⟩, ⟨e, he, m, hmem, Nat.le_succ m, hlt⟩⟩

/-- The start of a type is significant. -/
theorem lt_typeStart {e : Group × Nat} (he : e ∈ movable options (tokens source))
    (ht : (tokens source)[i]? = some t) (hsig : t.isSignificant = false) (hi : i ≤ e.1.typeStart) :
    i < e.1.typeStart := by
  refine Nat.lt_of_le_of_ne hi fun heq => ?_
  obtain ⟨u, hu, hstart, -⟩ := (mem_movable (tokens_terminated source) he).type
  rw [← heq, ht] at hu
  obtain rfl := Option.some.inj hu
  rw [Token.isSignificant_of_startsType hstart] at hsig
  cases hsig

theorem InLead.succ (h : InLead options source i) (ht : (tokens source)[i]? = some t)
    (hsig : t.isSignificant = false) : InLead options source (i + 1) := by
  obtain ⟨e, he, m, hm, hmi, hi⟩ := h
  exact ⟨e, he, m, hm, Nat.le_succ_of_le hmi, lt_typeStart he ht hsig hi⟩

/-- Away from the qualifiers that go, whitespace is written as it is. -/
theorem piece_eq_text (ht : (tokens source)[i]? = some t) (hk : t.kind = .whitespace)
    (h : ¬ InLead options source (i + 1)) : (planOf options source).piece t i = t.text := by
  rcases piece_of_whitespace options ht hk with ⟨hp, -⟩ | ⟨-, -, -, m, rfl, hr⟩ | ⟨-, -, hr, -⟩
  · exact hp
  · have hsig : t.isSignificant = false := by simp [Token.isSignificant, Token.isTrivia, hk]
    exact absurd ((inLead_of_removes hr).2.succ ht hsig) h
  · exact absurd (inLead_of_removes hr).1 h

/-- A gap and what is left of the whitespace behind it end a line exactly if one of them does. -/
theorem endsLine_append_piece {gap : List Char} (hjoins : Joins gap (textFrom (tokens source) i))
    (ht : (tokens source)[i]? = some t) (hk : t.kind = .whitespace) :
    endsLine (gap ++ (planOf options source).piece t i) =
      (endsLine gap || endsLine ((planOf options source).piece t i)) := by
  refine hjoins _ ((endsLine_piece_of_whitespace options ht hk).2.trans ?_)
  rw [textFrom_cons ht]
  exact List.prefix_append _ _

/-- Away from the qualifiers that go, a gap ends lines as its parts do. -/
theorem joins_append_piece {gap : List Char}
    (hjoins : ¬ InLead options source i → Joins gap (textFrom (tokens source) i))
    (ht : (tokens source)[i]? = some t) (hk : t.kind = .whitespace)
    (hi : ¬ InLead options source (i + 1)) :
    Joins (gap ++ (planOf options source).piece t i) (textFrom (tokens source) (i + 1)) := by
  have hsig : t.isSignificant = false := by simp [Token.isSignificant, Token.isTrivia, hk]
  have hjoins' := hjoins fun h => hi (h.succ ht hsig)
  rw [textFrom_cons ht] at hjoins'
  rw [piece_eq_text ht hk hi]
  exact hjoins'.append (joins_text ht hk)

theorem joins_padding (plan : Plan) (index : Nat) (text : List Char) :
    Joins (plan.padding index) text := by
  rw [Plan.padding]
  split
  · exact fun w _ => endsLine_run_append (by decide) w
  · exact joins_nil text

theorem endsLine_padding (plan : Plan) (index : Nat) : endsLine (plan.padding index) = false := by
  rw [Plan.padding]
  split <;> rfl

theorem takeWhile_weave_of_endsLine {gap : List Char} (h : endsLine gap = true) (plan : Plan)
    (index : Nat) (ts : List Token) :
    (plan.weave gap index ts).takeWhile (!endsLine ·.1) = [] := by
  induction ts generalizing gap index with
  | nil => rfl
  | cons t ts ih =>
    rw [Plan.weave]
    split
    · exact ih (endsLine_append_left h _) _
    · exact List.takeWhile_cons_of_neg (by simp [h])

end

end EastConst
