import EastConst.Proofs.Occurrence.Complete
import EastConst.Proofs.Plan.Noncrossing
import EastConst.Proofs.TypeExtent.Grammar

/-!
# Moves stay in their statement

What a qualifier is moved over belongs to its statement, and balances its parentheses (`Confined`).
A phrase does because every token of it does its part: between two states of the reading of a name,
it opens or closes the parentheses by which the states differ (`NameState.Reads.continues`), and so
does the operand of `decltype` (`confined_of_operand`). What leads in to the phrase has no
parentheses at all.

The main statement is `moves_stay_in_statement`, for all moves of a plan.
-/

namespace EastConst

/-- Whether a token belongs to a statement, and takes the number of open parentheses to another. -/
structure Token.Continues (t : Token) (pending after : Nat) : Prop where
  statement : t.endsStatement = false
  parens : (if t.mark? = some .parenClose then 1 else 0) + after =
    (if t.mark? = some .parenOpen then 1 else 0) + pending

/-- Whether tokens belong to a statement, and balance their parentheses and those that are open
before them. -/
structure Confined (pending : Nat) (ts : List Token) : Prop where
  statement : ∀ t ∈ ts, t.endsStatement = false
  parens : Balances pending ts

section

variable {pending after : Nat} {t : Token} {ts us : List Token}

theorem Token.endsStatement_of_mark?_eq_none (h : t.mark? = none) : t.endsStatement = false := by
  simp [endsStatement, isMark, h]

theorem Token.continues_of_mark?_eq_none (h : t.mark? = none) (pending : Nat) :
    t.Continues pending pending :=
  ⟨endsStatement_of_mark?_eq_none h, by simp [h]⟩

theorem Token.continues_of_isMark {m : Mark} (ht : t.isMark m = true)
    (hm : m ∉ [.semicolon, .braceOpen, .braceClose, .parenOpen, .parenClose]) (pending : Nat) :
    t.Continues pending pending := by
  simp only [List.mem_cons, List.not_mem_nil, or_false, not_or] at hm
  rw [isMark, beq_iff_eq] at ht
  refine ⟨?_, ?_⟩
  · simp [endsStatement, isMark, ht, hm]
  · simp [ht, hm]

/-- A token that leaves the statement going on can be put before tokens that are confined. -/
theorem Confined.cons (ht : t.Continues pending after) (h : Confined after ts) :
    Confined pending (t :: ts) where
  statement := List.forall_mem_cons.2 ⟨ht.statement, h.statement⟩
  parens := (balances_cons_iff ht.parens).2 h.parens

theorem confined_nil : Confined 0 [] where
  statement := fun _ h => nomatch h
  parens := balances_nil_iff.2 rfl

theorem Confined.append_of_plain (h : Confined pending ts) (hus : ∀ t ∈ us, t.mark? = none) :
    Confined pending (us ++ ts) where
  statement := by
    intro t ht
    rcases List.mem_append.1 ht with ht | ht
    · exact Token.endsStatement_of_mark?_eq_none (hus t ht)
    · exact h.statement t ht
  parens := h.parens.append_of_plain hus

/-- Tokens are confined if what counts for the grammar is. -/
theorem confined_of_filter (h : Confined pending (ts.filter Token.isSignificant)) :
    Confined pending ts where
  statement := by
    intro t ht
    cases hs : t.isSignificant with
    | true => exact h.statement t (List.mem_filter.2 ⟨ht, hs⟩)
    | false =>
      apply Token.endsStatement_of_mark?_eq_none
      apply Token.mark?_eq_none
      intro hk
      simp [Token.isSignificant, Token.isTrivia, hk] at hs
  parens := balances_filter_iff.1 h.parens

end

/-! ## Phrases -/

namespace TypeExtent

section

variable {state state' : NameState} {d d' : Depths} {t : Token} {ts : List Token}

/-- Inside template arguments no token ends the statement. -/
theorem Depths.continues_of_more (h : d.after t = .more d') : t.Continues d.parens d'.parens := by
  unfold after at h
  refine ⟨?_, ?_⟩
  · unfold Token.endsStatement Token.isMark
    grind
  · grind

theorem Depths.continues_of_closed (h : d.after t = .closed) : t.Continues d.parens 0 := by
  obtain ⟨hp, -, hm⟩ := after_eq_closed h
  rw [hp]
  rcases hm with ⟨hm, -⟩ | ⟨hm, -⟩
  · exact Token.continues_of_isMark (beq_iff_eq.2 hm) (by decide) 0
  · exact Token.continues_of_isMark (beq_iff_eq.2 hm) (by decide) 0

/-- The parentheses that are open where the reading of a name stands. -/
def NameState.parens : NameState → Nat
  | .arguments d => d.parens
  | _ => 0

/-- The step lemma: a token of a name opens and closes the parentheses by which the states around it
differ. -/
theorem NameState.Reads.continues (h : state.Reads t state') :
    t.Continues state.parens state'.parens := by
  cases h with
  | global ht => exact Token.continues_of_isMark ht (by decide) 0
  | template hs ht =>
    have hm := Token.mark?_of_isKeyword ht
    rcases hs with rfl | rfl <;> exact Token.continues_of_mark?_eq_none hm 0
  | identifier hs ht =>
    have hm : t.mark? = none := Token.mark?_eq_none (by simp [ht])
    rcases hs with rfl | rfl | rfl <;> exact Token.continues_of_mark?_eq_none hm 0
  | scope hs ht => rcases hs with rfl | rfl <;> exact Token.continues_of_isMark ht (by decide) 0
  | less ht => exact Token.continues_of_isMark ht (by decide) 0
  | more hd => exact Depths.continues_of_more hd
  | closed hd => exact Depths.continues_of_closed hd

/-- The run lemma: the tokens that complete a name close the parentheses that are open in it. -/
theorem Completes.confined (h : Completes state ts) : Confined state.parens ts := by
  induction h with
  | identifier => exact confined_nil
  | argued => exact confined_nil
  | step ht _ ih => exact ih.cons ht.continues

theorem Enclosure.continues_of_on {depth : Nat} {e : Enclosure}
    (h : (Enclosure.operand depth).after t = .on e) :
    t.Continues depth (Enclosure.parensAfter depth t) := by
  unfold Enclosure.after at h
  refine ⟨?_, ?_⟩
  · unfold Token.endsStatement Token.isMark
    grind
  · unfold Enclosure.parensAfter
    grind

/-- The parenthesis that closes an operand brings the count back to where it was. -/
theorem Enclosure.continues_of_closed {depth : Nat} (hdepth : 1 ≤ depth)
    (h : (Enclosure.operand depth).after t = .closed) : t.Continues depth 0 := by
  unfold Enclosure.after at h
  refine ⟨?_, ?_⟩
  · unfold Token.endsStatement Token.isMark
    grind
  · grind

/-- An operand closes the parentheses that are open around it. -/
theorem confined_of_operand {depth : Nat} (hdepth : 1 ≤ depth)
    (h : (Enclosure.operand depth).rest? ts = some []) : Confined depth ts := by
  induction ts generalizing depth with
  | nil => cases h
  | cons t ts ih =>
    cases hstep : (Enclosure.operand depth).after t with
    | on e =>
      have hopen : e.IsOpen := Enclosure.IsOpen.after (e := .operand depth) hdepth hstep
      obtain rfl := Enclosure.after_operand_of_on hstep
      rw [Enclosure.rest?_of_on hstep] at h
      exact (ih hopen h).cons (Enclosure.continues_of_on hstep)
    | closed =>
      rw [Enclosure.rest?_of_closed hstep] at h
      obtain rfl := Option.some.inj h
      exact confined_nil.cons (Enclosure.continues_of_closed hdepth hstep)
    | refused =>
      rw [Enclosure.rest?_of_refused hstep] at h
      cases h

/-- A phrase belongs to one statement, and balances its parentheses. -/
theorem Phrase.confined (h : Phrase ts) : Confined 0 ts := by
  cases h with
  | fundamental _ h =>
    have hplain := confined_nil.append_of_plain fun t ht => Token.mark?_of_isBuiltinType (h t ht)
    rwa [List.append_nil] at hplain
  | name h => exact h.confined
  | elaborated ht _ h =>
    exact h.confined.cons (Token.continues_of_mark?_eq_none (Token.mark?_eq_none (by simp [ht])) 0)
  | decltype ht hu h =>
    rw [Token.isMark, beq_iff_eq] at hu
    refine Confined.cons (Token.continues_of_mark?_eq_none (Token.mark?_of_isKeyword ht) 0) ?_
    refine (confined_of_operand (Nat.le_refl 1) h).cons ⟨?_, ?_⟩
    · simp [Token.endsStatement, Token.isMark, hu]
    · simp [hu]

end

end TypeExtent

/-! ## Moves -/

section

variable {options : Options} {source : List Char}

/-- No move leaves a statement, parentheses or the line of a directive. -/
theorem moves_stay_in_statement {move : Move} (hm : move ∈ (planOf options source).moves) :
    move.index < move.anchor ∧
      (∀ t ∈ (tokens source).extract (move.index + 1) (move.anchor + 1), t.endsStatement = false) ∧
      Balances 0 ((tokens source).extract (move.index + 1) (move.anchor + 1)) ∧
      ∀ start stop, IsDirective (tokens source) start stop → start ≤ move.index →
        move.index < stop → move.anchor < stop := by
  obtain ⟨e, he, hmoves, hmem, hanchor, -⟩ := exists_group_of_move hm
  obtain ⟨htype, -⟩ := hmoves.member _ hmem
  obtain ⟨hle, hboundary, -⟩ := hmoves.anchored
  rw [hanchor]
  -- the phrase of the type, and what leads in to it
  have hphrase := phrase_of_mem_movable he
  rw [TypeExtent.map_fst_significantBetween] at hphrase
  have hlead : ∀ t ∈ (tokens source).extract (move.index + 1) e.1.typeStart, t.mark? = none := by
    intro t ht
    obtain ⟨k, hk, hk', ht⟩ := mem_extract ht
    exact Token.mark?_of_isLeadIn (hmoves.isLeadIn hmem (by omega) hk' ht)
  have hconfined := (confined_of_filter hphrase.confined).append_of_plain hlead
  rw [extract_append (by omega) (by omega)] at hconfined
  refine ⟨by omega, hconfined.statement, hconfined.parens, ?_⟩
  intro start stop hdirective hstart hstop
  obtain ⟨o, ho, hindex, -, ho', -⟩ := hmoves.leading _ hmem
  rw [← hindex] at hstart hstop
  rw [← boundary_eq_of_isDirective (tokens_terminated source) ho hdirective hstart hstop, ho']
  exact hboundary

/-- A qualifier is moved over the parentheses of a template argument, up to the last token of its
line. -/
theorem moves_stay_in_statement_in_define :
    (⟨5, 13, .const⟩ : Move) ∈ (planOf {} "#define T const A<f(x)>\nint y;".toList).moves ∧
      Balances 0 ((tokens "#define T const A<f(x)>\nint y;".toList).extract 6 14) ∧
      ∀ start stop, IsDirective (tokens "#define T const A<f(x)>\nint y;".toList) start stop →
        start ≤ 5 → 5 < stop → 13 < stop := by
  have hm : (⟨5, 13, .const⟩ : Move) ∈
      (planOf {} "#define T const A<f(x)>\nint y;".toList).moves := by
    decide +kernel
  obtain ⟨-, -, hparens, hline⟩ := moves_stay_in_statement hm
  exact ⟨hm, hparens, hline⟩

end

end EastConst
