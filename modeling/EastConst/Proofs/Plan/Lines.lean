import EastConst.Proofs.Plan.CarryOut
import EastConst.Proofs.Text.Position

/-!
# Lines stay where they are

A plan writes as many line breaks for each token as the token has (`count_lf_piece`): what goes of
white space has none, and neither has what is put in. So nothing that stays comes to another line
(`relocate_keeps_lines`).
-/

namespace EastConst

/-! ## Line breaks in what is written -/

namespace Plan

/-- Cutting whitespace back to its last line break loses no line break. -/
theorem count_lf_throughLastLine (text : List Char) :
    (throughLastLine text).count '\n' = text.count '\n' := by
  obtain ⟨gone, he, hnot, -⟩ := exists_gone text
  conv => rhs; rw [he, List.count_append, List.count_eq_zero_of_not_mem hnot]
  rfl

theorem count_lf_qualifier (q : Qualifier) : q.text.count '\n' = 0 := by
  cases q <;> rfl

theorem count_lf_insertion (plan : Plan) (i : Nat) : (plan.insertion i).count '\n' = 0 := by
  apply List.count_eq_zero_of_not_mem
  intro hmem
  unfold insertion at hmem
  dsimp only at hmem
  split at hmem
  · cases hmem
  · rcases List.mem_append.1 hmem with hmem | hmem
    · obtain ⟨m, -, hmem⟩ := List.mem_flatMap.1 hmem
      rcases List.mem_cons.1 hmem with hsp | hmem
      · cases hsp
      · exact List.count_eq_zero.1 (count_lf_qualifier m.qualifier) hmem
    · split at hmem
      · cases List.mem_singleton.1 hmem
      · cases hmem

end Plan

section

variable {options : Options} {source : List Char} {i : Nat} {t : Token}

/-- The step lemma: the plan of a source writes as many line breaks for a token as the token has. -/
theorem count_lf_piece (options : Options) (ht : (tokens source)[i]? = some t) :
    ((planOf options source).piece t i).count '\n' = t.text.count '\n' := by
  by_cases hk : t.kind = .whitespace
  · rcases piece_of_whitespace options ht hk with ⟨hp, -⟩ | ⟨hp, -, hs, -⟩ | ⟨hp, -⟩
    · rw [hp]
    · have hnot : '\n' ∉ t.text := by simpa [Token.isHorizontalSpace, hk] using hs
      rw [hp, List.count_eq_zero_of_not_mem hnot]
      rfl
    · rw [hp, Plan.count_lf_throughLastLine]
  · cases hr : (planOf options source).removes i with
    | false =>
      rw [piece_of_solid ht hk hr, List.count_append, Plan.count_lf_insertion]
      rfl
    | true =>
      obtain ⟨move, -, hq⟩ := exists_move_of_removes hr ht
      rw [Token.text_of_qualifier hq, Plan.count_lf_qualifier]
      rcases piece_of_removes ht hr with ⟨hp, -⟩ | ⟨hp, -⟩
      · rw [hp]
        rfl
      · rw [hp]
        rfl

/-! ## Before a token -/

/-- The text of tokens before an index. -/
def textBefore (tokens : List Token) (index : Nat) : List Char :=
  (tokens.take index).flatMap Token.text

/-- What is written for the tokens of a source before an index. -/
def outBefore (options : Options) (source : List Char) (index : Nat) : List Char :=
  (((planOf options source).pieces (tokens source)).take index).flatten

theorem textBefore_append (source : List Char) (i : Nat) :
    textBefore (tokens source) i ++ textFrom (tokens source) i = source := by
  rw [textBefore, textFrom, ← List.flatMap_append, List.take_append_drop, tokens_flatten]

/-- The output is what is written before a token and what is written from it on. -/
theorem outBefore_append (options : Options) (source : List Char) (i : Nat) :
    outBefore options source i ++ outFrom options source i = outFrom options source 0 := by
  rw [outBefore, outFrom, ← List.flatten_append, List.take_append_drop, outFrom, List.drop_zero]

theorem textBefore_succ {tokens : List Token} (ht : tokens[i]? = some t) :
    textBefore tokens (i + 1) = textBefore tokens i ++ t.text := by
  rw [textBefore, List.take_add_one, ht, List.flatMap_append, textBefore]
  simp

theorem outBefore_succ (options : Options) (ht : (tokens source)[i]? = some t) :
    outBefore options source (i + 1) =
      outBefore options source i ++ (planOf options source).piece t i := by
  have hp : ((planOf options source).pieces (tokens source))[i]? =
      some ((planOf options source).piece t i) := by
    simp [Plan.pieces, ht]
  rw [outBefore, List.take_add_one, hp, List.flatten_append, outBefore]
  simp

/-- The run lemma: before every token there are as many line breaks as in the source. -/
theorem count_lf_outBefore (options : Options) (hi : i ≤ (tokens source).length) :
    (outBefore options source i).count '\n' = (textBefore (tokens source) i).count '\n' := by
  induction i with
  | zero => rfl
  | succ i ih =>
    have ht := List.getElem?_eq_getElem (Nat.lt_of_succ_le hi)
    rw [outBefore_succ options ht, textBefore_succ ht, List.count_append, List.count_append,
      ih (Nat.le_of_succ_le hi), count_lf_piece options ht]

theorem outBefore_length (options : Options) (source : List Char) :
    outBefore options source (tokens source).length = outFrom options source 0 := by
  rw [← outBefore_append options source (tokens source).length, outFrom_of_le (Nat.le_refl _),
    List.append_nil]

theorem textBefore_length (source : List Char) :
    textBefore (tokens source) (tokens source).length = source := by
  have h := textBefore_append source (tokens source).length
  rwa [textFrom_of_end (Nat.sub_le _ _), List.append_nil] at h

/-- The line of an offset is the number of line breaks before it. -/
theorem lineColumn_append (before after : List Char) :
    (lineColumn (before ++ after) (Utf8.byteLength before)).1 = before.count '\n' := by
  rw [lineColumn, charsBefore_append]

/-- A relocation has as many line breaks as its source, and every token that stays and is not white
space stays on its line: before it there are as many line breaks as in the source, so that it has
the same line number. -/
theorem relocate_keeps_lines {r : Relocated} (h : relocate options source = .ok r) :
    r.output.count '\n' = source.count '\n' ∧
      ∀ i t, (tokens source)[i]? = some t → t.kind ≠ .whitespace →
        (planOf options source).removes i = false →
        (∃ after, r.output = outBefore options source i ++ t.text ++ after) ∧
        (∃ after, source = textBefore (tokens source) i ++ t.text ++ after) ∧
        (outBefore options source i).count '\n' = (textBefore (tokens source) i).count '\n' ∧
        (lineColumn r.output (Utf8.byteLength (outBefore options source i))).1 =
          (lineColumn source (offsetAt (tokens source) i)).1 := by
  have houtput := output_of_relocate h
  refine ⟨?_, ?_⟩
  · have hend := count_lf_outBefore options (Nat.le_refl (tokens source).length)
    rwa [outBefore_length, textBefore_length, ← houtput] at hend
  · intro i t ht hk hr
    have hout : r.output = outBefore options source i ++ outFrom options source i := by
      rw [houtput, outBefore_append]
    have htext : source = textBefore (tokens source) i ++ textFrom (tokens source) i :=
      (textBefore_append source i).symm
    have hlt := (List.getElem?_eq_some_iff.1 ht).1
    have hcount := count_lf_outBefore options (Nat.le_of_lt hlt)
    refine ⟨?_, ?_, hcount, ?_⟩
    · refine ⟨(planOf options source).insertion i ++ outFrom options source (i + 1), ?_⟩
      rw [hout, outFrom_cons ht, piece_of_solid ht hk hr]
      simp only [List.append_assoc]
    · refine ⟨textFrom (tokens source) (i + 1), ?_⟩
      conv => lhs; rw [htext]
      rw [textFrom_cons ht, List.append_assoc]
    · have hline := lineColumn_append (textBefore (tokens source) i) (textFrom (tokens source) i)
      rw [← htext] at hline
      rw [hout, lineColumn_append, hcount]
      exact hline.symm

end

/-- Two qualifiers of one group that stand on lines of their own. -/
theorem relocate_keeps_lines_apart :
    ∃ r, relocate {} "x;\r\n  const\nvolatile int y;".toList = .ok r ∧
      r.output = "x;\r\n\nint const volatile y;".toList ∧
      r.output.count '\n' = 2 ∧
      (lineColumn r.output (Utf8.byteLength
        (outBefore {} "x;\r\n  const\nvolatile int y;".toList 7))).1 = 2 := by
  obtain ⟨heval, htoken, hkept, hplace⟩ :
      (relocate {} "x;\r\n  const\nvolatile int y;".toList).toOption.map Relocated.output =
          some "x;\r\n\nint const volatile y;".toList ∧
        (tokens "x;\r\n  const\nvolatile int y;".toList)[7]? = some ⟨.keyword, ['i', 'n', 't']⟩ ∧
        (planOf {} "x;\r\n  const\nvolatile int y;".toList).removes 7 = false ∧
        (lineColumn "x;\r\n  const\nvolatile int y;".toList
          (offsetAt (tokens "x;\r\n  const\nvolatile int y;".toList) 7)).1 = 2 := by decide +kernel
  obtain ⟨r, hrel, hout⟩ := exists_relocated heval
  obtain ⟨hcount, htokens⟩ := relocate_keeps_lines hrel
  obtain ⟨-, -, -, hline⟩ := htokens 7 _ htoken (by decide) hkept
  exact ⟨r, hrel, hout, hcount, hline.trans hplace⟩

end EastConst
