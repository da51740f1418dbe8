import EastConst.Proofs.Failure
import EastConst.Proofs.Plan.Lines

/-!
# What can be seen

Of white space, the only character that can be seen is the backslash. One that continues a line
stays, since a plan keeps every line break and what is before it. One that ends a run of blanks and
continues no line is lost when the run is dropped or cut back (`swallowed`). No other character that
can be seen is lost or made.
-/

namespace EastConst

/-- Whether a character is neither white space nor the byte order mark. -/
def isVisible (c : Char) : Bool :=
  !isBlank c && c != '\uFEFF'

/-- Whether the plan of a source changes the white space at an index, and a backslash ends it. -/
def swallows (options : Options) (source : List Char) (k : Nat) : Bool :=
  (planOf options source).spaces.contains k &&
    (tokens source)[k]?.any fun t => t.kind == .whitespace && t.text.getLast? == some '\\'

/-- The indices of the white space that loses a backslash. -/
def swallowed (options : Options) (source : List Char) : List Nat :=
  (List.range (tokens source).length).filter (swallows options source)

variable {c : Char}

theorem not_isSpace_of_isVisible (hc : isVisible c = true) : Lexeme.Space.isSpace c = false := by
  apply Bool.eq_false_iff.2
  intro hs
  simp only [Lexeme.Space.isSpace, Bool.or_eq_true, beq_iff_eq] at hs
  rcases hs with (((((rfl | rfl) | rfl) | rfl) | rfl) | rfl) | rfl <;> exact absurd hc (by decide)

theorem count_space (hc : isVisible c = true) : [' '].count c = 0 := by
  apply List.count_eq_zero_of_not_mem
  intro hmem
  obtain rfl := List.mem_singleton.1 hmem
  cases not_isSpace_of_isVisible hc

/-! ## Backslashes in white space -/

/-- In a run, a backslash continues a line. -/
theorem Lexeme.Space.lf_of_backslash {w rest : List Char} (h : IsRun w) (hs : '\\' :: rest <:+ w) :
    '\n' ∈ rest := by
  unfold IsRun at h
  fun_induction runLength w with
  | case1 text ih =>
    rcases List.suffix_cons_iff.1 hs with heq | hs
    · obtain ⟨-, rfl⟩ := List.cons.inj heq
      exact List.mem_cons_self
    · rcases List.suffix_cons_iff.1 hs with heq | hs
      · cases heq
      · exact ih (by simpa using h) hs
  | case2 text ih =>
    rcases List.suffix_cons_iff.1 hs with heq | hs
    · obtain ⟨-, rfl⟩ := List.cons.inj heq
      exact List.mem_cons_of_mem _ List.mem_cons_self
    · rcases List.suffix_cons_iff.1 hs with heq | hs
      · cases heq
      · rcases List.suffix_cons_iff.1 hs with heq | hs
        · cases heq
        · exact ih (by simpa using h) hs
  | case3 d text _ _ hd ih =>
    rcases List.suffix_cons_iff.1 hs with heq | hs
    · obtain ⟨rfl, -⟩ := List.cons.inj heq
      cases hd
    · exact ih (by simpa using h) hs
  | case4 => simp at h
  | case5 => cases List.suffix_nil.1 hs

/-- Cutting whitespace back to its last line break loses no visible character. -/
theorem count_throughLastLine_of_isRun (hc : isVisible c = true) {w : List Char}
    (hw : Lexeme.Space.IsRun w) : (Plan.throughLastLine w).count c = w.count c := by
  obtain ⟨gone, he, hnot, -⟩ := Plan.exists_gone w
  have hgone : c ∉ gone := by
    intro hmem
    have hmem' : c ∈ w := by
      rw [he]
      exact List.mem_append_right _ hmem
    rcases Lexeme.Space.mem_of_isRun hw hmem' with hs | rfl
    · rw [not_isSpace_of_isVisible hc] at hs
      cases hs
    · obtain ⟨a, b, rfl⟩ := List.append_of_mem hmem
      have hlf : '\n' ∈ b := by
        apply Lexeme.Space.lf_of_backslash hw
        rw [he]
        exact ⟨_, List.append_assoc _ _ _⟩
      exact hnot (List.mem_append_right _ (List.mem_cons_of_mem _ hlf))
  conv => rhs; rw [he, List.count_append, List.count_eq_zero_of_not_mem hgone]
  rfl

section

variable {options : Options} {source : List Char} {i : Nat} {t : Token}

/-- White space that is cut back loses the backslash that ends it, and nothing else. -/
theorem count_throughLastLine (hc : isVisible c = true) (ht : (tokens source)[i]? = some t)
    (hk : t.kind = .whitespace) :
    (Plan.throughLastLine t.text).count c +
      (if t.text.getLast? = some '\\' then ['\\'] else []).count c =
      t.text.count c := by
  obtain ⟨w, -, hw, ⟨he, -⟩ | ⟨he, -⟩⟩ := exists_run_of_whitespace ht hk
  · have hlast : w.getLast? ≠ some '\\' := by
      intro hlast
      obtain ⟨front, rfl⟩ := List.getLast?_eq_some_iff.1 hlast
      cases Lexeme.Space.lf_of_backslash hw ⟨front, rfl⟩
    rw [he, if_neg hlast, count_throughLastLine_of_isRun hc hw]
    rfl
  · rw [he, throughLastLine_append_backslash, if_pos List.getLast?_concat, List.count_append,
      count_throughLastLine_of_isRun hc hw]

/-! ## One token -/

/-- What is put in has the visible characters of its qualifiers. -/
theorem Plan.count_insertion (hc : isVisible c = true) (plan : Plan) (i : Nat) :
    (plan.insertion i).count c =
      ((plan.moves.filter (·.anchor == i)).flatMap (·.qualifier.text)).count c := by
  have hspace : ∀ ms : List Move, (ms.flatMap fun m => ' ' :: m.qualifier.text).count c =
      (ms.flatMap (·.qualifier.text)).count c := by
    intro ms
    induction ms with
    | nil => rfl
    | cons m ms ih =>
      rw [List.flatMap_cons, List.flatMap_cons, List.count_append, List.count_append, ih,
        ← List.singleton_append, List.count_append, count_space hc, Nat.zero_add]
  unfold insertion
  dsimp only
  split
  · rename_i hnil
    rw [List.isEmpty_iff.1 hnil]
    rfl
  · rw [List.count_append, hspace]
    split
    · rw [count_space hc, Nat.add_zero]
    · rfl

theorem filter_swallows {x : List Char} (hx : (planOf options source).spaces.get? i = some x)
    (ht : (tokens source)[i]? = some t) (hk : t.kind = .whitespace) :
    ([i].filter (swallows options source)).map (fun _ => '\\') =
      if t.text.getLast? = some '\\' then ['\\'] else [] := by
  have hs : (planOf options source).spaces.contains i = true := by
    rw [IndexMap.contains_eq_isSome_get?, hx]
    rfl
  by_cases hlast : t.text.getLast? = some '\\' <;> simp [swallows, hs, ht, hk, hlast]

/-- Replaced whitespace loses no visible character but a backslash that it swallows. -/
theorem count_piece_of_whitespace (hc : isVisible c = true) (options : Options)
    (ht : (tokens source)[i]? = some t) (hk : t.kind = .whitespace) :
    ((planOf options source).piece t i).count c +
      (([i].filter (swallows options source)).map fun _ => '\\').count c = t.text.count c := by
  rcases piece_of_whitespace options ht hk with ⟨hp, hx⟩ | ⟨hp, hx, hs, -⟩ | ⟨hp, hx, -⟩
  · have hnot : swallows options source i = false := by
      simp [swallows, IndexMap.contains_eq_isSome_get?, hx]
    rw [hp, List.filter_cons_of_neg (by simp [hnot])]
    rfl
  · -- white space without a line break is cut back to nothing
    have hlf : '\n' ∉ t.text := by simpa [Token.isHorizontalSpace, hk] using hs
    rw [hp, ← Plan.throughLastLine_of_not_mem hlf, filter_swallows hx ht hk,
      count_throughLastLine hc ht hk]
  · rw [hp, filter_swallows hx ht hk, count_throughLastLine hc ht hk]

/-- The step lemma: what is written for a token, the qualifier that goes from there and the
backslash that is lost there make up the token and the qualifiers that are put in after it. -/
theorem count_piece (hc : isVisible c = true) (options : Options)
    (ht : (tokens source)[i]? = some t) :
    ((planOf options source).piece t i).count c +
        (((planOf options source).moves.filter (·.index == i)).flatMap (·.qualifier.text)).count c +
        (([i].filter (swallows options source)).map fun _ => '\\').count c =
      t.text.count c +
        (((planOf options source).moves.filter (·.anchor == i)).flatMap (·.qualifier.text)).count
          c := by
  by_cases hk : t.kind = .whitespace
  · have hr := removes_of_kind options ht (by simp [hk])
    rw [Plan.filter_index_eq_nil hr, filter_anchor_eq_nil ht (endsType_of_whitespace hk),
      List.flatMap_nil, List.count_nil, Nat.add_zero, Nat.add_zero,
      count_piece_of_whitespace hc options ht hk]
  · have hnot : swallows options source i = false := by simp [swallows, ht, hk]
    rw [List.filter_cons_of_neg (by simp [hnot]), List.filter_nil, List.map_nil, List.count_nil,
      Nat.add_zero]
    cases hr : (planOf options source).removes i with
    | false =>
      rw [piece_of_solid ht hk hr, List.count_append, Plan.count_insertion hc,
        Plan.filter_index_eq_nil hr]
      rfl
    | true =>
      obtain ⟨move, hmove, hq⟩ := exists_move_of_removes hr ht
      rw [hmove, filter_anchor_eq_nil ht (kind_of_removes hr ht).2, List.flatMap_singleton,
        Token.text_of_qualifier hq, List.flatMap_nil, List.count_nil]
      rcases piece_of_removes ht hr with ⟨hp, -⟩ | ⟨hp, -⟩
      · rw [hp, List.count_nil, Nat.zero_add, Nat.add_zero]
      · rw [hp, count_space hc, Nat.zero_add, Nat.add_zero]

/-! ## All tokens -/

/-- The texts of the qualifiers of moves whose key is below an index. -/
def movedBelow (ms : List Move) (key : Move → Nat) (i : Nat) : List Char :=
  (ms.filter (key · < i)).flatMap (·.qualifier.text)

theorem count_movedBelow_succ (ms : List Move) (key : Move → Nat) (i : Nat) :
    (movedBelow ms key (i + 1)).count c = (movedBelow ms key i).count c +
      ((ms.filter (key · == i)).flatMap (·.qualifier.text)).count c := by
  unfold movedBelow
  induction ms with
  | nil => rfl
  | cons m ms ih =>
    simp only [List.filter_cons, decide_eq_true_eq, beq_iff_eq]
    rcases Nat.lt_trichotomy (key m) i with h | h | h
    · rw [if_pos (by omega), if_pos h, if_neg (by omega), List.flatMap_cons, List.flatMap_cons,
        List.count_append, List.count_append, ih]
      omega
    · rw [if_pos (by omega), if_neg (by omega), if_pos h, List.flatMap_cons, List.flatMap_cons,
        List.count_append, List.count_append, ih]
      omega
    · rw [if_neg (by omega), if_neg (by omega), if_neg (by omega), ih]

theorem movedBelow_of_lt {ms : List Move} {key : Move → Nat} (h : ∀ m ∈ ms, key m < i) :
    movedBelow ms key i = ms.flatMap (·.qualifier.text) := by
  rw [movedBelow, List.filter_eq_self.2]
  intro m hm
  exact decide_eq_true (h m hm)

/-- The run lemma: up to every token, what is written, the qualifiers that go and the backslashes
that are lost make up the source and the qualifiers that are put in. -/
theorem count_outBefore (hc : isVisible c = true) (options : Options)
    (hi : i ≤ (tokens source).length) :
    (outBefore options source i).count c +
        (movedBelow (planOf options source).moves (·.index) i).count c +
        (((List.range i).filter (swallows options source)).map fun _ => '\\').count c =
      (textBefore (tokens source) i).count c +
        (movedBelow (planOf options source).moves (·.anchor) i).count c := by
  induction i with
  | zero => simp [outBefore, textBefore, movedBelow]
  | succ i ih =>
    have ht := List.getElem?_eq_getElem (Nat.lt_of_succ_le hi)
    have hstep := count_piece hc options ht
    have hrun := ih (Nat.le_of_succ_le hi)
    rw [outBefore_succ options ht, textBefore_succ ht, List.count_append, List.count_append,
      count_movedBelow_succ, count_movedBelow_succ, List.range_succ, List.filter_append,
      List.map_append, List.count_append]
    omega

/-- The output has the visible characters of the source, less the backslashes that are swallowed. -/
theorem count_output (hc : isVisible c = true) (options : Options) (source : List Char) :
    (outFrom options source 0).count c +
        (if c = '\\' then (swallowed options source).length else 0) = source.count c := by
  have hrun := count_outBefore hc options (Nat.le_refl (tokens source).length)
  rw [outBefore_length, textBefore_length, movedBelow_of_lt (index_lt_length options source),
    movedBelow_of_lt (anchor_lt_length options source), List.map_const',
    List.count_replicate] at hrun
  simp only [beq_iff_eq, eq_comm (a := '\\')] at hrun
  rw [swallowed]
  omega

/-- Of the characters that can be seen, a relocation has as many as its source, except for the
backslashes that are lost with white space; so that it has as many of all of them exactly if none is
lost so. -/
theorem count_visible_relocated {r : Relocated} (h : relocate options source = .ok r) :
    (∀ c, isVisible c = true →
      r.output.count c + (if c = '\\' then (swallowed options source).length else 0) =
        source.count c) ∧
    ((∀ c, isVisible c = true → r.output.count c = source.count c) ↔
      swallowed options source = []) := by
  rw [output_of_relocate h]
  refine ⟨fun c hc => count_output hc options source, fun hall => ?_, fun hnil c hc => ?_⟩
  · have hcount := count_output (c := '\\') (by decide) options source
    rw [hall '\\' (by decide), if_pos rfl] at hcount
    exact List.length_eq_zero_iff.1 (by omega)
  · have hcount := count_output hc options source
    rw [hnil] at hcount
    simpa using hcount

end

/-- The backslash of a continued line, and one in a comment, are kept. -/
theorem count_visible_continued :
    ∃ r, relocate {} "const \\\nint y; // \\".toList = .ok r ∧
      swallowed {} "const \\\nint y; // \\".toList = [] ∧
      ∀ c, isVisible c = true → r.output.count c = "const \\\nint y; // \\".toList.count c := by
  obtain ⟨hout, hnil⟩ :
      (relocate {} "const \\\nint y; // \\".toList).toOption.map Relocated.output =
          some " \\\nint const y; // \\".toList ∧
        swallowed {} "const \\\nint y; // \\".toList = [] := by decide +kernel
  obtain ⟨r, hrel, -⟩ := exists_relocated hout
  exact ⟨r, hrel, hnil, (count_visible_relocated hrel).2.2 hnil⟩

/-- A backslash that ends the white space after a qualifier is lost when the qualifier goes. -/
theorem count_backslash_swallowed :
    ∃ r, relocate {} "const \\int x;".toList = .ok r ∧ isVisible '\\' = true ∧
      r.output.count '\\' ≠ "const \\int x;".toList.count '\\' := by
  have hout : (relocate {} "const \\int x;".toList).toOption.map Relocated.output =
      some "int const x;".toList := by decide +kernel
  obtain ⟨r, hrel, hr⟩ := exists_relocated hout
  refine ⟨r, hrel, by decide, ?_⟩
  rw [hr]
  decide

end EastConst
