import EastConst.Proofs.Plan.Settled
import EastConst.Proofs.Token.Reading
import EastConst.Relocation

/-!
# What a plan writes

`outFrom` is what the plan of a source writes from a token on. The lemmas say what is written for
each kind of token (`piece_of_solid`, `piece_of_removes`, `piece_of_whitespace`) and how the text
after it starts: softly between a qualifier that goes and its type (`startsSoft_of_mem`), with a
blank at whitespace (`startsBlank_of_whitespace`), with the same line break as before
(`lineBreak?_outFrom`).
-/

namespace EastConst

open Lexeme (breaksLine lineBreak? isWordChar)

/-! ## Texts up to their last line break -/

namespace Plan

theorem throughLastLine_append (a b : List Char) :
    throughLastLine (a ++ '\n' :: b) = a ++ '\n' :: throughLastLine b := by
  unfold throughLastLine
  rw [List.reverse_append, List.reverse_cons, List.append_assoc, List.dropWhile_append]
  split
  · rename_i h
    rw [List.isEmpty_iff] at h
    simp [h]
  · simp

theorem throughLastLine_of_not_mem {t : List Char} (h : '\n' ∉ t) : throughLastLine t = [] := by
  have hall : ∀ c ∈ t.reverse, (c != '\n') = true := by
    intro c hc
    have : c ≠ '\n' := by
      rintro rfl
      exact h (List.mem_reverse.1 hc)
    simpa using this
  have hdrop : (t.reverse ++ []).dropWhile (· != '\n') = _ := List.dropWhile_append_of_pos hall
  rw [List.append_nil, List.dropWhile_nil] at hdrop
  rw [throughLastLine, hdrop, List.reverse_nil]

/-- A text with a line break has a last one. -/
theorem exists_last_line {text : List Char} (h : '\n' ∈ text) :
    ∃ head tail, text = head ++ '\n' :: tail ∧ '\n' ∉ tail := by
  obtain ⟨tail, head, hrev, hnot⟩ := List.eq_append_cons_of_mem (List.mem_reverse.2 h)
  refine ⟨head.reverse, tail.reverse, ?_, fun hmem => hnot (List.mem_reverse.1 hmem)⟩
  have htext := congrArg List.reverse hrev
  rw [List.reverse_reverse] at htext
  rw [htext]
  simp

theorem throughLastLine_eq {head tail : List Char} (h : '\n' ∉ tail) :
    throughLastLine (head ++ '\n' :: tail) = head ++ ['\n'] := by
  rw [throughLastLine_append, throughLastLine_of_not_mem h]

/-- What is cut off after the last line break has none, and what is kept ends with it. -/
theorem exists_gone (text : List Char) :
    ∃ gone, text = throughLastLine text ++ gone ∧ '\n' ∉ gone ∧
      (throughLastLine text = [] ∨ (throughLastLine text).getLast? = some '\n') := by
  by_cases h : '\n' ∈ text
  · obtain ⟨head, tail, rfl, hnot⟩ := exists_last_line h
    rw [throughLastLine_eq hnot]
    exact ⟨tail, by simp, hnot, .inr (by simp)⟩
  · rw [throughLastLine_of_not_mem h]
    exact ⟨text, rfl, h, .inl rfl⟩

theorem throughLastLine_isPrefix (t : List Char) : throughLastLine t <+: t := by
  have := List.reverse_prefix.2 (List.dropWhile_suffix (l := t.reverse) (· != '\n'))
  rwa [List.reverse_reverse] at this

theorem throughLastLine_cons {c : Char} (hc : c ≠ '\n') (t : List Char) :
    throughLastLine (c :: t) = if '\n' ∈ t then c :: throughLastLine t else [] := by
  split
  · rename_i h
    obtain ⟨a, b, rfl⟩ := List.append_of_mem h
    rw [← List.cons_append, throughLastLine_append, throughLastLine_append, List.cons_append]
  · rename_i h
    refine throughLastLine_of_not_mem fun hmem => ?_
    rcases List.mem_cons.1 hmem with he | hmem
    · exact hc he.symm
    · exact h hmem

/-- A run of whitespace cut back to its last line break is a run. -/
theorem isRun_throughLastLine {w : List Char} (h : Lexeme.Space.IsRun w) :
    Lexeme.Space.IsRun (throughLastLine w) := by
  unfold Lexeme.Space.IsRun at h ⊢
  fun_induction Lexeme.Space.runLength w with
  | case1 text ih =>
    have := throughLastLine_append ['\\'] text
    rw [List.singleton_append, List.singleton_append] at this
    rw [this]
    simp [Lexeme.Space.runLength, ih (by simpa using h)]
  | case2 text ih =>
    have := throughLastLine_append ['\\', '\r'] text
    simp only [List.cons_append, List.nil_append] at this
    rw [this]
    simp [Lexeme.Space.runLength, ih (by simpa using h)]
  | case3 c text h1 h2 hc ih =>
    have hb : c ≠ '\\' := by rintro rfl; revert hc; decide
    have hi := ih (by simpa using h)
    by_cases hn : c = '\n'
    · subst hn
      have := throughLastLine_append [] text
      rw [List.nil_append, List.nil_append] at this
      rw [this]
      simp [Lexeme.Space.runLength, hc, hi]
    · rw [throughLastLine_cons hn]
      split
      · simp [Lexeme.Space.runLength, hb, hc, hi]
      · rfl
  | case4 c text h1 h2 hc => simp at h
  | case5 => rfl

end Plan

/-! ## The pieces of a plan -/

theorem Token.text_of_scope {t : Token} (h : t.isMark .scope = true) : t.text = [':', ':'] := by
  rw [Token.isMark, beq_iff_eq, Token.mark?] at h
  split at h
  · unfold Mark.ofText? at h
    split at h <;> cases h
    assumption
  · cases h

theorem Token.text_of_qualifier {t : Token} {q : Qualifier} (h : Qualifier.ofToken? t = some q) :
    t.text = q.text := by
  rw [Qualifier.ofToken?, if_pos (Token.kind_of_qualifier h), Qualifier.ofText?] at h
  split at h
  · obtain rfl := Option.some.inj h
    assumption
  · split at h
    · obtain rfl := Option.some.inj h
      assumption
    · cases h

theorem Token.endsType_of_qualifier {t : Token} {q : Qualifier}
    (h : Qualifier.ofToken? t = some q) : t.endsType = false := by
  have hb : Vocabulary.isBuiltinType q.text = false := by cases q <;> decide
  have hk := Token.kind_of_qualifier h
  simp [Token.endsType, Token.isBuiltinType, Token.isMark, Token.mark?,
    Token.text_of_qualifier h, hb, hk]

/-- The plan of a source. -/
abbrev planOf (options : Options) (source : List Char) : Plan :=
  Plan.ofTokens options (tokens source)

/-- What is written for the tokens of a source from an index on. -/
def outFrom (options : Options) (source : List Char) (index : Nat) : List Char :=
  (((planOf options source).pieces (tokens source)).drop index).flatten

section

variable {options : Options} {source : List Char} {i m : Nat} {t : Token}

theorem outFrom_cons (ht : (tokens source)[i]? = some t) :
    outFrom options source i =
      (planOf options source).piece t i ++ outFrom options source (i + 1) := by
  obtain ⟨hlt, rfl⟩ := List.getElem?_eq_some_iff.1 ht
  have hlen : i < ((planOf options source).pieces (tokens source)).length := by
    simpa [Plan.pieces] using hlt
  rw [outFrom, List.drop_eq_getElem_cons hlen, List.flatten_cons, outFrom]
  simp [Plan.pieces]

theorem outFrom_of_le (h : (tokens source).length ≤ i) : outFrom options source i = [] := by
  rw [outFrom, List.drop_of_length_le (by simpa [Plan.pieces] using h), List.flatten_nil]

/-- A token that goes is a member of a group that moves. -/
theorem exists_group_of_removes (hm : (planOf options source).removes m = true) :
    ∃ e ∈ movable options (tokens source),
      m ∈ e.1.members ∧ e.1.Moves options (tokens source) e.2 := by
  obtain ⟨e, he, hmem⟩ := (Plan.ofTokens_removes_iff (tokens_terminated source)).1 hm
  exact ⟨e, he, hmem, mem_movable (tokens_terminated source) he⟩

theorem kind_of_removes (hm : (planOf options source).removes m = true)
    (ht : (tokens source)[m]? = some t) : t.kind = .keyword ∧ t.endsType = false := by
  obtain ⟨e, -, hmem, he⟩ := exists_group_of_removes hm
  obtain ⟨u, q, hu, hq⟩ := (he.member m hmem).2
  obtain rfl := Option.some.inj (ht.symm.trans hu)
  exact ⟨Token.kind_of_qualifier hq, Token.endsType_of_qualifier hq⟩

theorem removes_of_kind (options : Options) (ht : (tokens source)[m]? = some t)
    (hk : t.kind ≠ .keyword) :
    (planOf options source).removes m = false :=
  Bool.eq_false_iff.2 fun hr => hk (kind_of_removes hr ht).1

/-- A move of the plan takes a member of a group that moves to the group's anchor. -/
theorem exists_group_of_move {move : Move} (hm : move ∈ (planOf options source).moves) :
    ∃ e ∈ movable options (tokens source), e.1.Moves options (tokens source) e.2 ∧
      move.index ∈ e.1.members ∧ move.anchor = e.2 ∧
      (tokens source)[move.index]?.bind Qualifier.ofToken? = some move.qualifier := by
  rw [planOf, Plan.ofTokens_moves, List.mem_flatMap] at hm
  obtain ⟨e, he, hm⟩ := hm
  exact ⟨e, he, mem_movable (tokens_terminated source) he, Plan.mem_movesTo.1 hm⟩

/-- Only anchors are padded. -/
theorem exists_move_of_padded {k : Nat} (h : (planOf options source).padded.contains k = true) :
    ∃ m ∈ (planOf options source).moves, m.anchor = k := by
  obtain ⟨⟨e, he, rfl⟩, -⟩ := Plan.ofTokens_padded_iff.1 h
  have hmoves := mem_movable (tokens_terminated source) he
  obtain ⟨i, hi⟩ := List.exists_mem_of_ne_nil _ hmoves.nonempty
  obtain ⟨m, hm, -⟩ := (Plan.removes_movesTo fun i hi => (hmoves.member i hi).2).2 hi
  refine ⟨m, ?_, (Plan.mem_movesTo.1 hm).2.1⟩
  rw [planOf, Plan.ofTokens_moves]
  exact List.mem_flatMap.2 ⟨e, he, hm⟩

/-- One move takes a token away, and the token is its qualifier. -/
theorem exists_move_of_removes (hr : (planOf options source).removes m = true)
    (ht : (tokens source)[m]? = some t) :
    ∃ move, (planOf options source).moves.filter (·.index == m) = [move] ∧
      Qualifier.ofToken? t = some move.qualifier := by
  obtain ⟨move, hm, rfl⟩ := Plan.removes_iff.1 hr
  obtain ⟨-, -, -, -, -, hq⟩ := exists_group_of_move hm
  rw [ht, Option.bind_some] at hq
  exact ⟨move, Plan.filter_key_eq (Plan.ofTokens_moves_pairwise (tokens_terminated source)) hm, hq⟩

theorem index_lt_length (options : Options) (source : List Char) :
    ∀ m ∈ (planOf options source).moves, m.index < (tokens source).length := by
  intro m hm
  obtain ⟨-, -, -, -, -, hq⟩ := exists_group_of_move hm
  obtain ⟨u, hu, -⟩ := Option.bind_eq_some_iff.1 hq
  exact (List.getElem?_eq_some_iff.1 hu).1

theorem anchor_lt_length (options : Options) (source : List Char) :
    ∀ m ∈ (planOf options source).moves, m.anchor < (tokens source).length := by
  intro m hm
  obtain ⟨e, -, he, -, hanchor, -⟩ := exists_group_of_move hm
  obtain ⟨-, -, u, hu, -⟩ := he.anchored
  rw [hanchor]
  exact (List.getElem?_eq_some_iff.1 hu).1

theorem index_lt_anchor {move : Move} (hm : move ∈ (planOf options source).moves) :
    move.index < move.anchor := by
  obtain ⟨e, -, he, hmem, hanchor, -⟩ := exists_group_of_move hm
  have hlt := (he.member _ hmem).1
  have hle := he.anchored.1
  omega

/-- Qualifiers are written only after tokens that may end a type. -/
theorem filter_anchor_eq_nil (ht : (tokens source)[i]? = some t) (he : t.endsType = false) :
    (planOf options source).moves.filter (·.anchor == i) = [] := by
  refine List.filter_eq_nil_iff.2 fun m hm ha => ?_
  obtain ⟨e, -, hmoves, -, hanchor, -⟩ := exists_group_of_move hm
  obtain ⟨-, -, u, hu, hend⟩ := hmoves.anchored
  rw [← hanchor, beq_iff_eq.1 ha, ht] at hu
  obtain rfl := Option.some.inj hu
  simp [he] at hend

/-- Nothing is put in behind a token that ends no type. -/
theorem insertion_eq_nil (ht : (tokens source)[i]? = some t) (he : t.endsType = false) :
    (planOf options source).insertion i = [] := by
  simp [Plan.insertion, filter_anchor_eq_nil ht he]

/-- Nothing is put in before the first qualifier that goes. -/
theorem insertion_eq_nil_of_lt {first : Nat}
    (hfirst : ∀ k, (planOf options source).removes k = true → first ≤ k) (hi : i ≤ first) :
    (planOf options source).insertion i = [] := by
  have hnone : (planOf options source).moves.filter (·.anchor == i) = [] := by
    refine List.filter_eq_nil_iff.2 fun m hm ha => ?_
    have hle := hfirst m.index (Plan.removes_iff.2 ⟨m, hm, rfl⟩)
    have hlt := index_lt_anchor hm
    rw [beq_iff_eq] at ha
    omega
  simp [Plan.insertion, hnone]

/-- Only whitespace and qualifiers that go are replaced. -/
theorem spaces_eq_none (ht : (tokens source)[i]? = some t) (hk : t.kind ≠ .whitespace)
    (hr : (planOf options source).removes i = false) :
    (planOf options source).spaces.get? i = none := by
  cases hx : (planOf options source).spaces.get? i with
  | none => rfl
  | some x =>
    cases (Plan.ofTokens_settled (tokens_terminated source) 0).shape i x hx with
    | drop _ hu hs =>
      obtain rfl := Option.some.inj (ht.symm.trans hu)
      exact absurd (Token.kind_of_isHorizontalSpace hs) hk
    | trim _ hu hku =>
      obtain rfl := Option.some.inj (ht.symm.trans hu)
      exact absurd hku hk
    | keep hm => simp [hr] at hm

/-- A token that stays is written as it is, with what is put in behind it. -/
theorem piece_of_solid (ht : (tokens source)[i]? = some t) (hk : t.kind ≠ .whitespace)
    (hr : (planOf options source).removes i = false) :
    (planOf options source).piece t i = t.text ++ (planOf options source).insertion i := by
  simp [Plan.piece, hr, spaces_eq_none ht hk hr]

/-- For a qualifier that goes nothing is written, or one space. -/
theorem piece_of_removes (ht : (tokens source)[m]? = some t)
    (hr : (planOf options source).removes m = true) :
    ((planOf options source).piece t m = [] ∧ (planOf options source).spaces.get? m = none) ∨
      ((planOf options source).piece t m = [' '] ∧
        (planOf options source).spaces.get? m = some [' ']) := by
  have hk := (kind_of_removes hr ht).1
  cases hx : (planOf options source).spaces.get? m with
  | none => exact .inl ⟨by simp [Plan.piece, hr, hx], rfl⟩
  | some x =>
    cases (Plan.ofTokens_settled (tokens_terminated source) 0).shape m x hx with
    | drop _ hu hs =>
      obtain rfl := Option.some.inj (ht.symm.trans hu)
      simp [Token.kind_of_isHorizontalSpace hs] at hk
    | trim _ hu hku =>
      obtain rfl := Option.some.inj (ht.symm.trans hu)
      simp [hku] at hk
    | keep => exact .inr ⟨by simp [Plan.piece, hr, hx], rfl⟩

theorem endsType_of_kind (hw : t.isWord = false) (hp : t.kind ≠ .punctuation) :
    t.endsType = false := by
  have hid : t.kind ≠ .identifier := by rintro h; simp [Token.isWord, h] at hw
  simp [Token.endsType, Token.isBuiltinType, Token.isMark, Token.mark?, hid, hw, hp]

theorem endsType_of_isSignificant (h : t.isSignificant = false) : t.endsType = false := by
  cases hk : t.kind <;> simp [Token.isSignificant, Token.isTrivia, hk] at h
  all_goals exact endsType_of_kind (by simp [Token.isWord, hk]) (by simp [hk])

theorem endsType_of_whitespace (hk : t.kind = .whitespace) : t.endsType = false :=
  endsType_of_kind (by simp [Token.isWord, hk]) (by simp [hk])

/-- Whitespace is written as it is, or dropped after a qualifier that goes, or cut back to its last
line break before a qualifier that goes. -/
theorem piece_of_whitespace (options : Options) (ht : (tokens source)[i]? = some t)
    (hk : t.kind = .whitespace) :
    ((planOf options source).piece t i = t.text ∧ (planOf options source).spaces.get? i = none) ∨
      ((planOf options source).piece t i = [] ∧ (planOf options source).spaces.get? i = some [] ∧
        t.isHorizontalSpace = true ∧ ∃ m, i = m + 1 ∧ (planOf options source).removes m = true) ∨
      ((planOf options source).piece t i = Plan.throughLastLine t.text ∧
        (planOf options source).spaces.get? i = some (Plan.throughLastLine t.text) ∧
        (planOf options source).removes (i + 1) = true ∧ ∃ u, (tokens source)[i + 2]? = some u ∧
          u.kind = .whitespace ∧ u.isHorizontalSpace = false) := by
  have hr := removes_of_kind options ht (by simp [hk])
  have hins : (planOf options source).insertion i = [] :=
    insertion_eq_nil ht (endsType_of_whitespace hk)
  cases hx : (planOf options source).spaces.get? i with
  | none => exact .inl ⟨by simp [Plan.piece, hr, hx, hins], rfl⟩
  | some x =>
    have hpiece : (planOf options source).piece t i = x := by simp [Plan.piece, hr, hx, hins]
    cases (Plan.ofTokens_settled (tokens_terminated source) 0).shape i x hx with
    | drop hm hu hs =>
      obtain rfl := Option.some.inj (ht.symm.trans hu)
      exact .inr (.inl ⟨hpiece, rfl, hs, _, rfl, hm⟩)
    | trim hm hu _ _ hv hkv hsv =>
      obtain rfl := Option.some.inj (ht.symm.trans hu)
      exact .inr (.inr ⟨hpiece, rfl, hm, _, hv, hkv, hsv⟩)
    | keep hm => simp [hr] at hm

theorem exists_token (hi : i < (tokens source).length - 1) :
    ∃ t, (tokens source)[i]? = some t ∧ t.kind ≠ .endOfInput := by
  have ht := List.getElem?_eq_getElem (by omega : i < (tokens source).length)
  exact ⟨_, ht, (tokens_terminated source).kind_ne hi ht⟩

theorem getElem?_end (source : List Char) :
    (tokens source)[(tokens source).length - 1]? = some Token.endOfInput := by
  simp [tokens]

theorem removes_end (options : Options) (source : List Char) :
    (planOf options source).removes ((tokens source).length - 1) = false :=
  removes_of_kind options (getElem?_end source) (by decide)

theorem textFrom_of_end (hi : (tokens source).length - 1 ≤ i) :
    textFrom (tokens source) i = [] := by
  by_cases h : i = (tokens source).length - 1
  · rw [h, textFrom_cons (getElem?_end source), textFrom, List.drop_of_length_le (by omega)]
    rfl
  · rw [textFrom, List.drop_of_length_le (by omega)]
    rfl

theorem outFrom_of_end (hi : (tokens source).length - 1 ≤ i) : outFrom options source i = [] := by
  by_cases h : i = (tokens source).length - 1
  · have ht := getElem?_end source
    rw [h, outFrom_cons ht, piece_of_solid ht (by decide) (removes_end options source),
      insertion_eq_nil ht (by decide), outFrom_of_le (by omega)]
    rfl
  · exact outFrom_of_le (by omega)

theorem head_of_solid (ht : (tokens source)[i]? = some t) (hend : t.kind ≠ .endOfInput)
    (hk : t.kind ≠ .whitespace) :
    ∃ c u, t.text = c :: u ∧ Lexeme.Space.isSpace c = false ∧
      (c = '\\' → u = [] ∧ t.kind = .punctuation) := by
  obtain ⟨l, -, rfl, hl⟩ := exists_lexeme ht hend
  obtain ⟨c, u, hcu, hs, hb⟩ := hl.head_of_solid fun h => hk (Token.kindOf_eq_whitespace.2 h)
  refine ⟨c, u, hcu, hs, fun hc => ⟨(hb hc).1, ?_⟩⟩
  exact Token.kindOf_eq_punctuation.2 (.inr (hb hc).2.1)

/-! ## How what is written starts -/

/-- A text that starts with a blank or a continuation. -/
def StartsBlank (x : List Char) : Prop :=
  ∃ c u, x = c :: u ∧ (Lexeme.Space.isSpace c = true ∨ c = '\\' ∧ breaksLine u = true)

/-- A text that starts like what may stand between a qualifier and its type, or like a type. -/
def StartsSoft (x : List Char) : Prop :=
  x = [] ∨ StartsBlank x ∨ ∃ c u, x = c :: u ∧ (isWordChar c = true ∨ c = '/' ∨ c = ':')

theorem breaksLine_append {u : List Char} (h : breaksLine u = true) (x : List Char) :
    breaksLine (u ++ x) = true := by
  unfold breaksLine at h
  split at h
  · rfl
  · rfl
  · cases h

/-- A run of whitespace starts with a blank, or with a backslash that continues the line. -/
theorem startsBlank_of_isRun {w : List Char} (hne : w ≠ []) (hw : Lexeme.Space.IsRun w)
    (x : List Char) : StartsBlank (w ++ x) := by
  obtain ⟨c, u, rfl⟩ := List.exists_cons_of_ne_nil hne
  refine ⟨c, u ++ x, rfl, ?_⟩
  have hrun : Lexeme.Space.runLength (c :: u) ≠ 0 := by rw [hw]; simp
  rw [Ne, Lexeme.Space.runLength_cons_eq_zero_iff] at hrun
  cases hs : Lexeme.Space.isSpace c with
  | true => exact .inl rfl
  | false =>
    refine .inr (Decidable.byContradiction fun hc => hrun ⟨hs, fun hb => ?_⟩)
    cases hu : breaksLine u with
    | false => rfl
    | true => exact absurd ⟨hb, breaksLine_append hu x⟩ hc

/-- Whitespace is a run that a backslash may follow. -/
theorem exists_run_of_whitespace (ht : (tokens source)[i]? = some t) (hk : t.kind = .whitespace) :
    ∃ w, w ≠ [] ∧ Lexeme.Space.IsRun w ∧
      (t.text = w ∧ Lexeme.Space.runLength (textFrom (tokens source) (i + 1)) = 0 ∧
          (textFrom (tokens source) (i + 1)).head? ≠ some '\\' ∨
        t.text = w ++ ['\\'] ∧ breaksLine (textFrom (tokens source) (i + 1)) = false) := by
  obtain ⟨l, -, rfl, hl⟩ := exists_lexeme ht (by simp [hk])
  rw [Token.kindOf_eq_whitespace.1 hk] at hl
  exact (Lexeme.reads_whitespace_iff.1 hl).2

theorem startsBlank_text (ht : (tokens source)[i]? = some t) (hk : t.kind = .whitespace)
    (x : List Char) : StartsBlank (t.text ++ x) := by
  obtain ⟨w, hne, hw, ⟨he, -⟩ | ⟨he, -⟩⟩ := exists_run_of_whitespace ht hk
  · rw [he]
    exact startsBlank_of_isRun hne hw x
  · rw [he, List.append_assoc]
    exact startsBlank_of_isRun hne hw _

/-- A backslash behind the last line break is cut off with the rest. -/
theorem throughLastLine_append_backslash (w : List Char) :
    Plan.throughLastLine (w ++ ['\\']) = Plan.throughLastLine w := by
  simp [Plan.throughLastLine]

theorem isRun_throughLastLine_text (ht : (tokens source)[i]? = some t) (hk : t.kind = .whitespace) :
    Lexeme.Space.IsRun (Plan.throughLastLine t.text) := by
  obtain ⟨w, -, hw, ⟨he, -⟩ | ⟨he, -⟩⟩ := exists_run_of_whitespace ht hk
  · rw [he]
    exact Plan.isRun_throughLastLine hw
  · rw [he, throughLastLine_append_backslash]
    exact Plan.isRun_throughLastLine hw

/-- Whitespace leaves nothing or something that starts with a blank. -/
theorem piece_whitespace_cases (options : Options) (ht : (tokens source)[i]? = some t)
    (hk : t.kind = .whitespace) :
    ((planOf options source).piece t i = [] ∧ (planOf options source).isGone i = true) ∨
      ∀ x, StartsBlank ((planOf options source).piece t i ++ x) := by
  rcases piece_of_whitespace options ht hk with ⟨hp, -⟩ | ⟨hp, hx, -⟩ | ⟨hp, hx, -⟩
  · rw [hp]
    exact .inr (startsBlank_text ht hk)
  · exact .inl ⟨hp, by simp [Plan.isGone, hx]⟩
  · by_cases hnil : Plan.throughLastLine t.text = []
    · exact .inl ⟨hp.trans hnil, by simp [Plan.isGone, hx, hnil]⟩
    · rw [hp]
      exact .inr (startsBlank_of_isRun hnil (isRun_throughLastLine_text ht hk))

/-- What leads in to a type leaves nothing, or starts with a blank, or is a word or a comment. -/
theorem piece_of_leadIn (ht : (tokens source)[i]? = some t) (hlead : t.isLeadIn options = true) :
    ((planOf options source).piece t i = [] ∧ (planOf options source).isGone i = true) ∨
      (∀ x, StartsBlank ((planOf options source).piece t i ++ x)) ∨
      (t.kind ≠ .whitespace ∧ (planOf options source).removes i = false ∧
        ∃ c u, t.text = c :: u ∧ (isWordChar c = true ∨ c = '/')) := by
  by_cases hk : t.kind = .whitespace
  · exact (piece_whitespace_cases options ht hk).imp_right .inl
  cases hr : (planOf options source).removes i with
  | true =>
    rcases piece_of_removes ht hr with ⟨hp, hx⟩ | ⟨hp, -⟩
    · exact .inl ⟨hp, by simp [Plan.isGone, hx, hr]⟩
    · exact .inr (.inl fun x => hp ▸ ⟨' ', x, rfl, .inl rfl⟩)
  | false =>
    refine .inr (.inr ⟨hk, rfl, ?_⟩)
    have hkind : t.kind = .comment ∨ t.isWord = true := by
      simp only [Token.isLeadIn, Bool.or_eq_true] at hlead
      rcases hlead with (h | h) | h
      · simp only [Token.isTrivia, Bool.or_eq_true, beq_iff_eq] at h
        exact .inl (h.resolve_left hk)
      · obtain ⟨q, hq⟩ := Option.isSome_iff_exists.1 h
        exact .inr (by simp [Token.isWord, Token.kind_of_qualifier hq])
      · unfold Token.isTypePrefix at h
        split at h <;> simp_all [Token.isWord]
    obtain ⟨l, -, rfl, hl⟩ := exists_lexeme ht (by rintro h; simp [Token.isWord, h] at hkind)
    rcases hkind with hc | hw
    · obtain ⟨u, hu⟩ := hl.head_of_comment (Token.kindOf_eq_comment.1 hc)
      exact ⟨'/', u, hu, .inr rfl⟩
    · rw [Token.isWord_ofLexeme.1 hw] at hl
      obtain ⟨c, u, hu, hc⟩ := hl.head_of_word
      exact ⟨c, u, hu, .inl hc⟩

/-- A property of indices that holds of a last one and goes down to a first one. -/
theorem descend {P : Nat → Prop} {first last : Nat} (hlast : P last)
    (hstep : ∀ k, first ≤ k → k < last → P (k + 1) → P k) {j : Nat} (hj : first ≤ j)
    (hj' : j ≤ last) : P j := by
  induction hd : last - j generalizing j with
  | zero =>
    obtain rfl : j = last := by omega
    exact hlast
  | succ d ih => exact hstep j hj (by omega) (ih (by omega) (by omega) (by omega))

section

variable {e : Group × Nat} (he : e.1.Moves options (tokens source) e.2) (hm : m ∈ e.1.members)

theorem Group.Moves.exists_token {e : Group × Nat} {tokens : List Token}
    (he : e.1.Moves options tokens e.2) {k : Nat} (hk : k < e.1.typeStart) :
    ∃ t, tokens[k]? = some t := by
  obtain ⟨u, hu, -⟩ := he.type
  have hlt := (List.getElem?_eq_some_iff.1 hu).1
  exact ⟨_, List.getElem?_eq_getElem (by omega)⟩

include he in
/-- A type starts with a word or a colon, which stays. -/
theorem piece_of_typeStart :
    ∃ t, (tokens source)[e.1.typeStart]? = some t ∧ t.kind ≠ .whitespace ∧
      (planOf options source).removes e.1.typeStart = false ∧
      ∃ c u, t.text = c :: u ∧ (isWordChar c = true ∨ c = ':') := by
  obtain ⟨t, ht, hstart, hlead⟩ := he.type
  have hkind : t.kind ≠ .whitespace := by
    rintro hk
    simp [Token.isLeadIn, Token.isTrivia, hk] at hlead
  refine ⟨t, ht, hkind, Bool.eq_false_iff.2 fun hr => ?_, ?_⟩
  · obtain ⟨e', -, hmem, he'⟩ := exists_group_of_removes hr
    obtain ⟨u, q, hu, hq⟩ := (he'.member _ hmem).2
    obtain rfl := Option.some.inj (ht.symm.trans hu)
    simp [Token.isLeadIn, hq] at hlead
  · rcases Bool.or_eq_true_iff.1 hstart with hw | hs
    · obtain ⟨l, -, rfl, hl⟩ := exists_lexeme ht (by rintro h; simp [Token.isWord, h] at hw)
      rw [Token.isWord_ofLexeme.1 hw] at hl
      obtain ⟨c, u, hu, hc⟩ := hl.head_of_word
      exact ⟨c, u, hu, .inl hc⟩
    · exact ⟨':', [':'], Token.text_of_scope hs, .inr rfl⟩

include he hm in
/-- After a qualifier that goes, and up to its type, what is written starts softly. -/
theorem startsSoft_of_mem {j : Nat} (hj : m ≤ j) (hj' : j ≤ e.1.typeStart) :
    StartsSoft (outFrom options source j) := by
  refine descend (P := fun j => StartsSoft (outFrom options source j)) ?_
    (fun k hk hk' ih => ?_) hj hj'
  · obtain ⟨t, ht, hk, hr, c, u, hu, hc⟩ := piece_of_typeStart he
    rw [outFrom_cons ht, piece_of_solid ht hk hr, hu]
    exact .inr (.inr ⟨c, _, rfl, hc.imp_right .inr⟩)
  · obtain ⟨t, ht⟩ := he.exists_token hk'
    rw [outFrom_cons ht]
    rcases piece_of_leadIn ht (he.isLeadIn hm hk hk' ht) with
      ⟨hp, -⟩ | hp | ⟨hk, hr, c, u, hu, hc⟩
    · rw [hp]
      exact ih
    · exact .inr (.inl (hp _))
    · rw [piece_of_solid ht hk hr, hu]
      exact .inr (.inr ⟨c, _, rfl, hc.imp_right .inl⟩)

end

/-! ## Line breaks -/

/-- Blanks before a qualifier at the end of its line do not hide the line break. -/
theorem startsBlank_of_removes_break (hr : (planOf options source).removes m = true) {u : Token}
    (hu : (tokens source)[m + 1]? = some u) (hku : u.kind = .whitespace)
    (hsu : u.isHorizontalSpace = false) : StartsBlank (outFrom options source m) := by
  obtain ⟨e, -, hmem, he⟩ := exists_group_of_removes hr
  obtain ⟨t, q, ht, -⟩ := (he.member m hmem).2
  have hlf : '\n' ∈ u.text := by simpa [Token.isHorizontalSpace, hku] using hsu
  rw [outFrom_cons ht, outFrom_cons hu]
  rcases piece_of_removes ht hr with ⟨hp, -⟩ | ⟨hp, -⟩
  · rw [hp, List.nil_append]
    rcases piece_of_whitespace options hu hku with ⟨hq, -⟩ | ⟨-, -, hs, -⟩ | ⟨hq, -⟩
    · rw [hq]
      exact startsBlank_text hu hku _
    · simp [hsu] at hs
    · rw [hq]
      refine startsBlank_of_isRun ?_ (isRun_throughLastLine_text hu hku) _
      obtain ⟨a, b, hab⟩ := List.append_of_mem hlf
      rw [hab, Plan.throughLastLine_append]
      simp
  · rw [hp]
    exact ⟨' ', _, rfl, .inl rfl⟩

/-- Whitespace that no qualifier before it takes along is seen as whitespace. -/
theorem startsBlank_of_whitespace (ht : (tokens source)[i]? = some t) (hk : t.kind = .whitespace)
    (hr : ∀ m, i = m + 1 → (planOf options source).removes m = false) :
    StartsBlank (outFrom options source i) := by
  rw [outFrom_cons ht]
  rcases piece_of_whitespace options ht hk with
    ⟨hp, -⟩ | ⟨-, -, -, m, him, hrm⟩ | ⟨hp, -, hr1, u, hu, hku, hsu⟩
  · rw [hp]
    exact startsBlank_text ht hk _
  · simp [hr m him] at hrm
  · rw [hp]
    by_cases hnil : Plan.throughLastLine t.text = []
    · rw [hnil]
      exact startsBlank_of_removes_break hr1 hu hku hsu
    · exact startsBlank_of_isRun hnil (isRun_throughLastLine_text ht hk) _

/-- A line break of a source is held by one whitespace token. -/
theorem lineBreak?_text {b : List Char} (ht : (tokens source)[i]? = some t)
    (hk : t.kind = .whitespace) (hb : lineBreak? (textFrom (tokens source) i) = some b) :
    ∃ a u, t.text = a ++ '\n' :: u ∧ ∀ x, lineBreak? (a ++ '\n' :: x) = some b := by
  rw [textFrom_cons ht] at hb
  obtain ⟨w, hne, hw, htext⟩ := exists_run_of_whitespace ht hk
  have hnil : t.text ≠ [] := by rcases htext with ⟨h, -⟩ | ⟨h, -⟩ <;> simp [h, hne]
  obtain ⟨c, v, hcv⟩ := List.exists_cons_of_ne_nil hnil
  rw [hcv, List.cons_append] at hb
  unfold lineBreak? at hb
  split at hb
  · rename_i heq
    cases heq
  · rename_i heq
    obtain ⟨rfl, -⟩ := List.cons.inj heq
    exact ⟨[], v, hcv, fun x => hb⟩
  · rename_i y heq
    obtain ⟨rfl, hrest⟩ := List.cons.inj heq
    refine ⟨['\r'], ?_⟩
    cases v with
    | nil =>
      -- the carriage return would end its run before a line feed
      rw [List.nil_append] at hrest
      rcases htext with ⟨h, hrun, -⟩ | ⟨h, -⟩
      · rw [hrest] at hrun
        exact absurd (Lexeme.Space.runLength_cons_eq_zero_iff.1 hrun).1 (by decide)
      · rw [hcv] at h
        cases w with
        | nil => exact absurd rfl hne
        | cons d w => simp at h
    | cons d v =>
      obtain ⟨rfl, -⟩ := List.cons.inj hrest
      exact ⟨v, hcv, fun x => hb⟩
  · cases hb

/-- What stops at the end of a line of the source stops there still. -/
theorem lineBreak?_outFrom (hr : ∀ m, i = m + 1 → (planOf options source).removes m = false)
    (hb : (lineBreak? (textFrom (tokens source) i)).isSome) :
    lineBreak? (outFrom options source i) = lineBreak? (textFrom (tokens source) i) := by
  obtain ⟨b, hb⟩ := Option.isSome_iff_exists.1 hb
  rw [hb]
  by_cases hend : (tokens source).length - 1 ≤ i
  · rw [outFrom_of_end hend, ← textFrom_of_end hend]
    exact hb
  obtain ⟨t, ht, hkt⟩ := exists_token (by omega : i < (tokens source).length - 1)
  by_cases hk : t.kind = .whitespace
  · obtain ⟨a, u, htext, hbreak⟩ := lineBreak?_text ht hk hb
    rw [outFrom_cons ht]
    rcases piece_of_whitespace options ht hk with ⟨hp, -⟩ | ⟨-, -, -, m, him, hrm⟩ | ⟨hp, -⟩
    · rw [hp, htext, List.append_assoc]
      exact hbreak _
    · simp [hr m him] at hrm
    · rw [hp, htext, Plan.throughLastLine_append, List.append_assoc]
      exact hbreak _
  · obtain ⟨c, v, hcv, hs, -⟩ := head_of_solid ht hkt hk
    rw [textFrom_cons ht, hcv, List.cons_append] at hb
    unfold lineBreak? at hb
    split at hb
    · rename_i heq; cases heq
    · rename_i heq
      rw [(List.cons.inj heq).1] at hs
      exact absurd hs (by decide)
    · rename_i heq
      rw [(List.cons.inj heq).1] at hs
      exact absurd hs (by decide)
    · cases hb

end

end EastConst
