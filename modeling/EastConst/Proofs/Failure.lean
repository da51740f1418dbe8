import EastConst.Proofs.Plan.Check
import EastConst.Proofs.Plan.Pieces

/-!
# When a source cannot be relocated

The plan of a source moves qualifiers forward and changes nothing but white space, so its check can
fail in one way only: blanks that are cut back to their last line break hold a backslash or a byte
order mark before it (`Plan.StrandsMark`). Then relocation fails, at the first such place
(`relocateBytes_eq_error_iff`).
-/

namespace EastConst

/-! ## White space is changed in order -/

namespace Plan

section

variable {options : Options} {tokens : List Token} {p : Plan}

/-- The step lemma: closing a gap keeps the changes of whitespace in the order of their tokens. -/
theorem closeGap_ascending (h : p.spaces.Ascending) (m : Nat) :
    (p.closeGap tokens m).spaces.Ascending := by
  rcases closeGap_cases tokens p m with he | ⟨k, x, he, -⟩
  · rw [he]
    exact h
  · rw [he]
    exact h.insert k x

theorem foldl_closeGap_ascending (h : p.spaces.Ascending) (ms : List Nat) :
    (ms.foldl (fun p m => p.closeGap tokens m) p).spaces.Ascending := by
  induction ms generalizing p with
  | nil => exact h
  | cons m ms ih => exact ih (closeGap_ascending h m)

theorem foldl_addMoves_ascending (h : p.spaces.Ascending) (es : List (Group × Nat)) :
    (es.foldl (fun p e => p.addMoves options tokens e.1.members e.2) p).spaces.Ascending := by
  induction es generalizing p with
  | nil => exact h
  | cons e es ih =>
    apply ih
    rw [addMoves_spaces]
    apply foldl_closeGap_ascending
    exact h

/-- A plan lists the tokens whose whitespace it changes in ascending order. -/
theorem ofTokens_ascending (options : Options) (tokens : List Token) :
    (ofTokens options tokens).spaces.Ascending := by
  rw [ofTokens_eq_foldl]
  apply foldl_addMoves_ascending
  exact List.Pairwise.nil

end

end Plan

/-! ## The plan of a source -/

section

variable {options : Options} {source : List Char}

/-- The moves of the plan of a source pass its check. -/
theorem planOf_forward (options : Options) (source : List Char) :
    (planOf options source).Forward (tokens source) := by
  refine ⟨fun m hm => ?_, ?_, fun m hm => ?_, fun m hm => ?_, fun m hm => index_lt_anchor hm⟩
  · obtain ⟨e, -, -, -, -, hq⟩ := exists_group_of_move hm
    exact hq
  · exact (Plan.ofTokens_moves_pairwise (tokens_terminated source)).imp fun hlt => Nat.ne_of_lt hlt
  · obtain ⟨e, -, he, -, hanchor, -⟩ := exists_group_of_move hm
    have hlt := he.anchored.2.1
    have hbound := he.bounded
    omega
  · -- what goes is a qualifier, and a qualifier ends no type
    obtain ⟨e, -, he, -, hanchor, -⟩ := exists_group_of_move hm
    obtain ⟨-, -, t, ht, hend⟩ := he.anchored
    refine Bool.eq_false_iff.2 fun hr => ?_
    rw [hanchor] at hr
    rw [(kind_of_removes hr ht).2] at hend
    cases hend

theorem planOf_whitespace (e : Nat × List Char) (he : e ∈ (planOf options source).spaces.entries) :
    (tokens source)[e.1]?.map Token.kind = some .whitespace ∨
      (planOf options source).removes e.1 = true := by
  obtain ⟨k, x⟩ := e
  have hget := (Plan.ofTokens_ascending options (tokens source)).get?_of_mem he
  cases (Plan.ofTokens_settled (tokens_terminated source) 0).shape k x hget with
  | drop _ ht hs =>
    exact .inl (by rw [ht]; exact congrArg some (Token.kind_of_isHorizontalSpace hs))
  | trim _ ht hk => exact .inl (by rw [ht]; exact congrArg some hk)
  | keep hm => exact .inr hm

end

/-! ## What is not blank in white space -/

/-- A run of whitespace consists of white space and of the backslashes that continue lines. -/
theorem Lexeme.Space.mem_of_isRun {w : List Char} (h : IsRun w) {c : Char} (hc : c ∈ w) :
    isSpace c = true ∨ c = '\\' := by
  unfold IsRun at h
  fun_induction runLength w with
  | case1 text ih =>
    rcases List.mem_cons.1 hc with rfl | hc
    · exact .inr rfl
    · rcases List.mem_cons.1 hc with rfl | hc
      · exact .inl rfl
      · exact ih (by simpa using h) hc
  | case2 text ih =>
    rcases List.mem_cons.1 hc with rfl | hc
    · exact .inr rfl
    · rcases List.mem_cons.1 hc with rfl | hc
      · exact .inl rfl
      · rcases List.mem_cons.1 hc with rfl | hc
        · exact .inl rfl
        · exact ih (by simpa using h) hc
  | case3 d text _ _ hd ih =>
    rcases List.mem_cons.1 hc with rfl | hc
    · exact .inl hd
    · exact ih (by simpa using h) hc
  | case4 d text _ _ hd => simp at h
  | case5 => cases hc

/-- Of the characters of white space, the backslash and the byte order mark are not blank. -/
theorem isBlank_of_isSpace {c : Char} (h : Lexeme.Space.isSpace c = true ∨ c = '\\') :
    isBlank c = false ↔ c = '\\' ∨ c = '\uFEFF' := by
  rcases h with h | rfl
  · simp only [Lexeme.Space.isSpace, Bool.or_eq_true, beq_iff_eq] at h
    rcases h with (((((rfl | rfl) | rfl) | rfl) | rfl) | rfl) | rfl <;> decide
  · decide

theorem mem_of_whitespace {source : List Char} {i : Nat} {t : Token}
    (ht : (tokens source)[i]? = some t) (hk : t.kind = .whitespace) {c : Char} (hc : c ∈ t.text) :
    Lexeme.Space.isSpace c = true ∨ c = '\\' := by
  obtain ⟨w, -, hw, ⟨he, -⟩ | ⟨he, -⟩⟩ := exists_run_of_whitespace ht hk
  · rw [he] at hc
    exact Lexeme.Space.mem_of_isRun hw hc
  · rw [he, List.mem_append, List.mem_singleton] at hc
    rcases hc with hc | hc
    · exact Lexeme.Space.mem_of_isRun hw hc
    · exact .inr hc

/-! ## Marks that are stranded -/

/-- Whether a plan takes away the qualifier after the white space at an index, with a line break
right behind it, and that white space has something after its last line break, and a backslash or a
byte order mark before it. -/
def Plan.StrandsMark (plan : Plan) (tokens : List Token) (k : Nat) : Prop :=
  (∃ m ∈ plan.moves, m.index = k + 1) ∧
    (∃ after, tokens[k + 2]? = some after ∧ after.kind = .whitespace ∧ '\n' ∈ after.text) ∧
    ∃ before, tokens[k]? = some before ∧ before.kind = .whitespace ∧
      ∃ head tail, before.text = head ++ '\n' :: tail ∧ '\n' ∉ tail ∧ tail ≠ [] ∧
        ('\\' ∈ head ∨ '\uFEFF' ∈ head)

section

variable {options : Options} {source : List Char} {k : Nat}

/-- What is left of white space that is cut back is not blank if a mark is stranded in it. -/
theorem all_isBlank_throughLastLine {t : Token} {head tail : List Char}
    (ht : (tokens source)[k]? = some t) (hk : t.kind = .whitespace)
    (htext : t.text = head ++ '\n' :: tail) (hnot : '\n' ∉ tail) :
    (Plan.throughLastLine t.text).all isBlank = false ↔ '\\' ∈ head ∨ '\uFEFF' ∈ head := by
  have hspace {c : Char} (hc : c ∈ head) : isBlank c = false ↔ c = '\\' ∨ c = '\uFEFF' :=
    isBlank_of_isSpace (mem_of_whitespace ht hk (by rw [htext]; exact List.mem_append_left _ hc))
  have hbreak : ['\n'].all isBlank = true := by decide
  rw [htext, Plan.throughLastLine_eq hnot, List.all_append, hbreak, Bool.and_true,
    List.all_eq_false]
  constructor
  · intro ⟨c, hc, hblank⟩
    rcases (hspace hc).1 (Bool.eq_false_iff.2 hblank) with rfl | rfl
    · exact .inl hc
    · exact .inr hc
  · intro h
    rcases h with h | h
    · exact ⟨_, h, Bool.eq_false_iff.1 ((hspace h).2 (.inl rfl))⟩
    · exact ⟨_, h, Bool.eq_false_iff.1 ((hspace h).2 (.inr rfl))⟩

/-- Whitespace that is replaced by a text that is not blank strands a mark. -/
theorem strandsMark_of_get? {x : List Char}
    (hx : (planOf options source).spaces.get? k = some x) (hblank : x.all isBlank = false) :
    (planOf options source).StrandsMark (tokens source) k := by
  cases (Plan.ofTokens_settled (tokens_terminated source) 0).shape k x hx with
  | drop => simp at hblank
  | keep => exact absurd hblank (by decide)
  | @trim _ t u hm ht hk hlen hu hku hsu =>
    have hbreak : '\n' ∈ t.text := by
      refine Decidable.byContradiction fun hnot => ?_
      rw [Plan.throughLastLine_of_not_mem hnot] at hblank
      simp at hblank
    obtain ⟨head, tail, htext, hnot⟩ := Plan.exists_last_line hbreak
    refine ⟨Plan.removes_iff.1 hm, ⟨u, hu, hku, ?_⟩, t, ht, hk, head, tail, htext, hnot, ?_, ?_⟩
    · simpa [Token.isHorizontalSpace, hku] using hsu
    · intro hnil
      rw [htext, Plan.throughLastLine_eq hnot, hnil] at hlen
      exact Nat.lt_irrefl _ hlen
    · exact (all_isBlank_throughLastLine ht hk htext hnot).1 hblank

/-- Whitespace that strands a mark is replaced by a text that is not blank. -/
theorem get?_of_strandsMark (h : (planOf options source).StrandsMark (tokens source) k) :
    ∃ x, (planOf options source).spaces.get? k = some x ∧ x.all isBlank = false := by
  obtain ⟨hm, ⟨u, hu, hku, hlf⟩, t, ht, hk, head, tail, htext, hnot, htail, hmark⟩ := h
  have hrem := Plan.removes_iff.2 hm
  have hsu : u.isHorizontalSpace = false := by simp [Token.isHorizontalSpace, hku, hlf]
  have hst : t.isHorizontalSpace = false := by simp [Token.isHorizontalSpace, hk, htext]
  have hlen : (Plan.throughLastLine t.text).length < t.text.length := by
    rw [htext, Plan.throughLastLine_eq hnot]
    have := List.length_pos_iff.2 htail
    simp
    omega
  cases hx : (planOf options source).spaces.get? k with
  | none =>
    exact absurd hlen ((Plan.ofTokens_settled (tokens_terminated source) (k + 2)).trimmed k t u
      (by omega) hrem hu hku hsu ht hk hx)
  | some x =>
    refine ⟨x, rfl, ?_⟩
    cases (Plan.ofTokens_settled (tokens_terminated source) 0).shape k x hx with
    | drop _ ht' hs =>
      obtain rfl := Option.some.inj (ht.symm.trans ht')
      simp [hst] at hs
    | keep hr =>
      have hkw := (kind_of_removes hr ht).1
      simp [hk] at hkw
    | trim _ ht' =>
      obtain rfl := Option.some.inj (ht.symm.trans ht')
      exact (all_isBlank_throughLastLine ht hk htext hnot).2 hmark

/-- The plan of a source has a fault exactly if it strands a mark, and then the first one is it. -/
theorem fault?_planOf_eq_some_iff {fault : Plan.Fault} :
    (planOf options source).fault? (tokens source) = some fault ↔
      ∃ k, (planOf options source).StrandsMark (tokens source) k ∧
        (∀ j, (planOf options source).StrandsMark (tokens source) j → k ≤ j) ∧
        fault = .nonBlankReplacement k := by
  rw [(planOf_forward options source).fault?_eq_some_iff
    (Plan.ofTokens_ascending options (tokens source)) planOf_whitespace]
  constructor
  · intro ⟨k, x, hx, hblank, hleast, hfault⟩
    refine ⟨k, strandsMark_of_get? hx hblank, fun j hj => ?_, hfault⟩
    obtain ⟨y, hy, hblank'⟩ := get?_of_strandsMark hj
    exact hleast j y hy hblank'
  · intro ⟨k, hk, hleast, hfault⟩
    obtain ⟨x, hx, hblank⟩ := get?_of_strandsMark hk
    exact ⟨k, x, hx, hblank,
      fun j y hy hblank' => hleast j (strandsMark_of_get? hy hblank'), hfault⟩

/-- Bytes that decode are relocated as their text is. -/
theorem relocateBytes_of_decode {bytes : List UInt8} (h : Utf8.decode bytes = .ok source) :
    relocateBytes options bytes = relocate options source := by
  rw [relocateBytes, decodeSource, h]
  rfl

/-- Text can fail to be relocated only by a fault in its plan. -/
theorem relocateBytes_eq_error {bytes : List UInt8} {failure : Failure}
    (hsource : Utf8.decode bytes = .ok source) :
    relocateBytes options bytes = .error failure ↔
      ∃ fault, (planOf options source).fault? (tokens source) = some fault ∧
        failure = .faultyPlan fault := by
  rw [relocateBytes_of_decode hsource, relocate, Plan.apply]
  cases (planOf options source).fault? (tokens source) with
  | none => simp [Except.map]
  | some fault =>
    simp only [Except.map, Except.error.injEq, Option.some.injEq, exists_eq_left']
    exact eq_comm

/-- A source cannot be relocated exactly if its plan strands a mark. The failure is that the plan
has something to write that is not blank, and it names the first such place; the moves of the plan,
and the places where it changes white space, are never at fault. -/
theorem relocateBytes_eq_error_iff {bytes : List UInt8} (hsource : Utf8.decode bytes = .ok source) :
    ((∃ failure, relocateBytes options bytes = .error failure) ↔
      ∃ k, (planOf options source).StrandsMark (tokens source) k) ∧
    (∀ failure, relocateBytes options bytes = .error failure ↔
      ∃ k, (planOf options source).StrandsMark (tokens source) k ∧
        (∀ j, (planOf options source).StrandsMark (tokens source) j → k ≤ j) ∧
        failure = .faultyPlan (.nonBlankReplacement k)) ∧
    ∀ fault, (planOf options source).fault? (tokens source) = some fault →
      ∃ k, fault = .nonBlankReplacement k := by
  have herror (failure : Failure) : relocateBytes options bytes = .error failure ↔
      ∃ k, (planOf options source).StrandsMark (tokens source) k ∧
        (∀ j, (planOf options source).StrandsMark (tokens source) j → k ≤ j) ∧
        failure = .faultyPlan (.nonBlankReplacement k) := by
    rw [relocateBytes_eq_error hsource]
    constructor
    · intro ⟨fault, hfault, hfailure⟩
      obtain ⟨k, hk, hleast, rfl⟩ := fault?_planOf_eq_some_iff.1 hfault
      exact ⟨k, hk, hleast, hfailure⟩
    · intro ⟨k, hk, hleast, hfailure⟩
      exact ⟨_, fault?_planOf_eq_some_iff.2 ⟨k, hk, hleast, rfl⟩, hfailure⟩
  refine ⟨⟨?_, ?_⟩, herror, ?_⟩
  · intro ⟨failure, hfailure⟩
    obtain ⟨k, hk, -⟩ := (herror failure).1 hfailure
    exact ⟨k, hk⟩
  · intro ⟨k, hk⟩
    cases hfault : (planOf options source).fault? (tokens source) with
    | some fault => exact ⟨_, (relocateBytes_eq_error hsource).2 ⟨fault, hfault, rfl⟩⟩
    | none =>
      -- a plan without a fault writes nothing but blanks
      obtain ⟨x, hx, hnot⟩ := get?_of_strandsMark hk
      have hblank := (Plan.fault?_eq_none_iff.1 hfault).blank _ (IndexMap.mem_of_get? hx)
      rw [hnot] at hblank
      cases hblank
  · intro fault hfault
    obtain ⟨k, -, -, rfl⟩ := fault?_planOf_eq_some_iff.1 hfault
    exact ⟨k, rfl⟩

end

/-- A continued line before a qualifier that ends its line cannot be cut back. -/
theorem relocateBytes_continued_line :
    Utf8.decode (Utf8.encode ";\\\n const\nint y;".toList) = .ok ";\\\n const\nint y;".toList ∧
      relocateBytes {} (Utf8.encode ";\\\n const\nint y;".toList) =
        .error (.faultyPlan (.nonBlankReplacement 1)) := by
  have hsource : Utf8.decode (Utf8.encode ";\\\n const\nint y;".toList) =
      .ok ";\\\n const\nint y;".toList := by rfl
  have hplan : planOf {} ";\\\n const\nint y;".toList =
      ⟨[⟨2, 4, .const⟩], ⟨[(1, ['\\', '\n'])]⟩, ⟨[]⟩⟩ := by decide +kernel
  refine ⟨hsource, ((relocateBytes_eq_error_iff hsource).2.1 _).2 ⟨1, ?_, ?_, rfl⟩⟩
  · rw [hplan]
    refine ⟨⟨_, List.mem_singleton_self _, rfl⟩, ⟨⟨.whitespace, ['\n']⟩, ?_, rfl, ?_⟩,
      ⟨.whitespace, ['\\', '\n', ' ']⟩, ?_, rfl, ['\\'], [' '], ?_, ?_, ?_, ?_⟩
    all_goals decide +kernel
  · intro j hj
    rw [hplan] at hj
    obtain ⟨⟨m, hm, hmj⟩, -⟩ := hj
    rw [List.mem_singleton] at hm
    subst hm
    simp at hmj
    omega

end EastConst
