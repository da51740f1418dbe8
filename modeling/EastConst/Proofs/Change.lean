import EastConst.Proofs.Failure
import EastConst.Proofs.Occurrence.Leading
import EastConst.Proofs.Plan.CarryOut
import EastConst.Proofs.Text.Utf8

/-!
# What is changed

A plan that moves nothing leaves the text as it is (`relocate_of_moves_eq_nil`), and one that moves
something changes it (`moves_eq_nil_of_output`): where the first qualifier has gone, the output
reads another token than the source. So a file is written back as it was exactly if its plan moves
nothing.
-/

namespace EastConst

section

variable {options : Options} {source : List Char}

/-! ## Plans that move nothing -/

theorem planOf_eq_empty (h : (planOf options source).moves = []) : planOf options source = {} := by
  have hnone : movable options (tokens source) = [] := by
    refine List.eq_nil_iff_forall_not_mem.2 fun e he => ?_
    obtain ⟨i, hi⟩ := List.exists_mem_of_ne_nil
      _ (mem_movable (tokens_terminated source) he).nonempty
    obtain ⟨m, hm, -⟩ := Plan.removes_iff.1
      ((Plan.ofTokens_removes_iff (tokens_terminated source)).2 ⟨e, he, hi⟩)
    rw [h] at hm
    cases hm
  rw [planOf, Plan.ofTokens_eq_foldl, hnone]
  rfl

/-- A plan moves only leading qualifiers that the options relocate, so where there are none it moves
nothing. -/
theorem moves_eq_nil_of_leading
    (h : ∀ o ∈ occurrences options (tokens source), o.role = .leading →
      options.relocates o.qualifier = false) : (planOf options source).moves = [] := by
  refine List.eq_nil_iff_forall_not_mem.2 fun m hm => ?_
  obtain ⟨e, -, he, hmem, -, -⟩ := exists_group_of_move hm
  obtain ⟨o, ho, -, hrole, -, hrel⟩ := he.leading _ hmem
  rw [h o ho hrole] at hrel
  cases hrel

theorem render_empty (source : List Char) : Plan.render {} (tokens source) = source := by
  have hpiece : ∀ t k, Plan.piece {} t k = t.text := by
    intro t k
    simp [Plan.piece, Plan.removes, Plan.insertion, IndexMap.get?]
  conv => rhs; rw [← tokens_flatten source]
  rw [Plan.render, Plan.pieces, ← List.flatMap_def]
  simp only [hpiece]
  conv => rhs; rw [← List.zipIdx_map_fst 0 (tokens source), List.flatMap_map]

/-- A plan that moves nothing leaves the text as it is, and the source is relocated. -/
theorem relocate_of_moves_eq_nil (h : (planOf options source).moves = []) :
    relocate options source = .ok ⟨source, diagnostics options source⟩ := by
  rw [relocate_of_plan (planOf_eq_empty h) rfl, render_empty]

/-! ## Plans that move something -/

section

variable {first i : Nat} {t : Token}

/-- Nothing is changed before the token before the first qualifier that goes. -/
theorem piece_before (hfirst : ∀ k, (planOf options source).removes k = true → first ≤ k)
    (hi : i + 1 < first) (ht : (tokens source)[i]? = some t) :
    (planOf options source).piece t i = t.text := by
  have hr : (planOf options source).removes i = false :=
    Bool.eq_false_iff.2 fun h => by have := hfirst i h; omega
  have hspace : (planOf options source).spaces.get? i = none := by
    cases hx : (planOf options source).spaces.get? i with
    | none => rfl
    | some x =>
      cases (Plan.ofTokens_settled (tokens_terminated source) (i + 1)).shape i x hx with
      | keep hm => have := hfirst _ hm; omega
      | drop hm => have := hfirst _ hm; omega
      | trim hm => have := hfirst _ hm; omega
  have hnone : (planOf options source).insertion i = [] :=
    insertion_eq_nil_of_lt hfirst (by omega)
  simp [Plan.piece, hr, hspace, hnone]

/-- What is written from a token on is the text from there, if the whole output is the source and
nothing is changed before. -/
theorem outFrom_eq_textFrom (h : outFrom options source 0 = source)
    (hpiece : ∀ k t, k < i → (tokens source)[k]? = some t →
      (planOf options source).piece t k = t.text)
    (hi : i ≤ (tokens source).length) : outFrom options source i = textFrom (tokens source) i := by
  induction i with
  | zero =>
    rw [h]
    exact (tokens_flatten source).symm
  | succ i ih =>
    have ht := List.getElem?_eq_getElem (l := tokens source) hi
    have := ih (fun k t hk => hpiece k t (by omega)) (by omega)
    rw [outFrom_cons ht, textFrom_cons ht, hpiece i _ (by omega) ht] at this
    exact List.append_cancel_left this

/-- The token at `j` is the first one from `i` on that stays and is read. -/
structure NextKept (options : Options) (source : List Char) (i j : Nat) (u : Token) : Prop where
  le : i ≤ j
  token : (tokens source)[j]? = some u
  solid : u.kind ≠ .whitespace
  kept : (planOf options source).removes j = false
  between : ∀ k v, i ≤ k → k < j → (tokens source)[k]? = some v →
    v.kind = .whitespace ∨ (Qualifier.ofToken? v).isSome = true
  reading : Lexeme.solid (outFrom options source i) = Lexeme.solid (outFrom options source j)

theorem NextKept.of_gone {j : Nat} {u : Token} (h : NextKept options source (i + 1) j u)
    (ht : (tokens source)[i]? = some t)
    (hgone : t.kind = .whitespace ∨ (Qualifier.ofToken? t).isSome = true)
    (hreading : Lexeme.solid (outFrom options source i) =
      Lexeme.solid (outFrom options source (i + 1))) :
    NextKept options source i j u := by
  refine ⟨Nat.le_of_succ_le h.le, h.token, h.solid, h.kept, fun k v hk hk' hv => ?_,
    hreading.trans h.reading⟩
  rcases Nat.eq_or_lt_of_le hk with rfl | hlt
  · obtain rfl := Option.some.inj (ht.symm.trans hv)
    exact hgone
  · exact h.between k v hlt hk' hv

/-- From a qualifier that goes, there is such a token before or at the start of its type. -/
theorem exists_nextKept {e : Group × Nat} (he : e.1.Moves options (tokens source) e.2) {m : Nat}
    (hi : m ≤ i) (hi' : i ≤ e.1.typeStart) :
    ∃ j u, j ≤ e.1.typeStart ∧ NextKept options source i j u := by
  have hself {k : Nat} {u : Token} (hu : (tokens source)[k]? = some u) (hk : u.kind ≠ .whitespace)
      (hr : (planOf options source).removes k = false) : NextKept options source k k u :=
    ⟨Nat.le_refl _, hu, hk, hr, fun k v h1 h2 => by omega, rfl⟩
  refine descend (P := fun i => ∃ j u, j ≤ e.1.typeStart ∧ NextKept options source i j u) ?_
    (fun k hk hk' ih => ?_) hi hi'
  · obtain ⟨u, hu, hk, hr, -⟩ := piece_of_typeStart he
    exact ⟨_, u, Nat.le_refl _, hself hu hk hr⟩
  · obtain ⟨u, hu⟩ := he.exists_token hk'
    obtain ⟨j, v, hj, hnext⟩ := ih
    by_cases hk : u.kind = .whitespace
    · exact ⟨j, v, hj, hnext.of_gone hu (.inl hk) (solid_of_whitespace hu hk)⟩
    cases hr : (planOf options source).removes k with
    | true =>
      obtain ⟨e', -, hmem, he'⟩ := exists_group_of_removes hr
      obtain ⟨w, q, hw, hq⟩ := (he'.member k hmem).2
      obtain rfl := Option.some.inj (hu.symm.trans hw)
      exact ⟨j, v, hj, hnext.of_gone hu (.inr (by rw [hq]; rfl)) (solid_of_removes hr)⟩
    | false => exact ⟨k, u, by omega, hself hu hk hr⟩

theorem solid_textFrom {l : Lexeme}
    (hl : Lexeme.Reads l.text (textFrom (tokens source) (i + 1)) l.kind l.closed)
    (ht : (tokens source)[i]? = some (Token.ofLexeme l)) (hk : l.kind ≠ .whitespace) :
    Lexeme.solid (textFrom (tokens source) i) =
      l :: Lexeme.solid (textFrom (tokens source) (i + 1)) := by
  rw [textFrom_cons ht, Token.ofLexeme_text, hl.solid hk]

/-- An output that is the source is read alike from the first qualifier that goes. -/
theorem solid_outFrom_first (h : outFrom options source 0 = source)
    (hfirst : ∀ k, (planOf options source).removes k = true → first ≤ k)
    (hr : (planOf options source).removes first = true) :
    Lexeme.solid (outFrom options source first) =
      Lexeme.solid (textFrom (tokens source) first) := by
  obtain ⟨e, -, hmem, he⟩ := exists_group_of_removes hr
  obtain ⟨-, t, q, ht, -⟩ := he.member first hmem
  have hlt := (List.getElem?_eq_some_iff.1 ht).1
  have hbefore : outFrom options source (first - 1) = textFrom (tokens source) (first - 1) :=
    outFrom_eq_textFrom h (fun k t hk => piece_before hfirst (by omega)) (by omega)
  cases first with
  | zero => rw [hbefore]
  | succ i =>
    rw [Nat.add_sub_cancel] at hbefore
    have hlt : i < (tokens source).length - 1 := by omega
    obtain ⟨u, hu, hend⟩ := exists_token hlt
    by_cases hk : u.kind = .whitespace
    · obtain ⟨l, -, rfl, hl⟩ := exists_lexeme hu hend
      have hkl : l.kind = .whitespace := Token.kindOf_eq_whitespace.1 hk
      rw [← solid_of_whitespace hu hk, hbefore, textFrom_cons hu]
      rw [hkl] at hl
      exact hl.solid_whitespace
    · have hri : (planOf options source).removes i = false :=
        Bool.eq_false_iff.2 fun h => by have := hfirst i h; omega
      rw [outFrom_cons hu, textFrom_cons hu, piece_of_solid hu hk hri,
        insertion_eq_nil_of_lt hfirst (by omega), List.append_nil] at hbefore
      rw [List.append_cancel_left hbefore]

/-- No token from a qualifier that goes up to the start of its type is a literal. -/
theorem kind_ne_literal_of_nextKept {e : Group × Nat} (he : e.1.Moves options (tokens source) e.2)
    {m j : Nat} (hm : m ∈ e.1.members) (hj : m ≤ j) (hj' : j ≤ e.1.typeStart)
    (ht : (tokens source)[j]? = some t) : t.kind ≠ .literal := by
  intro hk
  rcases Nat.eq_or_lt_of_le hj' with rfl | hlt
  · obtain ⟨u, hu, hstart, -⟩ := he.type
    obtain rfl := Option.some.inj (ht.symm.trans hu)
    simp [Token.startsType, Token.isWord, Token.isMark, Token.mark?, hk] at hstart
  · have hlead := he.isLeadIn hm hj hlt ht
    simp [Token.isLeadIn, Token.isTrivia, Qualifier.ofToken?, Token.isTypePrefix, hk] at hlead

/-- What is read first from a qualifier that goes is the first token that stays. -/
theorem NextKept.solid_outFrom {e : Group × Nat} (he : e.1.Moves options (tokens source) e.2)
    {m j : Nat} {u : Token} (hm : m ∈ e.1.members) (h : NextKept options source m j u)
    (hj : j ≤ e.1.typeStart) :
    ∃ l ls, u = Token.ofLexeme l ∧ Lexeme.solid (outFrom options source m) = l :: ls := by
  have hkind := kind_ne_literal_of_nextKept he hm h.le hj h.token
  have hend : u.kind ≠ .endOfInput := by
    have hbound := he.bounded
    have hanchor := he.anchored
    exact (tokens_terminated source).kind_ne (by omega) h.token
  obtain ⟨l, -, rfl, hl⟩ := exists_lexeme h.token hend
  have hkl : l.kind ≠ .whitespace := fun hk => h.solid (Token.kindOf_eq_whitespace.2 hk)
  have hraw : l.isBareOpening = true → Lexeme.Raw.bodyLength (outFrom options source (j + 1)) =
      (0, false) := by
    intro hbare
    refine absurd ?_ hkind
    rw [Lexeme.isBareOpening, Bool.and_eq_true, beq_iff_eq] at hbare
    simp [Token.ofLexeme, Token.kindOf, hbare.1]
  have hreads := reads_of_kept h.token hl hkl h.kept hraw
  rw [h.reading, outFrom_cons h.token, piece_of_solid h.token h.solid h.kept, Token.ofLexeme_text,
    List.append_assoc, hreads.solid hkl]
  exact ⟨l, _, rfl, rfl⟩

/-- A plan that moves something changes the text. -/
theorem moves_eq_nil_of_output (h : outFrom options source 0 = source) :
    (planOf options source).moves = [] := by
  have hpair : (planOf options source).moves.Pairwise (·.index < ·.index) :=
    Plan.ofTokens_moves_pairwise (tokens_terminated source)
  cases hmoves : (planOf options source).moves with
  | nil => rfl
  | cons m ms =>
    exfalso
    have hm : m ∈ (planOf options source).moves := by simp [hmoves]
    have hr : (planOf options source).removes m.index = true := Plan.removes_iff.2 ⟨m, hm, rfl⟩
    have hfirst : ∀ k, (planOf options source).removes k = true → m.index ≤ k := by
      intro k hk
      obtain ⟨m', hm', rfl⟩ := Plan.removes_iff.1 hk
      rw [hmoves] at hm' hpair
      rcases List.mem_cons.1 hm' with rfl | hm'
      · exact Nat.le_refl _
      · exact Nat.le_of_lt ((List.pairwise_cons.1 hpair).1 m' hm')
    obtain ⟨e, hmov, he, hmem, -, -⟩ := exists_group_of_move hm
    obtain ⟨o, ho, hindex, hrole, hboundary, hrel⟩ := he.leading _ hmem
    obtain ⟨⟨t, ht, hq⟩, -⟩ := mem_occurrences_index (tokens_terminated source) ho
    rw [hindex] at ht
    obtain ⟨l, -, rfl, hl⟩ := exists_lexeme ht (by simp [Token.kind_of_qualifier hq])
    have hkl : l.kind ≠ .whitespace := fun hk => by
      have := Token.kind_of_qualifier hq
      simp [Token.ofLexeme, Token.kindOf, hk] at this
    -- the source reads the qualifier there, the output the first token after it that stays
    obtain ⟨j, u, hj, hnext⟩ := exists_nextKept he (Nat.le_refl m.index)
      (Nat.le_of_lt (he.member _ hmem).1)
    have hlt : m.index < j := by
      refine Nat.lt_of_le_of_ne hnext.le fun heq => ?_
      have hkept := hnext.kept
      rw [← heq, hr] at hkept
      cases hkept
    obtain ⟨l', ls, rfl, hsolid⟩ := hnext.solid_outFrom he hmem hj
    rw [solid_outFrom_first h hfirst hr, solid_textFrom hl ht hkl] at hsolid
    obtain ⟨rfl, -⟩ := List.cons.inj hsolid
    -- so that token is the same qualifier, and it would have gone with the first one
    have hj' : j < e.1.typeStart := by
      refine Nat.lt_of_le_of_ne hj fun heq => ?_
      obtain ⟨u, hu, -, hlead⟩ := he.type
      rw [← heq, hnext.token] at hu
      obtain rfl := Option.some.inj hu
      simp [Token.isLeadIn, hq] at hlead
    have hanchor := he.anchored
    obtain ⟨o', ho', rfl, hrole', hq'⟩ := role_of_between (tokens_terminated source) ho
      (by omega) (by omega) hnext.token hq
      fun k v hk hk' => hnext.between k v (by omega) hk'
    have hmem' := he.complete _ hmem o' ho' (by omega) hj' (hrole'.trans hrole) (hq' ▸ hrel)
    have hremoved := (Plan.ofTokens_removes_iff (tokens_terminated source)).2 ⟨e, hmov, hmem'⟩
    rw [hnext.kept] at hremoved
    cases hremoved

end

/-! ## Files -/

/-- Since decoding loses nothing, bytes are those of a text only if they decode to it. -/
theorem encode_eq_bytes_iff {bytes : List UInt8} (h : Utf8.decode bytes = .ok source)
    {text : List Char} :
    Utf8.encode text = bytes ↔ text = source := by
  rw [← Utf8.encode_of_decode h]
  exact ⟨Utf8.encode_injective, congrArg Utf8.encode⟩

/-- A file is written back as it was exactly if its plan moves nothing, and a file without leading
qualifiers that are to be moved always is. -/
theorem relocateBytes_unchanged_iff {bytes : List UInt8}
    (hsource : Utf8.decode bytes = .ok source) :
    (∀ r, relocateBytes options bytes = .ok r →
      ((r.output = source ↔ (planOf options source).moves = []) ∧
        (Utf8.encode r.output = bytes ↔ (planOf options source).moves = []))) ∧
    ((∀ o ∈ occurrences options (tokens source), o.role = .leading →
        options.relocates o.qualifier = false) →
      ∃ r, relocateBytes options bytes = .ok r ∧ Utf8.encode r.output = bytes) := by
  rw [relocateBytes_of_decode hsource]
  constructor
  · intro r hr
    have hunchanged : r.output = source ↔ (planOf options source).moves = [] := by
      constructor
      · intro h
        rw [output_of_relocate hr] at h
        exact moves_eq_nil_of_output h
      · intro h
        rw [relocate_of_moves_eq_nil h] at hr
        cases hr
        rfl
    exact ⟨hunchanged, (encode_eq_bytes_iff hsource).trans hunchanged⟩
  · intro hleading
    exact ⟨_, relocate_of_moves_eq_nil (moves_eq_nil_of_leading hleading),
      Utf8.encode_of_decode hsource⟩

end

/-- A leading qualifier of a trailing return type stays, and with it the file; one that goes changes
it. -/
theorem relocateBytes_unchanged_return :
    (∃ r, relocateBytes {} (Utf8.encode "auto f() -> const int&;".toList) = .ok r ∧
      Utf8.encode r.output = Utf8.encode "auto f() -> const int&;".toList) ∧
    ∃ r, relocateBytes {} (Utf8.encode "const constant x;".toList) = .ok r ∧
      Utf8.encode r.output ≠ Utf8.encode "const constant x;".toList := by
  have hkept : Utf8.decode (Utf8.encode "auto f() -> const int&;".toList) =
      .ok "auto f() -> const int&;".toList := by rfl
  have hmoved : Utf8.decode (Utf8.encode "const constant x;".toList) =
      .ok "const constant x;".toList := by
    rfl
  have hplan : Plan.ofTokens {} (tokens "const constant x;".toList) =
      ⟨[⟨0, 2, .const⟩], ⟨[(1, [])]⟩, ⟨[]⟩⟩ := by decide +kernel
  have hrel := (relocateBytes_of_decode hmoved).trans (relocate_of_plan hplan (by decide +kernel))
  refine ⟨(relocateBytes_unchanged_iff hkept).2 (by decide +kernel), _, hrel, fun heq => ?_⟩
  have hnone := ((relocateBytes_unchanged_iff hmoved).1 _ hrel).2.1 heq
  rw [planOf, hplan] at hnone
  cases hnone

end EastConst
