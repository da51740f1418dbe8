import Mathlib.Data.List.Perm.Basic
import EastConst.Conservation
import EastConst.Proofs.Plan.CarryOut

/-!
# What a relocation conserves

A plan that is carried out only changes the order of the tokens: what it takes away is what it puts
in (`carryOut_perm`). So a relocation conserves the texts of the significant tokens wherever its
tokens are those of the plan carried out, which is so exactly when the openings of raw strings are
kept.
-/

namespace EastConst

/-! ## The order of texts -/

theorem inOrder_total (a b : List Char) : (inOrder a b || inOrder b a) = true := by
  induction a generalizing b with
  | nil => simp [inOrder]
  | cons c a ih =>
    cases b with
    | nil => simp [inOrder]
    | cons d b =>
      by_cases h : c = d
      · subst h
        simpa [inOrder] using ih b
      · have hne : c.toNat ≠ d.toNat := fun h' => h (Char.toNat_inj.1 h')
        simp [inOrder, h, Ne.symm h]
        omega

/-- Texts are ordered totally, so that a sorted list of them is fixed by what is in it. -/
theorem inOrder_antisymm {a b : List Char} (h : inOrder a b = true) (h' : inOrder b a = true) :
    a = b := by
  induction a generalizing b with
  | nil =>
    cases b with
    | nil => rfl
    | cons d b => simp [inOrder] at h'
  | cons c a ih =>
    cases b with
    | nil => simp [inOrder] at h
    | cons d b =>
      by_cases hcd : c = d
      · subst hcd
        rw [inOrder, if_pos rfl] at h h'
        rw [ih h h']
      · simp [inOrder, hcd, Ne.symm hcd] at h h'
        omega

theorem inOrder_trans {a b c : List Char} (h : inOrder a b = true) (h' : inOrder b c = true) :
    inOrder a c = true := by
  induction a generalizing b c with
  | nil => rfl
  | cons x a ih =>
    cases b with
    | nil => simp [inOrder] at h
    | cons y b =>
      cases c with
      | nil => simp [inOrder] at h'
      | cons z c =>
        simp only [inOrder] at h h' ⊢
        split at h
        · subst x
          split at h'
          · subst y
            rw [if_pos rfl]
            exact ih h h'
          · rename_i hyz
            rw [if_neg hyz]
            exact h'
        · split at h'
          · subst y
            rename_i hxz
            rw [if_neg hxz]
            exact h
          · simp only [decide_eq_true_eq] at h h'
            have hxz : x ≠ z := by
              rintro rfl
              omega
            rw [if_neg hxz]
            exact decide_eq_true (by omega)

/-- Texts have one ascending order. -/
theorem mergeSort_inOrder_eq {xs ys : List (List Char)} (h : xs.Perm ys) :
    xs.mergeSort inOrder = ys.mergeSort inOrder := by
  have hsorted (zs : List (List Char)) : (zs.mergeSort inOrder).Pairwise (inOrder · ·) :=
    List.pairwise_mergeSort (fun a b c => @inOrder_trans a b c) inOrder_total zs
  refine List.Perm.eq_of_pairwise (fun _ _ _ _ => inOrder_antisymm) (hsorted xs) (hsorted ys) ?_
  exact (List.mergeSort_perm xs inOrder).trans (h.trans (List.mergeSort_perm ys inOrder).symm)

/-! ## What goes is what comes -/

section

variable {ms : List Move} {key : Move → Nat} {m : Move} {n : Nat}

theorem flatMap_filter_singleton (h : key m < n) :
    ((List.range n).flatMap fun k => [m].filter (key · == k)) = [m] := by
  induction n with
  | zero => omega
  | succ n ih =>
    rw [List.range_succ, List.flatMap_append, List.flatMap_singleton]
    by_cases hn : key m = n
    · have hnone : ((List.range n).flatMap fun k => [m].filter (key · == k)) = [] := by
        refine List.flatMap_eq_nil_iff.2 fun k hk => List.filter_eq_nil_iff.2 fun x hx hkey => ?_
        rw [List.mem_singleton] at hx
        rw [beq_iff_eq, hx] at hkey
        have := List.mem_range.1 hk
        omega
      rw [hnone, List.filter_cons_of_pos (by simpa using hn)]
      rfl
    · rw [ih (by omega), List.filter_cons_of_neg (by simpa using hn)]
      rfl

/-- Moves taken key by key are all the moves. -/
theorem flatMap_filter_perm (h : ∀ m ∈ ms, key m < n) :
    ((List.range n).flatMap fun k => ms.filter (key · == k)).Perm ms := by
  induction ms with
  | nil => simp
  | cons m ms ih =>
    have hsplit : ∀ k, (m :: ms).filter (key · == k) =
        [m].filter (key · == k) ++ ms.filter (key · == k) := by
      intro k
      rw [← List.filter_append]
      rfl
    simp only [hsplit]
    refine (List.flatMap_append_perm _ _ _).symm.trans ?_
    rw [flatMap_filter_singleton (h m List.mem_cons_self)]
    exact (ih fun x hx => h x (List.mem_cons_of_mem _ hx)).cons m

end

section

variable {options : Options} {source : List Char}

/-- The texts of the significant ones among tokens. -/
def significant (ts : List Token) : List (List Char) :=
  (ts.filter Token.isSignificant).map Token.text

theorem significant_append (ts us : List Token) :
    significant (ts ++ us) = significant ts ++ significant us := by
  simp [significant]

theorem significant_flatMap {α : Type} (xs : List α) (f : α → List Token) :
    significant (xs.flatMap f) = xs.flatMap fun x => significant (f x) := by
  simp [significant, List.filter_flatMap, List.map_flatMap]

theorem significant_qualifiers (ms : List Move) :
    significant (ms.map fun m => ⟨.keyword, m.qualifier.text⟩) = ms.map (·.qualifier.text) := by
  have hall : ∀ t ∈ ms.map fun m => (⟨.keyword, m.qualifier.text⟩ : Token),
      t.isSignificant = true := by
    intro t ht
    obtain ⟨m, -, rfl⟩ := List.mem_map.1 ht
    rfl
  rw [significant, List.filter_eq_self.2 hall, List.map_map]
  rfl

/-- Whitespace holds no significant text. -/
theorem significant_solidTokens (source : List Char) :
    significant (solidTokens source) = significant (tokens source) := by
  have hsig : ∀ t : Token, (t.isSignificant && t.kind != .whitespace) = t.isSignificant := by
    intro t
    cases hk : t.kind <;> simp [Token.isSignificant, Token.isTrivia, hk]
  rw [significant, significant, solidTokens, List.filter_filter]
  simp only [hsig]

/-- What is significant in one token stays, or it is a qualifier that is moved. -/
theorem significant_token {t : Token} {i : Nat} (ht : (tokens source)[i]? = some t) :
    significant [t] = significant ((planOf options source).kept t i) ++
      ((planOf options source).moves.filter (·.index == i)).map (·.qualifier.text) := by
  cases hr : (planOf options source).removes i with
  | true =>
    obtain ⟨move, hmove, hq⟩ := exists_move_of_removes hr ht
    rw [hmove, Plan.kept, if_pos (by simp [hr])]
    simp [significant, Token.isSignificant, Token.isTrivia, Token.kind_of_qualifier hq,
      Token.text_of_qualifier hq]
  | false =>
    rw [Plan.filter_index_eq_nil hr, Plan.kept, hr]
    by_cases hk : t.kind = .whitespace
    · simp [significant, Token.isSignificant, Token.isTrivia, hk]
    · simp [hk]

/-- Collecting the moves token by token, by any of their indices, gives each of them once. -/
theorem flatMap_moves_perm {key : Move → Nat}
    (h : ∀ m ∈ (planOf options source).moves, key m < (tokens source).length) :
    ((tokens source).zipIdx.flatMap fun (_, k) =>
      ((planOf options source).moves.filter (key · == k)).map (·.qualifier.text)).Perm
      ((planOf options source).moves.map (·.qualifier.text)) := by
  have hrange : (tokens source).zipIdx.map Prod.snd = List.range (tokens source).length := by
    simp [List.range_eq_range']
  have := (flatMap_filter_perm h).map (·.qualifier.text)
  rw [← hrange, List.flatMap_map, List.map_flatMap] at this
  exact this

/-- Carrying a plan out only changes the order of the significant tokens. -/
theorem carryOut_perm :
    (significant ((planOf options source).carryOut (tokens source))).Perm
      (significant (tokens source)) := by
  have hsource : significant (tokens source) = (tokens source).zipIdx.flatMap fun (t, k) =>
      significant ((planOf options source).kept t k) ++
        ((planOf options source).moves.filter (·.index == k)).map (·.qualifier.text) := by
    have htokens : tokens source = (tokens source).zipIdx.flatMap fun (t, _) => [t] := by
      rw [← List.map_eq_flatMap]
      exact (List.zipIdx_map_fst 0 _).symm
    conv => lhs; rw [htokens, significant_flatMap]
    refine List.flatMap_congr fun ⟨t, k⟩ hmem => significant_token ?_
    exact List.mem_zipIdx_iff_getElem?.1 hmem
  have houtput : significant ((planOf options source).carryOut (tokens source)) =
      (tokens source).zipIdx.flatMap fun (t, k) =>
        significant ((planOf options source).kept t k) ++
          ((planOf options source).moves.filter (·.anchor == k)).map (·.qualifier.text) := by
    rw [Plan.carryOut, significant_flatMap]
    refine List.flatMap_congr fun ⟨t, k⟩ _ => ?_
    dsimp only
    rw [Plan.carry, significant_append, significant_qualifiers]
  rw [hsource, houtput]
  refine (List.flatMap_append_perm _ _ _).symm.trans (.trans ?_ (List.flatMap_append_perm _ _ _))
  have hanchor := flatMap_moves_perm (anchor_lt_length options source)
  have hindex := flatMap_moves_perm (index_lt_length options source)
  exact (hanchor.trans hindex.symm).append_left _

/-! ## Openings that are kept -/

theorem closed_of_bodyLength {text : List Char} {closed : Bool}
    (h : Lexeme.Raw.bodyLength text = (0, closed)) : closed = false := by
  unfold Lexeme.Raw.bodyLength at h
  dsimp only at h
  split at h
  · simpa using h.symm
  · split at h
    · split at h
      · simp at h
      · simpa using (Prod.mk.inj h).2.symm
    · simpa using h.symm

/-- An opening that comes to open a raw string is not read as itself. -/
theorem solid_of_not_keepsOpening {i : Nat} {l : Lexeme} (hl : (Lexeme.lexemes source)[i]? = some l)
    (hbare : l.isBareOpening = true)
    (hraw : Lexeme.Raw.bodyLength (outFrom options source (i + 1)) ≠ (0, false)) :
    (planOf options source).carry (Token.ofLexeme l) i = [Token.ofLexeme l] ∧
      ∃ l' ls, Lexeme.solid (outFrom options source i) = l' :: ls ∧ l'.text ≠ l.text := by
  obtain ⟨ht, -⟩ := getElem?_of_lexemes hl
  rw [Lexeme.isBareOpening, Bool.and_eq_true, beq_iff_eq, List.any_eq_true] at hbare
  obtain ⟨hk, word, hw, htext⟩ := hbare
  rw [beq_iff_eq] at htext
  have hkind : (Token.ofLexeme l).kind = .literal := by simp [Token.ofLexeme, Token.kindOf, hk]
  have hr := removes_of_kind options ht (by simp [hkind])
  have he : (Token.ofLexeme l).endsType = false :=
    endsType_of_kind (by simp [Token.isWord, hkind]) (by simp [hkind])
  refine ⟨?_, ?_⟩
  · rw [Plan.carry, Plan.kept, filter_anchor_eq_nil ht he, if_neg (by simp [hr, hkind])]
    rfl
  · generalize hout : outFrom options source (i + 1) = rest at hraw
    obtain ⟨n, closed, hbody⟩ : ∃ n closed, Lexeme.Raw.bodyLength rest = (n, closed) := ⟨_, _, rfl⟩
    have hle : n ≤ rest.length := by simpa [hbody] using Lexeme.Raw.bodyLength_le rest
    have hne : n ≠ 0 := by
      rintro rfl
      exact hraw (by rw [hbody, closed_of_bodyLength hbody])
    have hreads : Lexeme.Reads (l.text ++ rest.take n) (rest.drop n) .rawString closed := by
      refine Lexeme.reads_rawString_iff.2 ⟨word, hw, rest.take n, by rw [htext], ?_⟩
      rw [List.take_append_drop, hbody, List.length_take_of_le hle]
    refine ⟨⟨.rawString, l.text ++ rest.take n, closed⟩, Lexeme.solid (rest.drop n), ?_, ?_⟩
    · rw [outFrom_cons ht, piece_of_solid ht (by simp [hkind]) hr, insertion_eq_nil ht he,
        List.append_nil, hout, ← hreads.solid (by simp), List.append_assoc, List.take_append_drop]
      rfl
    · intro h
      have := congrArg List.length h
      rw [List.length_append, List.length_take_of_le hle] at this
      omega

/-- The tokens of the output are those of the source with the plan carried out exactly if the
openings are kept. -/
theorem keepsOpening_iff :
    (∀ k, KeepsOpening options source k) ↔
      solidTokens (outFrom options source 0) =
        (planOf options source).carryOut (tokens source) := by
  refine ⟨solidTokens_output, fun h k => ?_⟩
  -- At the first opening that is not kept, one side goes on with it and the other with a raw
  -- string.
  induction k using Nat.strongRecOn with
  | _ k ih =>
    intro l hl hbare
    by_contra hraw
    obtain ⟨hcarry, l', ls, hsolid, hne⟩ := solid_of_not_keepsOpening hl hbare hraw
    obtain ⟨ht, hk⟩ := getElem?_of_lexemes hl
    have hsplit : (tokens source).zipIdx = (tokens source).zipIdx.take k ++
        (Token.ofLexeme l, k) :: (tokens source).zipIdx.drop (k + 1) := by
      have hlt : k < (tokens source).zipIdx.length := by
        rw [List.length_zipIdx]
        omega
      have hget : (tokens source).zipIdx[k] = (Token.ofLexeme l, k) := by
        rw [← Option.some_inj, ← List.getElem?_eq_getElem hlt, List.getElem?_zipIdx, ht]
        simp
      rw [← hget, ← List.drop_eq_getElem_cons hlt, List.take_append_drop]
    rw [solidTokens_eq, tokens_take (Nat.le_of_lt hk) ih, Plan.carryOut, List.append_assoc] at h
    conv at h => rhs; rw [hsplit, List.flatMap_append]
    have hrest := List.append_cancel_left h
    rw [hsolid, List.flatMap_cons] at hrest
    dsimp only at hrest
    rw [hcarry] at hrest
    exact hne (congrArg Token.text (List.cons.inj hrest).1)

/-- A relocation reads as its source with the plan carried out, no token made, lost, joined or cut,
exactly if every opening of a raw string that opens none still opens none; and then it has the
significant texts of its source. -/
theorem significantTexts_relocated {r : Relocated} (hrel : relocate options source = .ok r) :
    ((∀ k, KeepsOpening options source k) ↔
      solidTokens r.output = (Plan.ofTokens options (tokens source)).carryOut (tokens source)) ∧
    ((∀ k, KeepsOpening options source k) →
      significantTexts r.output = significantTexts source) := by
  rw [output_of_relocate hrel]
  refine ⟨keepsOpening_iff, fun h => mergeSort_inOrder_eq ?_⟩
  have hperm : (significant (solidTokens (outFrom options source 0))).Perm
      (significant (tokens source)) := by
    rw [solidTokens_output h]
    exact carryOut_perm
  rwa [significant_solidTokens] at hperm

end

/-- An opening with no raw string after it, before a qualifier that moves. -/
theorem significantTexts_of_opening :
    ∃ r, relocate {} "R\")=const T<(x)> y;".toList = .ok r ∧
      (∀ k, KeepsOpening {} "R\")=const T<(x)> y;".toList k) ∧
      significantTexts r.output = significantTexts "R\")=const T<(x)> y;".toList := by
  obtain ⟨hout, hcarry⟩ :
      (relocate {} "R\")=const T<(x)> y;".toList).toOption.map Relocated.output =
          some "R\")=T<(x)> const y;".toList ∧
        solidTokens "R\")=T<(x)> const y;".toList =
          (Plan.ofTokens {} (tokens "R\")=const T<(x)> y;".toList)).carryOut
            (tokens "R\")=const T<(x)> y;".toList) := by decide +kernel
  obtain ⟨r, hrel, hr⟩ := exists_relocated hout
  obtain ⟨hiff, hconserved⟩ := significantTexts_relocated hrel
  have hkeeps := hiff.2 (by rw [hr, hcarry])
  exact ⟨r, hrel, hkeeps, hconserved hkeeps⟩

/-- An opening that opens no raw string comes to open one when the qualifier after it goes. -/
theorem significantTexts_ne_of_opening :
    ∃ r, relocate {} "R\"=const T<(x)> y;".toList = .ok r ∧
      significantTexts r.output ≠ significantTexts "R\"=const T<(x)> y;".toList := by
  have hout : (relocate {} "R\"=const T<(x)> y;".toList).toOption.map Relocated.output =
      some "R\"=T<(x)> const y;".toList := by decide +kernel
  obtain ⟨r, hrel, hr⟩ := exists_relocated hout
  refine ⟨r, hrel, fun h => ?_⟩
  have hlen := congrArg List.length h
  simp only [significantTexts, List.length_mergeSort, hr] at hlen
  exact absurd hlen (by decide +kernel)

end EastConst
