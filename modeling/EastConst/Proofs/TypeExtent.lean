import EastConst.Proofs.TypeExtent.Phrase
import Mathlib.Data.List.Basic

/-!
# Where a type starts and ends

The type that `TypeExtent.find` finds starts with a word or `::`, and ends with a name, a word of a
fundamental type, or the bracket that closes template arguments or an operand. Both are tokens of
the stretch that was looked at (`find_eq_ok`), and the significant tokens between them are a phrase
(`phrase_of_find`).
-/

namespace EastConst

/-- Whether a token may start a type. -/
def Token.startsType (t : Token) : Bool :=
  t.isWord || t.isMark .scope

/-- Whether a token may end a type. -/
def Token.endsType (t : Token) : Bool :=
  t.kind == .identifier || t.isBuiltinType || t.isMark .greater || t.isMark .greaterGreater ||
    t.isMark .parenClose

theorem Token.isSignificant_of_startsType {t : Token} (h : t.startsType = true) :
    t.isSignificant = true := by
  have hkind : t.kind = .keyword ∨ t.kind = .identifier ∨ t.kind = .punctuation := by
    cases hk : t.kind <;>
      simp [Token.startsType, Token.isWord, Token.isMark, Token.mark?, hk] at h ⊢
  rcases hkind with hk | hk | hk <;> simp [Token.isSignificant, Token.isTrivia, hk]

namespace TypeExtent

/-! ## The tokens that are looked at -/

theorem mem_significantFrom {stop index i : Nat} {ts : List Token} {t : Token}
    (h : (t, i) ∈ significantFrom stop index ts) :
    index ≤ i ∧ i < stop ∧ ts[i - index]? = some t ∧ t.isSignificant = true := by
  induction ts generalizing index with
  | nil => cases h
  | cons u ts ih =>
    unfold significantFrom at h
    split at h
    · cases h
    · rename_i hlt
      have hrest (h : (t, i) ∈ significantFrom stop (index + 1) ts) :
          index ≤ i ∧ i < stop ∧ (u :: ts)[i - index]? = some t ∧ t.isSignificant = true := by
        obtain ⟨hle, hi, ht, hs⟩ := ih h
        refine ⟨by omega, hi, ?_, hs⟩
        rw [show i - index = (i - (index + 1)) + 1 by omega, List.getElem?_cons_succ]
        exact ht
      split at h
      · rename_i hs
        rcases List.mem_cons.1 h with he | h
        · obtain ⟨rfl, rfl⟩ := Prod.mk.inj he
          exact ⟨Nat.le_refl _, by omega, by simp, hs⟩
        · exact hrest h
      · exact hrest h

/-- The significant tokens between two indices, each with its own. -/
theorem mem_significantBetween {tokens : List Token} {start stop i : Nat} {t : Token}
    (h : (t, i) ∈ significantBetween tokens start stop) :
    start ≤ i ∧ i < stop ∧ tokens[i]? = some t ∧ t.isSignificant = true := by
  obtain ⟨hle, hlt, ht, hs⟩ := mem_significantFrom h
  rw [List.getElem?_drop, Nat.add_sub_cancel' hle] at ht
  exact ⟨hle, hlt, ht, hs⟩

theorem significantBetween_cons {tokens : List Token} {start stop : Nat} {t : Token}
    (ht : tokens[start]? = some t) (hs : t.isSignificant = true) (hlt : start < stop) :
    significantBetween tokens start stop =
      (t, start) :: significantBetween tokens (start + 1) stop := by
  obtain ⟨hlen, rfl⟩ := List.getElem?_eq_some_iff.1 ht
  rw [significantBetween, List.drop_eq_getElem_cons hlen, significantFrom, if_neg (by omega),
    if_pos hs, significantBetween]

theorem significantBetween_of_le {tokens : List Token} {start stop : Nat} (h : stop ≤ start) :
    significantBetween tokens start stop = [] := by
  unfold significantBetween
  cases tokens.drop start with
  | nil => rfl
  | cons t rest => rw [significantFrom, if_pos h]

theorem significantBetween_skip {tokens : List Token} {start stop : Nat} {t : Token}
    (ht : tokens[start]? = some t) (hs : t.isSignificant = false) :
    significantBetween tokens start stop = significantBetween tokens (start + 1) stop := by
  obtain ⟨hlen, rfl⟩ := List.getElem?_eq_some_iff.1 ht
  by_cases hlt : start < stop
  · rw [significantBetween, List.drop_eq_getElem_cons hlen, significantFrom, if_neg (by omega),
      if_neg (by simp [hs]), significantBetween]
  · rw [significantBetween_of_le (by omega), significantBetween_of_le (by omega)]

/-- A stretch is cut at any index between its ends. -/
theorem significantBetween_append {tokens : List Token} {start mid stop : Nat} (h : start ≤ mid)
    (h' : mid ≤ stop) :
    significantBetween tokens start stop =
      significantBetween tokens start mid ++ significantBetween tokens mid stop := by
  obtain ⟨n, rfl⟩ := Nat.exists_eq_add_of_le h
  induction n generalizing start with
  | zero =>
    have hnil : significantBetween tokens start (start + 0) = [] :=
      significantBetween_of_le (Nat.le_refl _)
    rw [hnil]
    rfl
  | succ n ih =>
    cases ht : tokens[start]? with
    | none =>
      have hlen : tokens.length ≤ start := List.getElem?_eq_none_iff.1 ht
      have hnil (i : Nat) (hi : start ≤ i) (k : Nat) : significantBetween tokens i k = [] := by
        rw [significantBetween, List.drop_eq_nil_of_le (by omega), significantFrom]
      rw [hnil _ (by omega), hnil _ (by omega), hnil _ (by omega), List.append_nil]
    | some t =>
      have hrest := @ih (start + 1) (by omega) (by omega)
      rw [show start + 1 + n = start + (n + 1) by omega] at hrest
      cases hs : t.isSignificant with
      | true =>
        rw [significantBetween_cons ht hs (by omega),
          significantBetween_cons ht hs (by omega), hrest, List.cons_append]
      | false => rw [significantBetween_skip ht hs, significantBetween_skip ht hs, hrest]

theorem significantBetween_pairwise (tokens : List Token) (start stop : Nat) :
    (significantBetween tokens start stop).Pairwise (·.2 < ·.2) := by
  unfold significantBetween
  generalize tokens.drop start = ts
  induction ts generalizing start with
  | nil => exact .nil
  | cons t ts ih =>
    rw [significantFrom]
    split
    · exact .nil
    · split
      · refine List.pairwise_cons.2 ⟨fun e he => ?_, ih (start + 1)⟩
        exact (mem_significantFrom he).1
      · exact ih (start + 1)

theorem mem_significantBetween_of_lt {tokens : List Token} {start stop i : Nat} {t : Token}
    (hle : start ≤ i) (hlt : i < stop) (ht : tokens[i]? = some t) (hs : t.isSignificant = true) :
    (t, i) ∈ significantBetween tokens start stop := by
  rw [significantBetween_append hle (Nat.le_of_lt hlt), significantBetween_cons ht hs hlt]
  exact List.mem_append_right _ List.mem_cons_self

theorem significantBetween_concat {tokens : List Token} {start i : Nat} {t : Token}
    (hle : start ≤ i) (ht : tokens[i]? = some t) (hs : t.isSignificant = true) :
    significantBetween tokens start (i + 1) = significantBetween tokens start i ++ [(t, i)] := by
  rw [significantBetween_append hle (Nat.le_succ i),
    significantBetween_cons ht hs (Nat.lt_succ_self i), significantBetween_of_le (Nat.le_refl _)]

/-- The parts of a stretch before and after one of its tokens. -/
theorem significantBetween_eq_append {tokens : List Token} {start stop i : Nat} {t : Token}
    {init rest : List (Token × Nat)}
    (h : significantBetween tokens start stop = init ++ (t, i) :: rest) :
    init = significantBetween tokens start i ∧ rest = significantBetween tokens (i + 1) stop := by
  have hmem : (t, i) ∈ significantBetween tokens start stop := by
    rw [h]
    exact List.mem_append_right _ List.mem_cons_self
  obtain ⟨hle, hlt, ht, hs⟩ := mem_significantBetween hmem
  have hpair := significantBetween_pairwise tokens start stop
  rw [h, List.pairwise_append, List.pairwise_cons] at hpair
  obtain ⟨-, ⟨hrest, -⟩, hinit⟩ := hpair
  rw [significantBetween_append hle (Nat.le_of_lt hlt), significantBetween_cons ht hs hlt] at h
  -- the indices increase, so the token is in neither part
  have hcut := (List.append_cons_inj_of_notMem
    (fun hm => Nat.lt_irrefl _ (hinit _ hm _ List.mem_cons_self))
    (fun hm => Nat.lt_irrefl _ (hrest _ hm))).1 h.symm
  exact ⟨hcut.1, hcut.2.2⟩

/-- The significant tokens up to a bound are those of the tokens before it. -/
theorem map_fst_significantFrom (stop index : Nat) (ts : List Token) :
    (significantFrom stop index ts).map Prod.fst =
      (ts.take (stop - index)).filter Token.isSignificant := by
  fun_induction significantFrom stop index ts with
  | case1 => simp
  | case2 index t rest hle => simp [Nat.sub_eq_zero_of_le hle]
  | case3 index t rest hlt hs ih =>
    obtain ⟨n, hn⟩ : ∃ n, stop - index = n + 1 := ⟨stop - (index + 1), by omega⟩
    rw [List.map_cons, ih, hn, List.take_succ_cons, List.filter_cons_of_pos hs,
      show stop - (index + 1) = n by omega]
  | case4 index t rest hlt hs ih =>
    obtain ⟨n, hn⟩ : ∃ n, stop - index = n + 1 := ⟨stop - (index + 1), by omega⟩
    rw [ih, hn, List.take_succ_cons, List.filter_cons_of_neg hs,
      show stop - (index + 1) = n by omega]

/-- What is read between two indices is what counts for the grammar there. -/
theorem map_fst_significantBetween (ts : List Token) (start stop : Nat) :
    (significantBetween ts start stop).map Prod.fst =
      (ts.extract start stop).filter Token.isSignificant :=
  map_fst_significantFrom stop start (ts.drop start)

/-! ## The ends of a phrase -/

/-- The first token of a phrase starts a type. -/
theorem Phrase.startsType {t : Token} {ts : List Token} (h : Phrase (t :: ts)) :
    t.startsType = true := by
  have hkeyword {word : String} (ht : t.isKeyword word = true) : t.startsType = true := by
    simp only [Token.isKeyword, Bool.and_eq_true, beq_iff_eq] at ht
    simp [Token.startsType, Token.isWord, ht.1]
  cases h with
  | fundamental _ h =>
    have hword := (Bool.and_eq_true_iff.1 (h t List.mem_cons_self)).1
    simp [Token.startsType, hword]
  | name h =>
    cases h with
    | step ht _ =>
      cases ht with
      | global ht => simp [Token.startsType, ht]
      | template _ ht => exact hkeyword ht
      | identifier _ ht => simp [Token.startsType, Token.isWord, ht]
      | scope hs => simp at hs
  | elaborated ht => simp [Token.startsType, Token.isWord, ht]
  | decltype ht => exact hkeyword ht

/-- The last token of a name ends a type. -/
theorem Completes.endsType {state : NameState} {t : Token} {ts : List Token}
    (h : Completes state (ts ++ [t])) : t.endsType = true := by
  induction ts generalizing state with
  | nil =>
    cases h with
    | step ht hts =>
      cases hts with
      | identifier =>
        cases ht with
        | identifier _ ht => simp [Token.endsType, ht]
      | argued =>
        cases ht with
        | closed hd =>
          obtain ⟨-, -, ⟨hm, -⟩ | ⟨hm, -⟩⟩ := Depths.after_eq_closed hd <;>
            simp [Token.endsType, Token.isMark, hm]
  | cons u ts ih =>
    cases h with
    | step _ hts => exact ih hts

theorem Phrase.endsType {t : Token} {ts : List Token} (h : Phrase (ts ++ [t])) :
    t.endsType = true := by
  generalize hl : ts ++ [t] = l at h
  cases h with
  | fundamental _ h => simp [Token.endsType, h t (by rw [← hl]; simp)]
  | name h => exact (hl ▸ h).endsType
  | elaborated _ _ h =>
    cases ts with
    | nil =>
      obtain ⟨-, rfl⟩ := List.cons.inj hl
      cases h
    | cons u ts =>
      obtain ⟨-, rfl⟩ := List.cons.inj hl
      exact h.endsType
  | decltype _ _ h =>
    match ts, hl with
    | [], hl => simp at hl
    | [_], hl =>
      obtain ⟨-, hl⟩ := List.cons.inj hl
      obtain ⟨-, rfl⟩ := List.cons.inj hl
      cases h
    | _ :: _ :: ts, hl =>
      obtain ⟨-, hl⟩ := List.cons.inj hl
      obtain ⟨-, rfl⟩ := List.cons.inj hl
      simp [Token.endsType, Enclosure.isMark_of_operand h]

/-! ## The extent -/

/-- A type starts where looking starts and ends with one of the tokens that are looked at. -/
theorem scan_eq_ok {budget : Nat} {sig : List (Token × Nat)} {extent : TypeExtent}
    (h : scan budget sig = .ok extent) :
    (∃ t rest, sig = (t, extent.first) :: rest ∧ t.startsType = true) ∧
      ∃ t, (t, extent.last) ∈ sig ∧ t.endsType = true := by
  obtain ⟨⟨u, sig', hfirst⟩, init, t, rest, hsig, hphrase⟩ := scan_endsAt h
  constructor
  · refine ⟨u, sig', hfirst, ?_⟩
    rw [hfirst] at hsig
    cases init with
    | nil =>
      obtain ⟨hu, -⟩ := List.cons.inj hsig
      obtain ⟨rfl, -⟩ := Prod.mk.inj hu
      exact hphrase.startsType
    | cons e init =>
      obtain ⟨rfl, -⟩ := List.cons.inj hsig
      exact hphrase.startsType
  · exact ⟨t, by rw [hsig]; simp, hphrase.endsType⟩

theorem lt_of_find_eq_ok {budget start boundary : Nat} {tokens : List Token} {extent : TypeExtent}
    (h : find budget tokens start boundary = .ok extent) : start < boundary := by
  refine Decidable.byContradiction fun hle => ?_
  rw [find, significantBetween_of_le (by omega)] at h
  cases h

/-- A type that starts at a significant token ends in the stretch that is looked at. -/
theorem find_eq_ok {budget start boundary : Nat} {tokens : List Token} {extent : TypeExtent}
    {t : Token} (h : find budget tokens start boundary = .ok extent) (ht : tokens[start]? = some t)
    (hs : t.isSignificant = true) :
    extent.first = start ∧ t.startsType = true ∧ start ≤ extent.last ∧
      extent.last < boundary ∧ ∃ u, tokens[extent.last]? = some u ∧ u.endsType = true := by
  have hlt := lt_of_find_eq_ok h
  obtain ⟨⟨t', rest, hsig, hstart⟩, u, hu, hend⟩ := scan_eq_ok h
  obtain ⟨hle, hbound, hu', -⟩ := mem_significantBetween hu
  rw [significantBetween_cons ht hs hlt] at hsig
  obtain ⟨rfl, hfirst⟩ := Prod.mk.inj (List.cons.inj hsig).1
  exact ⟨hfirst.symm, hstart, hle, hbound, u, hu', hend⟩

/-- What ends at an index in a stretch is the stretch to that index. -/
theorem EndsAt.of_significantBetween {p : List Token → Prop} {tokens : List Token}
    {start stop last : Nat} (h : EndsAt p last (significantBetween tokens start stop)) :
    p ((significantBetween tokens start (last + 1)).map Prod.fst) := by
  obtain ⟨init, t, rest, hsig, hp⟩ := h
  have hmem : (t, last) ∈ significantBetween tokens start stop := by
    rw [hsig]
    exact List.mem_append_right _ List.mem_cons_self
  obtain ⟨hle, -, ht, hs⟩ := mem_significantBetween hmem
  rw [significantBetween_concat hle ht hs, ← (significantBetween_eq_append hsig).1, List.map_append]
  exact hp

/-- The significant tokens of a type are a phrase. -/
theorem phrase_of_find {budget start boundary : Nat} {tokens : List Token} {extent : TypeExtent}
    (h : find budget tokens start boundary = .ok extent) :
    Phrase ((significantBetween tokens start (extent.last + 1)).map Prod.fst) :=
  (scan_endsAt h).2.of_significantBetween

end TypeExtent

end EastConst
