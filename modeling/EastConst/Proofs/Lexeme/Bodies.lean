import EastConst.Lexeme.Scan

/-!
# How far the body of a lexeme looks

A comment or literal that is closed does not see the text after its end: `Quoted.bodyLength_closed`,
`Comment.blockLength_closed` and `Raw.bodyLength_closed` read the same body whatever follows it. A
line comment or an open literal stops at the end of a line and sees which line break is there, and
nothing more (`StopsLike`): `Comment.lineLength_take_append`, `Quoted.bodyLength_open`. A number
sees at most the two characters after it (`Number.tailLength_append`).
-/

namespace EastConst.Lexeme

/-- The line break that a text starts with. The end of the text counts as an empty one. -/
def lineBreak? : List Char → Option (List Char)
  | [] => some []
  | '\n' :: _ => some ['\n']
  | '\r' :: '\n' :: _ => some ['\r', '\n']
  | _ => none

@[simp]
theorem lineBreak?_eq_nil {t : List Char} : lineBreak? t = some [] ↔ t = [] := by
  unfold lineBreak?
  split <;> simp_all

theorem lineBreak?_eq_lf {t : List Char} : lineBreak? t = some ['\n'] ↔ ∃ u, t = '\n' :: u := by
  unfold lineBreak?
  split <;> simp_all

theorem lineBreak?_eq_crlf {t : List Char} :
    lineBreak? t = some ['\r', '\n'] ↔ ∃ u, t = '\r' :: '\n' :: u := by
  unfold lineBreak?
  split <;> simp_all

/-- What stops before `r` at the end of its line stops before `r'` too: there is no more text, or
the line break is the same. -/
def StopsLike (r r' : List Char) : Prop :=
  r' = [] ∨ lineBreak? r' = lineBreak? r

/-- Where the one text ends, the other does. -/
theorem StopsLike.nil {r' : List Char} (h : StopsLike [] r') : r' = [] :=
  h.elim id fun h => lineBreak?_eq_nil.1 h

section Join

variable {text s : List Char} {m : Nat} (h : StopsLike (text.drop m) s)

include h in
theorem head_lf_of_take_append {u : List Char} (he : text.take m ++ s = '\n' :: u) :
    ∃ v, text = '\n' :: v := by
  cases m with
  | zero =>
    obtain rfl : s = '\n' :: u := by simpa using he
    exact h.elim (fun h => by cases h) fun h => lineBreak?_eq_lf.1 h.symm
  | succ m =>
    cases text with
    | nil =>
      obtain rfl : s = '\n' :: u := by simpa using he
      cases h.nil
    | cons c text =>
      simp only [List.take_succ_cons, List.cons_append, List.cons.injEq] at he
      exact ⟨text, by rw [he.1]⟩

include h in
/-- A line break is not made by what follows a cut: if a text starts with one, so did the text that
was cut. -/
theorem head_crlf_of_take_append {u : List Char} (he : text.take m ++ s = '\r' :: '\n' :: u) :
    ∃ v, text = '\r' :: '\n' :: v := by
  cases m with
  | zero =>
    obtain rfl : s = '\r' :: '\n' :: u := by simpa using he
    exact h.elim (fun h => by cases h) fun h => lineBreak?_eq_crlf.1 h.symm
  | succ m =>
    cases text with
    | nil =>
      obtain rfl : s = '\r' :: '\n' :: u := by simpa using he
      cases h.nil
    | cons c text =>
      simp only [List.take_succ_cons, List.cons_append, List.cons.injEq] at he
      obtain ⟨rfl, he⟩ := he
      have h' : StopsLike (text.drop m) s := h
      obtain ⟨v, rfl⟩ := head_lf_of_take_append h' he
      exact ⟨v, rfl⟩

end Join

/-! ## Comments -/

namespace Comment

/-- A line comment sees which line break ends it. -/
theorem lineLength_take_append (t : List Char) :
    lineLength t ≤ t.length ∧ (lineBreak? (t.drop (lineLength t))).isSome ∧
      ∀ s, StopsLike (t.drop (lineLength t)) s →
        lineLength (t.take (lineLength t) ++ s) = lineLength t := by
  fun_induction lineLength t with
  | case1 text ih =>
    obtain ⟨hle, hb, hs⟩ := ih
    refine ⟨by simp; omega, by simpa using hb, fun s h => ?_⟩
    simp [lineLength, hs s (by simpa using h)]
  | case2 text ih =>
    obtain ⟨hle, hb, hs⟩ := ih
    refine ⟨by simp; omega, by simpa using hb, fun s h => ?_⟩
    simp [lineLength, hs s (by simpa using h)]
  | case3 tail =>
    refine ⟨by simp, rfl, fun s h => ?_⟩
    rcases h with rfl | h
    · rfl
    · obtain ⟨u, rfl⟩ := lineBreak?_eq_crlf.1 h
      simp [lineLength]
  | case4 tail =>
    refine ⟨by simp, rfl, fun s h => ?_⟩
    rcases h with rfl | h
    · rfl
    · obtain ⟨u, rfl⟩ := lineBreak?_eq_lf.1 h
      simp [lineLength]
  | case5 c text h1 h2 h3 h4 ih =>
    obtain ⟨hle, hb, hs⟩ := ih
    refine ⟨by simp; omega, by simpa using hb, fun s h => ?_⟩
    have h : StopsLike (text.drop (lineLength text)) s := by simpa using h
    rw [List.take_succ_cons, List.cons_append, lineLength, hs s h]
    · intro u hc he
      obtain ⟨v, hv⟩ := head_lf_of_take_append h he
      exact h1 v hc hv
    · intro u hc he
      obtain ⟨v, hv⟩ := head_crlf_of_take_append h he
      exact h2 v hc hv
    · intro u hc he
      obtain ⟨v, hv⟩ := head_lf_of_take_append h he
      exact h3 v hc hv
    · exact h4
  | case6 =>
    refine ⟨by simp, rfl, fun s h => ?_⟩
    obtain rfl : s = [] := h.nil
    rfl

/-- A closed block comment does not see what follows it. -/
theorem blockLength_closed {t : List Char} {n : Nat} (h : blockLength t = (n, true)) :
    n ≤ t.length ∧ ∀ s, blockLength (t.take n ++ s) = (n, true) := by
  fun_induction blockLength t generalizing n with
  | case1 tail =>
    obtain rfl : 2 = n := by simpa using h
    exact ⟨by simp, fun s => by simp [blockLength]⟩
  | case2 c text hne m closed hm ih =>
    simp only [Prod.mk.injEq] at h
    obtain ⟨rfl, rfl⟩ := h
    obtain ⟨hle, hs⟩ := ih hm
    refine ⟨by simp; omega, fun s => ?_⟩
    rw [List.take_succ_cons, List.cons_append, blockLength, hs s]
    intro u hc he
    cases m with
    | zero =>
      have := hs ['/']
      simp [blockLength] at this
    | succ m =>
      cases text with
      | nil => simp at hle
      | cons d text =>
        simp only [List.take_succ_cons, List.cons_append, List.cons.injEq] at he
        exact hne text hc (by rw [he.1])
  | case3 => simp at h

/-- An open block comment runs to the end of the text. -/
theorem blockLength_open {t : List Char} {n : Nat} (h : blockLength t = (n, false)) :
    n = t.length := by
  fun_induction blockLength t generalizing n with
  | case1 tail => simp at h
  | case2 c text hne m closed hm ih =>
    simp only [Prod.mk.injEq] at h
    obtain ⟨rfl, rfl⟩ := h
    simp [ih hm]
  | case3 => simpa using h.symm

end Comment

/-! ## Quoted literals -/

namespace Quoted

variable {quote : Char}

/-- A closed literal does not see what follows it. -/
theorem bodyLength_closed (hq : quote ≠ '\\' ∧ quote ≠ '\r') {t : List Char} {n : Nat}
    (h : bodyLength quote t = (n, true)) :
    0 < n ∧ n ≤ t.length ∧ ∀ s, bodyLength quote (t.take n ++ s) = (n, true) := by
  fun_induction bodyLength quote t generalizing n with
  | case1 => simp at h
  | case2 text m closed hm ih =>
    simp only [Prod.mk.injEq] at h
    obtain ⟨rfl, rfl⟩ := h
    obtain ⟨-, hle, hs⟩ := ih hm
    exact ⟨by omega, by simp; omega, fun s => by simp [bodyLength, hs]⟩
  | case3 c text hne m closed hm ih =>
    simp only [Prod.mk.injEq] at h
    obtain ⟨rfl, rfl⟩ := h
    obtain ⟨hpos, hle, hs⟩ := ih hm
    refine ⟨by omega, by simp; omega, fun s => ?_⟩
    obtain ⟨k, rfl⟩ : ∃ k, m = k + 1 := ⟨m - 1, by omega⟩
    obtain ⟨d, text, rfl⟩ := List.exists_cons_of_length_pos (by omega : 0 < text.length)
    have hread := hs s
    simp only [List.take_succ_cons, List.cons_append] at hread ⊢
    rw [bodyLength, hread]
    intro u hc he
    exact hne text hc (by rw [(List.cons.inj he).1])
  | case4 => simp at h
  | case5 => simp at h
  | case6 text h1 h2 h3 h4 =>
    obtain rfl : 1 = n := by simpa using h
    refine ⟨by omega, by simp, fun s => ?_⟩
    rw [List.take_succ_cons, List.take_zero, List.cons_append, List.nil_append, bodyLength]
    · simp
    · intro u hc; exact absurd hc hq.1
    · intro x u hc; exact absurd hc hq.1
    · intro u hc; exact absurd hc hq.2
    · exact h4
  | case7 c text h1 h2 h3 h4 hne m closed hm ih =>
    simp only [Prod.mk.injEq] at h
    obtain ⟨rfl, rfl⟩ := h
    obtain ⟨hpos, hle, hs⟩ := ih hm
    refine ⟨by omega, by simp; omega, fun s => ?_⟩
    obtain ⟨k, rfl⟩ : ∃ k, m = k + 1 := ⟨m - 1, by omega⟩
    obtain ⟨d, text, rfl⟩ := List.exists_cons_of_length_pos (by omega : 0 < text.length)
    have hread := hs s
    simp only [List.take_succ_cons, List.cons_append] at hread ⊢
    rw [bodyLength, hread]
    · simp [hne]
    · intro u hc he; exact h2 d text hc rfl
    · intro x u hc he; exact h2 d text hc rfl
    · intro u hc he; exact h3 text hc (by rw [(List.cons.inj he).1])
    · exact h4

/-- An open literal sees which line break ends it. -/
theorem bodyLength_open {t : List Char} {n : Nat} (h : bodyLength quote t = (n, false)) :
    n ≤ t.length ∧ (lineBreak? (t.drop n)).isSome ∧
      ∀ s, StopsLike (t.drop n) s → bodyLength quote (t.take n ++ s) = (n, false) := by
  fun_induction bodyLength quote t generalizing n with
  | case1 =>
    obtain rfl : 0 = n := by simpa using h
    refine ⟨by simp, rfl, fun s hs => ?_⟩
    obtain rfl : s = [] := hs.nil
    rfl
  | case2 text m closed hm ih =>
    simp only [Prod.mk.injEq] at h
    obtain ⟨rfl, rfl⟩ := h
    obtain ⟨hle, hb, hs⟩ := ih hm
    refine ⟨by simp; omega, by simpa using hb, fun s h => ?_⟩
    simp [bodyLength, hs s (by simpa using h)]
  | case3 c text hne m closed hm ih =>
    simp only [Prod.mk.injEq] at h
    obtain ⟨rfl, rfl⟩ := h
    obtain ⟨hle, hb, hs⟩ := ih hm
    refine ⟨by simp; omega, by simpa using hb, fun s h => ?_⟩
    have h : StopsLike (text.drop m) s := by simpa using h
    rw [List.take_succ_cons, List.take_succ_cons, List.cons_append, List.cons_append, bodyLength,
      hs s h]
    intro u hc he
    obtain ⟨v, hv⟩ := head_lf_of_take_append h he
    exact hne v hc hv
  | case4 tail =>
    obtain rfl : 0 = n := by simpa using h
    refine ⟨by simp, rfl, fun s hs => ?_⟩
    rcases hs with rfl | hs
    · rfl
    · obtain ⟨u, rfl⟩ := lineBreak?_eq_crlf.1 hs
      simp [bodyLength]
  | case5 tail =>
    obtain rfl : 0 = n := by simpa using h
    refine ⟨by simp, rfl, fun s hs => ?_⟩
    rcases hs with rfl | hs
    · rfl
    · obtain ⟨u, rfl⟩ := lineBreak?_eq_lf.1 hs
      simp [bodyLength]
  | case6 text h1 h2 h3 h4 => simp at h
  | case7 c text h1 h2 h3 h4 hne m closed hm ih =>
    simp only [Prod.mk.injEq] at h
    obtain ⟨rfl, rfl⟩ := h
    obtain ⟨hle, hb, hs⟩ := ih hm
    refine ⟨by simp; omega, by simpa using hb, fun s h => ?_⟩
    have h : StopsLike (text.drop m) s := by simpa using h
    -- a backslash stands here only at the very end of the text
    have hesc : c = '\\' → text.take m ++ s = [] := by
      intro hc
      cases text with
      | nil => simpa using StopsLike.nil (by simpa using h)
      | cons d text => exact (h2 d text hc rfl).elim
    rw [List.take_succ_cons, List.cons_append, bodyLength, hs s h]
    · simp [hne]
    · intro u hc he; rw [hesc hc] at he; cases he
    · intro x u hc he; rw [hesc hc] at he; cases he
    · intro u hc he
      obtain ⟨v, hv⟩ := head_lf_of_take_append h he
      exact h3 v hc hv
    · exact h4

end Quoted

/-! ## Raw strings -/

namespace Raw

theorem isPrefixOf_take_append {closing t : List Char} {n : Nat} (hn : closing.length ≤ n)
    (ht : n ≤ t.length) (s : List Char) :
    closing.isPrefixOf (t.take n ++ s) = closing.isPrefixOf t := by
  rw [Bool.eq_iff_iff, List.isPrefixOf_iff_prefix, List.isPrefixOf_iff_prefix]
  constructor
  · intro hp
    have hlen : closing.length ≤ (t.take n).length := by simp; omega
    exact (List.prefix_of_prefix_length_le hp (List.prefix_append _ s) hlen).trans
      ( List.take_prefix n t)
  · intro hp
    exact (List.prefix_take_iff.2 ⟨hp, hn⟩).trans (List.prefix_append _ s)

/-- Where a delimiter is found does not depend on what follows it. -/
theorem lengthThrough?_eq_some {closing t : List Char} {n : Nat} (hc : closing ≠ [])
    (h : lengthThrough? closing t = some n) :
    closing.length ≤ n ∧ n ≤ t.length ∧ ∀ s, lengthThrough? closing (t.take n ++ s) = some n := by
  have hpos : 0 < closing.length := List.length_pos_iff.2 hc
  induction t generalizing n with
  | nil => simp [lengthThrough?] at h
  | cons c t ih =>
    unfold lengthThrough? at h
    split at h
    · rename_i hp
      obtain rfl : closing.length = n := by simpa using h
      have hle := (List.isPrefixOf_iff_prefix.1 hp).length_le
      refine ⟨Nat.le_refl _, hle, fun s => ?_⟩
      obtain ⟨k, hk⟩ : ∃ k, closing.length = k + 1 := ⟨closing.length - 1, by omega⟩
      have hsame := isPrefixOf_take_append (Nat.le_refl _) hle s
      rw [hk, List.take_succ_cons, List.cons_append] at hsame ⊢
      rw [lengthThrough?, hsame, hp, if_pos rfl, hk]
    · rename_i hp
      obtain ⟨m, hm, rfl⟩ := Option.map_eq_some_iff.1 h
      obtain ⟨hle, hlt, hs⟩ := ih hm
      refine ⟨by omega, by simp; omega, fun s => ?_⟩
      have hsame : closing.isPrefixOf ((c :: t).take (m + 1) ++ s) = closing.isPrefixOf (c :: t) :=
        isPrefixOf_take_append (by omega) (by simp; omega) s
      rw [List.take_succ_cons, List.cons_append] at hsame ⊢
      rw [lengthThrough?, hsame, if_neg hp, hs s]
      rfl

theorem takeWhile_append_cons {p : Char → Bool} {t : List Char} {opening : Char}
    (hp : p opening = false) (s : List Char) :
    (t.takeWhile p ++ opening :: s).takeWhile p = t.takeWhile p := by
  rw [List.takeWhile_append_of_pos (List.all_eq_true.1 List.all_takeWhile)]
  simp [hp]

theorem eq_append_of_drop_takeWhile {p : Char → Bool} {t body : List Char} {opening : Char}
    (h : t.drop (t.takeWhile p).length = opening :: body) :
    t = t.takeWhile p ++ opening :: body ∧ p opening = false := by
  have happ : t = t.takeWhile p ++ opening :: body := by
    have htake := List.prefix_iff_eq_take.1 ( List.takeWhile_prefix (l := t) p)
    rw [← h]
    conv => lhs; rw [← List.take_append_drop (t.takeWhile p).length t]
    rw [← htake]
  refine ⟨happ, ?_⟩
  have hself : t.takeWhile p = (t.takeWhile p ++ opening :: body).takeWhile p := by rw [← happ]
  rw [List.takeWhile_append_of_pos (List.all_eq_true.1 List.all_takeWhile)] at hself
  have hnil : (opening :: body).takeWhile p = [] := by simpa using hself
  cases hp : p opening with
  | false => rfl
  | true => simp [hp] at hnil

/-- A closed raw string does not see what follows it. -/
theorem bodyLength_closed {t : List Char} {n : Nat} (h : bodyLength t = (n, true)) :
    n ≤ t.length ∧ ∀ s, bodyLength (t.take n ++ s) = (n, true) := by
  unfold bodyLength at h
  dsimp only at h
  split at h
  · simp at h
  · rename_i opening body hdrop
    obtain ⟨happ, hp⟩ := eq_append_of_drop_takeWhile hdrop
    split at h
    · rename_i hd
      split at h
      · rename_i m hm
        obtain ⟨-, hle, hs⟩ := lengthThrough?_eq_some (by simp) hm
        generalize hg : t.takeWhile (· != '(') = delimiter at *
        have hlen : t.length = delimiter.length + (body.length + 1) := by rw [happ]; simp
        obtain rfl : delimiter.length + 1 + m = n := by simpa using h
        refine ⟨by omega, fun s => ?_⟩
        have htake : t.take (delimiter.length + 1 + m) ++ s =
            delimiter ++ opening :: (body.take m ++ s) := by
          rw [happ, Nat.add_assoc, List.take_length_add_append, Nat.add_comm 1 m]
          simp
        have hword : (delimiter ++ opening :: (body.take m ++ s)).takeWhile (· != '(') =
            delimiter := by
          rw [← hg]; exact takeWhile_append_cons (p := (· != '(')) hp _
        rw [htake]
        unfold bodyLength
        dsimp only
        rw [hword, List.drop_left]
        simp only [hd, ↓reduceIte, hs s]
      · simp at h
    · simp at h

/-- An open raw string is its opening alone or runs to the end of the text. -/
theorem bodyLength_open {t : List Char} {n : Nat} (h : bodyLength t = (n, false)) :
    n = 0 ∨ n = t.length := by
  unfold bodyLength at h
  dsimp only at h
  split at h
  · exact .inl (by simpa using h.symm)
  · rename_i opening body hdrop
    obtain ⟨happ, -⟩ := eq_append_of_drop_takeWhile hdrop
    split at h
    · split at h
      · simp at h
      · have hlen := congrArg List.length happ
        rw [List.length_append] at hlen
        simp only [Prod.mk.injEq, and_true] at h
        exact .inr (by omega)
    · exact .inl (by simpa using h.symm)

end Raw

/-! ## Numbers -/

namespace Number

/-- Whether a sign comes next in a text. -/
def signAhead (t : List Char) : Bool :=
  t.head?.any isSign

/-- A number that stops before a text stops before any other that does not go on with one, unless a
sign comes to stand after an exponent. -/
theorem tailLength_append {r r' : List Char} (hstop : tailLength r' = 0)
    (hsign : signAhead r' → signAhead r) :
    ∀ {b : List Char}, tailLength (b ++ r) = b.length → tailLength (b ++ r') = b.length
  | [], _ => by simpa using hstop
  | [c], h => by
    cases r with
    | nil =>
      cases r' with
      | nil => exact h
      | cons d' t' =>
        have hd' : isSign d' = false := Bool.eq_false_iff.2 fun hs => by cases hsign hs
        simp only [List.singleton_append, tailLength, List.length_singleton, List.append_nil] at h ⊢
        split at h
        · rename_i hc
          have hq : (c == '\'') = false := by
            rw [beq_eq_false_iff_ne]; rintro rfl; revert hc; decide
          simp [hq, hd', hc, hstop]
        · cases h
    | cons d t =>
      simp only [List.singleton_append, tailLength, List.length_singleton] at h
      split at h
      · split at h <;> omega
      · rename_i hq
        split at h
        · omega
        · rename_i he
          split at h
          · rename_i hc
            cases r' with
            | nil => simp [tailLength, hc]
            | cons d' t' =>
              have hne : (isExponent c && isSign d') = false := by
                cases hs : isSign d' with
                | false => simp
                | true =>
                  have hd : isSign d = true := hsign hs
                  simpa [hd] using he
              simp [tailLength, hq, hne, hc, hstop]
          · cases h
  | c :: d :: b, h => by
    simp only [List.cons_append, tailLength, List.length_cons] at h ⊢
    split at h
    · rename_i hq
      split at h
      · rename_i hd
        rw [if_pos hq, if_pos hd, tailLength_append hstop hsign (by omega)]
      · cases h
    · rename_i hq
      split at h
      · rename_i he
        rw [if_neg hq, if_pos he, tailLength_append hstop hsign (by omega)]
      · rename_i he
        split at h
        · rename_i hc
          have := tailLength_append hstop hsign (b := d :: b) (by simpa using h)
          rw [if_neg hq, if_neg he, if_pos hc]
          simpa using this
        · cases h

end Number

end EastConst.Lexeme
