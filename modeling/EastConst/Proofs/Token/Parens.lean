import EastConst.Directive

/-!
# Parentheses that match

Tokens balance their parentheses if each one that they close is one that they have opened before,
and they leave none open (`Balances 0`). `Balances pending` says the same of tokens before which
some parentheses are open already, and it follows the tokens one by one. The parenthesis that closes
another is the first one with balanced tokens between them (`Matches`), which is where the
parameters of a macro end (`afterParens_of_balances`, `exists_balances_of_afterParens`).
-/

namespace EastConst

/-- How many parentheses tokens open. -/
def opened (ts : List Token) : Nat :=
  ts.countP (·.isMark .parenOpen)

/-- How many parentheses tokens close. -/
def closed (ts : List Token) : Nat :=
  ts.countP (·.isMark .parenClose)

/-- Whether tokens close the parentheses that they open and `pending` more, which are open before
them, and never one that is not open. -/
structure Balances (pending : Nat) (ts : List Token) : Prop where
  never : ∀ us, us <+: ts → closed us ≤ opened us + pending
  total : closed ts = opened ts + pending

/-- Whether the parenthesis at `close` closes the one at `start`. -/
structure Matches (ts : List Token) (start close : Nat) : Prop where
  lt : start < close
  opens : ∃ t, ts[start]? = some t ∧ t.isMark .parenOpen = true
  closes : ∃ t, ts[close]? = some t ∧ t.isMark .parenClose = true
  between : Balances 0 (ts.extract (start + 1) close)

section

variable {pending : Nat} {t : Token} {ts us : List Token}

theorem opened_cons (t : Token) (ts : List Token) :
    opened (t :: ts) = opened ts + if t.mark? = some .parenOpen then 1 else 0 := by
  simp [opened, List.countP_cons, Token.isMark]

theorem closed_cons (t : Token) (ts : List Token) :
    closed (t :: ts) = closed ts + if t.mark? = some .parenClose then 1 else 0 := by
  simp [closed, List.countP_cons, Token.isMark]

theorem balances_nil_iff : Balances pending [] ↔ pending = 0 := by
  constructor
  · intro h
    have := h.total
    simp only [opened, closed, List.countP_nil] at this
    omega
  · rintro rfl
    refine ⟨?_, rfl⟩
    intro us hus
    rw [List.prefix_nil.1 hus]
    exact Nat.le_refl 0

/-- What a token does to the number of pending parentheses decides about the tokens after it. -/
theorem balances_cons_iff {after : Nat}
    (h : (if t.mark? = some .parenClose then 1 else 0) + after =
      (if t.mark? = some .parenOpen then 1 else 0) + pending) :
    Balances pending (t :: ts) ↔ Balances after ts := by
  have hcons (us : List Token) :
      closed (t :: us) ≤ opened (t :: us) + pending ↔ closed us ≤ opened us + after := by
    rw [opened_cons, closed_cons]
    omega
  constructor
  · intro hts
    refine ⟨?_, ?_⟩
    · intro us hus
      exact (hcons us).1 (hts.never (t :: us) (List.cons_prefix_cons.2 ⟨rfl, hus⟩))
    · have := hts.total
      rw [opened_cons, closed_cons] at this
      omega
  · intro hts
    refine ⟨?_, ?_⟩
    · intro us hus
      rcases List.prefix_cons_iff.1 hus with rfl | ⟨vs, rfl, hvs⟩
      · exact Nat.zero_le _
      · exact (hcons vs).2 (hts.never vs hvs)
    · have := hts.total
      rw [opened_cons, closed_cons]
      omega

/-- An opening parenthesis adds to what is pending. -/
theorem balances_cons_open (ht : t.mark? = some .parenOpen) :
    Balances pending (t :: ts) ↔ Balances (pending + 1) ts := by
  apply balances_cons_iff
  rw [ht, if_neg (by decide), if_pos rfl]
  omega

theorem balances_cons_close (ht : t.mark? = some .parenClose) :
    Balances (pending + 1) (t :: ts) ↔ Balances pending ts := by
  apply balances_cons_iff
  rw [ht, if_pos rfl, if_neg (by decide)]
  omega

theorem not_balances_cons_close (ht : t.mark? = some .parenClose) : ¬ Balances 0 (t :: ts) := by
  intro h
  have := h.never [t] (List.cons_prefix_cons.2 ⟨rfl, List.nil_prefix⟩)
  rw [closed_cons, opened_cons, ht, if_pos rfl, if_neg (by decide)] at this
  simp [opened, closed] at this

theorem balances_cons_plain (ho : t.mark? ≠ some .parenOpen) (hc : t.mark? ≠ some .parenClose) :
    Balances pending (t :: ts) ↔ Balances pending ts := by
  apply balances_cons_iff
  rw [if_neg ho, if_neg hc]

/-- Tokens balance if what counts for the grammar does. -/
theorem balances_filter_iff :
    Balances pending (ts.filter Token.isSignificant) ↔ Balances pending ts := by
  induction ts generalizing pending with
  | nil => exact Iff.rfl
  | cons t ts ih =>
    cases hs : t.isSignificant with
    | false =>
      have hm : t.mark? = none := by
        refine if_neg fun hk => ?_
        simp [Token.isSignificant, Token.isTrivia, hk] at hs
      rw [List.filter_cons_of_neg (by simp [hs]), ih,
        balances_cons_plain (by simp [hm]) (by simp [hm])]
    | true =>
      rw [List.filter_cons_of_pos hs]
      by_cases ho : t.mark? = some .parenOpen
      · rw [balances_cons_open ho, balances_cons_open ho, ih]
      · by_cases hc : t.mark? = some .parenClose
        · cases pending with
          | zero => exact iff_of_false (not_balances_cons_close hc) (not_balances_cons_close hc)
          | succ pending => rw [balances_cons_close hc, balances_cons_close hc, ih]
        · rw [balances_cons_plain ho hc, balances_cons_plain ho hc, ih]

/-- Tokens that are no punctuation change no balance. -/
theorem Balances.append_of_plain (h : Balances pending ts) (hus : ∀ t ∈ us, t.mark? = none) :
    Balances pending (us ++ ts) := by
  induction us with
  | nil => exact h
  | cons t us ih =>
    rw [List.forall_mem_cons] at hus
    rw [List.cons_append, balances_cons_plain (by simp [hus.1]) (by simp [hus.1])]
    exact ih hus.2

/-! ## Parameters -/

/-- Balanced tokens and a closing parenthesis are passed over. -/
theorem afterParens_of_balances (h : Balances pending us) (ht : t.isMark .parenClose = true) :
    afterParens (pending + 1) (us ++ t :: ts) = ts := by
  rw [Token.isMark, beq_iff_eq] at ht
  induction us generalizing pending with
  | nil =>
    obtain rfl := balances_nil_iff.1 h
    rw [List.nil_append, afterParens, ht]
    rfl
  | cons u us ih =>
    rw [List.cons_append, afterParens]
    split
    · rename_i hu
      exact ih ((balances_cons_open hu).1 h)
    · rename_i hu
      cases pending with
      | zero => exact absurd h (not_balances_cons_close hu)
      | succ pending =>
        rw [if_neg (by omega)]
        exact ih ((balances_cons_close hu).1 h)
    · rename_i ho hc
      exact ih ((balances_cons_plain ho hc).1 h)

/-- What follows the parameters follows balanced tokens and a closing parenthesis. -/
theorem exists_balances_of_afterParens (h : afterParens (pending + 1) ts ≠ []) :
    ∃ us t, ts = us ++ t :: afterParens (pending + 1) ts ∧ t.isMark .parenClose = true ∧
      Balances pending us := by
  induction ts generalizing pending with
  | nil => exact absurd rfl h
  | cons u ts ih =>
    rw [afterParens] at h ⊢
    split at h
    · rename_i hu
      obtain ⟨us, t, hts, ht, hus⟩ := ih h
      exact ⟨u :: us, t, congrArg (u :: ·) hts, ht, (balances_cons_open hu).2 hus⟩
    · rename_i hu
      cases pending with
      | zero => exact ⟨[], u, rfl, by rw [Token.isMark, hu]; rfl, balances_nil_iff.2 rfl⟩
      | succ pending =>
        rw [if_neg (by omega)] at h ⊢
        obtain ⟨us, t, hts, ht, hus⟩ := ih h
        exact ⟨u :: us, t, congrArg (u :: ·) hts, ht, (balances_cons_close hu).2 hus⟩
    · rename_i ho hc
      obtain ⟨us, t, hts, ht, hus⟩ := ih h
      exact ⟨u :: us, t, congrArg (u :: ·) hts, ht, (balances_cons_plain ho hc).2 hus⟩

end

end EastConst
