import EastConst.Proofs.TypeExtent.Greedy
import EastConst.Token.Stream

/-!
# The budget of a scan

A smaller budget cuts a scan off and changes nothing else: the result is the one with a larger
budget, or the type is too long (`find_cut`). Each token of a type takes a unit of the budget, words
of fundamental types apart (`length_le_spent`).
-/

namespace EastConst.TypeExtent

/-! ## Smaller budgets -/

/-- Whether a result is another one, or is cut off. -/
def Cut {α : Type} (result whole : Except Refusal α) : Prop :=
  result = .error .extentTooLong ∨ result = whole

section

variable {α β : Type} {result middle whole : Except Refusal α}

theorem Cut.trans (h : Cut result middle) (h' : Cut middle whole) : Cut result whole := by
  rcases h with rfl | rfl
  · exact .inl rfl
  · exact h'

/-- What passes a refusal on keeps a result cut off. -/
theorem Cut.map {f : Except Refusal α → Except Refusal β}
    (hf : f (.error .extentTooLong) = .error .extentTooLong)
    (h : Cut result whole) : Cut (f result) (f whole) := by
  rcases h with rfl | rfl
  · exact .inl hf
  · exact .inr rfl

end

theorem operandEnd_cut (budget depth : Nat) (sig : List (Token × Nat)) :
    Cut (operandEnd budget depth sig) (operandEnd (budget + 1) depth sig) := by
  induction sig generalizing budget depth with
  | nil => exact .inr (by rw [operandEnd, operandEnd])
  | cons e sig ih =>
    cases budget with
    | zero => exact .inl rfl
    | succ budget =>
      rw [operandEnd, operandEnd]
      split
      · exact ih ..
      · split
        · exact .inr rfl
        · exact ih ..
      · exact .inr rfl
      · exact .inr rfl
      · exact .inr rfl
      · exact ih ..

/-- With no budget a name ends where nothing more of it is read, and is cut off elsewhere. -/
theorem name?_zero_cut (budget : Nat) (state : NameState) (last? : Option Nat) (simple : Bool)
    (e : Token × Nat) (sig : List (Token × Nat)) :
    Cut (name? 0 state last? simple (e :: sig)) (name? budget state last? simple (e :: sig)) := by
  cases state with
  | identifier =>
    cases hless : e.1.isMark .less with
    | true => exact .inl (by simp [name?, hless])
    | false =>
      cases hscope : e.1.isMark .scope with
      | true => exact .inl (by simp [name?, hless, hscope])
      | false => exact .inr (by cases budget <;> simp [name?, hless, hscope])
  | argued =>
    cases hscope : e.1.isMark .scope with
    | true => exact .inl (by simp [name?, hscope])
    | false => exact .inr (by cases budget <;> simp [name?, hscope])
  | start | component | templated | arguments => exact .inl rfl

/-- A name that is read with one unit more is read as before, token by token. -/
theorem name?_cut (budget : Nat) (state : NameState) (last? : Option Nat) (simple : Bool)
    (sig : List (Token × Nat)) :
    Cut (name? budget state last? simple sig) (name? (budget + 1) state last? simple sig) := by
  induction sig generalizing budget state last? simple with
  | nil => exact .inr (by cases state <;> cases budget <;> rfl)
  | cons e sig ih =>
    cases budget with
    | zero => exact name?_zero_cut ..
    | succ budget =>
      cases state with
      | identifier =>
        simp only [name?]
        split
        · exact ih ..
        · split
          · exact ih ..
          · exact .inr rfl
      | argued =>
        simp only [name?]
        split
        · exact ih ..
        · exact .inr rfl
      | arguments depths =>
        simp only [name?]
        split
        · exact ih ..
        · exact ih ..
        · exact .inr rfl
      | start | component | templated =>
        simp only [name?]
        split
        · exact ih ..
        · split
          · exact ih ..
          · split
            · exact ih ..
            · exact .inr rfl

theorem ofDecltype_cut (first budget : Nat) (sig : List (Token × Nat)) :
    Cut (ofDecltype first budget sig) (ofDecltype first (budget + 1) sig) := by
  cases sig with
  | nil => exact .inr (by rw [ofDecltype, ofDecltype])
  | cons e sig =>
    cases budget with
    | zero => exact .inl rfl
    | succ budget =>
      rw [ofDecltype, ofDecltype]
      split
      · exact (operandEnd_cut budget 1 sig).map rfl
      · exact .inr rfl

/-- The step lemma: one unit less gives the same result, or the type is too long. -/
theorem scan_cut (budget : Nat) (sig : List (Token × Nat)) :
    Cut (scan budget sig) (scan (budget + 1) sig) := by
  cases sig with
  | nil => exact .inr (by rw [scan, scan])
  | cons e sig =>
    obtain ⟨t, i⟩ := e
    cases budget with
    | zero => exact .inl rfl
    | succ budget =>
      cases hform : Form.of t with
      | elaborated =>
        rw [scan_of_elaborated hform, scan_of_elaborated hform]
        exact (name?_cut ..).map rfl
      | fundamental => exact .inr (by rw [scan_of_fundamental hform, scan_of_fundamental hform])
      | decltype =>
        rw [scan_of_decltype hform, scan_of_decltype hform]
        exact ofDecltype_cut ..
      | name =>
        rw [scan_of_name hform, scan_of_name hform]
        exact (name?_cut ..).map rfl

/-- A smaller budget gives the same extent or the same refusal, or the type is too long for it. -/
theorem find_cut {budget more : Nat} (h : budget ≤ more) (tokens : List Token)
    (start boundary : Nat) :
    Cut (find budget tokens start boundary) (find more tokens start boundary) := by
  induction h with
  | refl => exact .inr rfl
  | step _ ih => exact ih.trans (scan_cut ..)

/-! ## The length of what is found -/

section

variable {tokens : List Token} {start stop first boundary : Nat} {extent : TypeExtent}
  {phrase after : List (Token × Nat)}

/-- A stretch may as well start at its first significant token. -/
theorem significantBetween_of_head?
    (h : (significantBetween tokens start stop).head?.map Prod.snd = some first) :
    significantBetween tokens first stop = significantBetween tokens start stop := by
  obtain ⟨⟨t, _⟩, he, rfl⟩ := Option.map_eq_some_iff.1 h
  obtain ⟨hle, hlt, -, -⟩ := mem_significantBetween (List.mem_of_head? he)
  rw [significantBetween_append hle (Nat.le_of_lt hlt)] at he ⊢
  cases hbefore : significantBetween tokens start _ with
  | nil => rfl
  | cons e rest =>
    rw [hbefore] at he
    obtain rfl := Option.some.inj he
    have hmem : (t, _) ∈ significantBetween tokens start _ := hbefore ▸ List.mem_cons_self
    exact absurd (mem_significantBetween hmem).2.1 (Nat.lt_irrefl _)

/-- The significant tokens of an extent are those of the type that it spans. -/
theorem Spans.map_fst (h : Spans extent phrase after)
    (hsplit : significantBetween tokens start boundary = phrase ++ after) :
    (significantBetween tokens extent.first (extent.last + 1)).map Prod.fst =
      phrase.map Prod.fst := by
  obtain ⟨init, u, rfl⟩ := exists_concat h.last
  have hhead : (significantBetween tokens start boundary).head?.map Prod.snd =
      some extent.first := by
    obtain ⟨e, he, hfirst⟩ := Option.map_eq_some_iff.1 h.first
    rw [hsplit, List.head?_append, he, ← hfirst]
    rfl
  rw [← significantBetween_of_head? hhead] at hsplit
  have hends : EndsAt (fun ts => ts = (init ++ [(u, extent.last)]).map Prod.fst) extent.last
      (significantBetween tokens extent.first boundary) :=
    ⟨init, u, after, by simpa using hsplit, by simp⟩
  exact hends.of_significantBetween

/-- Each token of a type takes a unit of the budget, but the words of a fundamental type take one
together. -/
theorem length_le_spent {ts : List Token} (h : IsType ts) (after : List Token) :
    ts.length ≤ spent ts after ∨ (∀ t ∈ ts, t.isBuiltinType = true) ∧ spent ts after = 1 := by
  cases ts with
  | nil => exact .inl (Nat.zero_le _)
  | cons t ts =>
    cases hform : Form.of t with
    | elaborated | name => exact .inl (by simp only [spent, hform]; omega)
    | decltype => exact .inl (by simp only [spent, hform]; omega)
    | fundamental =>
      simp only [IsType, hform] at h
      refine .inr ⟨List.forall_mem_cons.2 ⟨Form.isBuiltinType_of_fundamental hform, h⟩, ?_⟩
      simp only [spent, hform]

end

/-- What is found has no more significant tokens than the budget has units, or all of them are words
of fundamental types. Such words are found however many they are, with any budget but none at
all. -/
theorem find_length_le {budget start boundary : Nat} {tokens : List Token} {extent : TypeExtent}
    (h : find budget tokens start boundary = .ok extent) :
    (significantBetween tokens extent.first (extent.last + 1)).length ≤ budget ∨
      (∀ e ∈ significantBetween tokens extent.first (extent.last + 1), e.1.isBuiltinType = true) ∧
        ∀ other, 0 < other → find other tokens start boundary = .ok extent := by
  obtain ⟨phrase, after, hsplit, hspans, hlacks, hspent⟩ := scan_eq_ok_iff.1 h
  have hmap := hspans.map_fst hsplit
  rcases length_le_spent hspans.type (after.map Prod.fst) with hle | ⟨hwords, hone⟩
  · left
    rw [← hmap, List.length_map] at hle
    rw [← hmap] at hspent
    exact Nat.le_trans hle hspent
  · right
    rw [← hmap, List.forall_mem_map] at hwords
    exact ⟨hwords, fun other hpos =>
      scan_eq_ok_iff.2 ⟨phrase, after, hsplit, hspans, hlacks, hone ▸ hpos⟩⟩

theorem find_length_le_unsigned :
    find 1 (tokens "unsigned long long n;".toList) 0 8 = .ok ⟨0, 4⟩ ∧
      ∀ other, 0 < other → find other (tokens "unsigned long long n;".toList) 0 8 = .ok ⟨0, 4⟩ := by
  have hfind : find 1 (tokens "unsigned long long n;".toList) 0 8 = .ok ⟨0, 4⟩ := rfl
  exact ⟨hfind, ((find_length_le hfind).resolve_left (by decide +kernel)).2⟩

/-- A budget of one unit suffices for three words. -/
theorem find_exceeds_budget :
    find 1 (tokens "unsigned long long n;".toList) 0 8 = .ok ⟨0, 4⟩ ∧
      (significantBetween (tokens "unsigned long long n;".toList) 0 (4 + 1)).length = 3 :=
  ⟨rfl, rfl⟩

end EastConst.TypeExtent
