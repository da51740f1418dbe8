/-!
# Lines and the blanks at their ends

`lineAt` is a line of a text, `endsBlank` says whether it has a blank at its end. Where a line ends
within a text, whether it ends blank can be read off all that is before (`endsBlank_lineAt`), and of
that off the last characters (`endsBlank_append`). `EndAlike` compares two texts so, and `EndsFirm`
is the case that no blank can come of.
-/

namespace EastConst

/-- The line with a number, counted from zero, without the line feed that ends it. -/
def lineAt : Nat → List Char → List Char
  | 0, text => text.takeWhile (· != '\n')
  | k + 1, text => lineAt k ((text.dropWhile (· != '\n')).drop 1)

/-- Whether a character is a blank that a line may end with unseen. -/
def isTrailing (c : Char) : Bool :=
  c == ' ' || c == '\t'

/-- Whether a line ends with a space or a tab, a carriage return at its end left out. -/
def endsBlank (line : List Char) : Bool :=
  (if line.getLast? = some '\r' then line.dropLast else line).getLast?.any isTrailing

theorem endsBlank_concat {c : Char} (hc : c ≠ '\r') (x : List Char) :
    endsBlank (x ++ [c]) = isTrailing c := by
  rw [endsBlank, List.getLast?_concat, if_neg (by simpa using hc), List.getLast?_concat]
  rfl

/-- A carriage return at the end of a line is looked through. -/
theorem endsBlank_cr (x : List Char) : endsBlank (x ++ ['\r']) = x.getLast?.any isTrailing := by
  rw [endsBlank, List.getLast?_concat, if_pos rfl, List.dropLast_concat]

/-- What ends blank ends so after any text, unless it is nothing or a carriage return. -/
theorem endsBlank_append {y : List Char} (hnil : y ≠ []) (hcr : y ≠ ['\r']) (x : List Char) :
    endsBlank (x ++ y) = endsBlank y := by
  obtain ⟨z, c, rfl⟩ := List.eq_nil_or_concat y |>.resolve_left hnil
  rw [List.concat_eq_append] at hcr ⊢
  rw [← List.append_assoc]
  by_cases hc : c = '\r'
  · subst hc
    obtain ⟨v, d, rfl⟩ := List.eq_nil_or_concat z |>.resolve_left (by rintro rfl; exact hcr rfl)
    rw [endsBlank_cr, endsBlank_cr, List.concat_eq_append, ← List.append_assoc,
      List.getLast?_concat, List.getLast?_concat]
  · rw [endsBlank_concat hc, endsBlank_concat hc]

theorem endsBlank_cons_lf (x : List Char) : endsBlank ('\n' :: x) = endsBlank x := by
  by_cases hnil : x = []
  · subst hnil
    rfl
  by_cases hcr : x = ['\r']
  · subst hcr
    rfl
  exact endsBlank_append hnil hcr ['\n']

/-- A line that ends after some text ends blank if the text does. -/
theorem endsBlank_lineAt (before : List Char) {after : List Char}
    (h : ∀ c ∈ after.head?, c = '\n') :
    endsBlank (lineAt (before.count '\n') (before ++ after)) = endsBlank before := by
  induction before with
  | nil =>
    cases after with
    | nil => rfl
    | cons c after =>
      obtain rfl := h c rfl
      rfl
  | cons c before ih =>
    by_cases hc : c = '\n'
    · subst hc
      rw [List.count_cons_self, endsBlank_cons_lf, ← ih]
      rfl
    · rw [List.count_cons_of_ne hc]
      by_cases hlf : '\n' ∈ before
      · -- the line starts after this character
        have hne : before ≠ [] := List.ne_nil_of_mem hlf
        have hne' : before ≠ ['\r'] := by
          rintro rfl
          simp at hlf
        have htail : endsBlank (c :: before) = endsBlank before := endsBlank_append hne hne' [c]
        rw [htail, ← ih]
        obtain ⟨k, hk⟩ := Nat.exists_eq_succ_of_ne_zero (Nat.ne_of_gt (List.count_pos_iff.2 hlf))
        rw [hk, List.cons_append, lineAt, lineAt, List.dropWhile_cons_of_pos (by simpa using hc)]
      · have hall : ∀ d ∈ c :: before, (d != '\n') = true := by
          intro d hd
          rcases List.mem_cons.1 hd with rfl | hd
          · simpa using hc
          · exact bne_iff_ne.2 fun he => hlf (he ▸ hd)
        rw [List.count_eq_zero_of_not_mem hlf, lineAt, List.takeWhile_append_of_pos hall]
        cases after with
        | nil => rw [List.takeWhile_nil, List.append_nil]
        | cons d after =>
          obtain rfl := h d rfl
          rw [List.takeWhile_cons_of_neg (by simp), List.append_nil]

theorem lineAt_nil (k : Nat) : lineAt k [] = [] := by
  induction k with
  | zero => rfl
  | succ k ih => exact ih

theorem lineAt_of_count_lt {k : Nat} {text : List Char} (h : text.count '\n' < k) :
    lineAt k text = [] := by
  induction k generalizing text with
  | zero => omega
  | succ k ih =>
    rw [lineAt]
    by_cases hlf : '\n' ∈ text
    · obtain ⟨a, b, rfl, hnot⟩ := List.eq_append_cons_of_mem hlf
      have hall : ∀ c ∈ a, (c != '\n') = true := fun c hc => bne_iff_ne.2 fun he => hnot (he ▸ hc)
      rw [List.dropWhile_append_of_pos hall, List.dropWhile_cons_of_neg (by simp), List.drop_one,
        List.tail_cons]
      rw [List.count_append, List.count_cons_self] at h
      exact ih (by omega)
    · have hall : ∀ c ∈ text, (c != '\n') = true := fun c hc => bne_iff_ne.2 fun he => hlf (he ▸ hc)
      have hnil : text.dropWhile (· != '\n') = [] := by
        rw [← List.append_nil text, List.dropWhile_append_of_pos hall, List.dropWhile_nil]
      rw [hnil]
      exact lineAt_nil k

/-- A line that is not the last is ended by a line feed. -/
theorem exists_break_of_lt_count {text : List Char} {k : Nat} (h : k < text.count '\n') :
    ∃ u v, text = u ++ '\n' :: v ∧ u.count '\n' = k := by
  induction text generalizing k with
  | nil => simp at h
  | cons c text ih =>
    by_cases hc : c = '\n'
    · subst hc
      cases k with
      | zero => exact ⟨[], text, rfl, rfl⟩
      | succ k =>
        rw [List.count_cons_self] at h
        obtain ⟨u, v, rfl, hu⟩ := ih (Nat.lt_of_succ_lt_succ h)
        exact ⟨'\n' :: u, v, rfl, by rw [List.count_cons_self, hu]⟩
    · rw [List.count_cons_of_ne hc] at h
      obtain ⟨u, v, rfl, hu⟩ := ih h
      exact ⟨c :: u, v, rfl, by rw [List.count_cons_of_ne hc, hu]⟩

/-! ## Texts that end alike -/

/-- Texts that both end blank or both do not, also with a carriage return after them. -/
structure EndAlike (x y : List Char) : Prop where
  plain : endsBlank x = endsBlank y
  cr : endsBlank (x ++ ['\r']) = endsBlank (y ++ ['\r'])

theorem EndAlike.refl (x : List Char) : EndAlike x x :=
  ⟨rfl, rfl⟩

theorem EndAlike.append_of_ne {text : List Char} (hnil : text ≠ []) (hcr : text ≠ ['\r'])
    (x y : List Char) : EndAlike (x ++ text) (y ++ text) := by
  have hnil' : text ++ ['\r'] ≠ [] := by simp
  have hcr' : text ++ ['\r'] ≠ ['\r'] := by simpa using hnil
  constructor
  · rw [endsBlank_append hnil hcr, endsBlank_append hnil hcr]
  · rw [List.append_assoc, List.append_assoc, endsBlank_append hnil' hcr',
      endsBlank_append hnil' hcr']

/-- Texts that end alike still do so with the same text behind them. -/
theorem EndAlike.append {x y : List Char} (h : EndAlike x y) (text : List Char) :
    EndAlike (x ++ text) (y ++ text) := by
  by_cases hnil : text = []
  · rw [hnil, List.append_nil, List.append_nil]
    exact h
  by_cases hcr : text = ['\r']
  · subst hcr
    exact ⟨h.cr, by rw [endsBlank_cr, endsBlank_cr, List.getLast?_concat, List.getLast?_concat]⟩
  exact .append_of_ne hnil hcr x y

/-- Whether a text ends with a character that no line ends with unseen. -/
def EndsFirm (x : List Char) : Prop :=
  ∃ c, x.getLast? = some c ∧ isTrailing c = false ∧ c ≠ '\r'

theorem EndsFirm.append {y : List Char} (h : EndsFirm y) (x : List Char) : EndsFirm (x ++ y) := by
  obtain ⟨c, hlast, hc⟩ := h
  refine ⟨c, ?_, hc⟩
  rw [List.getLast?_append, hlast]
  rfl

/-- A text that ends firm leaves no trailing blank before a line break. -/
theorem EndsFirm.endsBlank {x u : List Char} (h : EndsFirm x) (hu : u = [] ∨ u = ['\r']) :
    endsBlank (x ++ u) = false := by
  obtain ⟨c, hlast, htrailing, hcr⟩ := h
  rcases hu with rfl | rfl
  · obtain ⟨z, rfl⟩ := List.getLast?_eq_some_iff.1 hlast
    rw [List.append_nil, endsBlank_concat hcr, htrailing]
  · rw [endsBlank_cr, hlast]
    exact htrailing

theorem EndsFirm.alike {x y : List Char} (hx : EndsFirm x) (hy : EndsFirm y) : EndAlike x y := by
  have hplain := (hx.endsBlank (.inl rfl)).trans (hy.endsBlank (.inl rfl)).symm
  rw [List.append_nil, List.append_nil] at hplain
  exact ⟨hplain, (hx.endsBlank (.inr rfl)).trans (hy.endsBlank (.inr rfl)).symm⟩

end EastConst
