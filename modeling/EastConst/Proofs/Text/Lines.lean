import EastConst.Proofs.Lexeme.Quoted
import EastConst.Proofs.Text.Position

/-!
# The lines of a text

Lines are counted in two ways: by the line feeds before an offset, and by cutting the text
(`lines`), where no line comes after a final line feed. `IsLine` says what the line with a number is
without either, and cutting finds these lines (`getElem?_lines_iff`). The line around a character is
the one that the line feeds before it count (`isLine_lineAround`).
-/

namespace EastConst

open Lexeme.Quoted (dropReturn dropReturn_append dropReturn_begins dropReturn_cons)

/-- Induction over the lines of a text: its last line, which has no line feed, and a line with
others after it. -/
@[elab_as_elim]
theorem lines_induction {motive : List Char → Prop} (last : ∀ line, '\n' ∉ line → motive line)
    (line : ∀ line after, '\n' ∉ line → motive after → motive (line ++ '\n' :: after))
    (text : List Char) :
    motive text := by
  induction hlength : text.length using Nat.strongRecOn generalizing text with
  | _ n ih =>
    by_cases hlf : '\n' ∈ text
    · obtain ⟨first, after, rfl, hfirst⟩ := List.eq_append_cons_of_mem hlf
      refine line first after hfirst (ih after.length ?_ after rfl)
      rw [List.length_append, List.length_cons] at hlength
      omega
    · exact last text hlf

/-- A line feed of a text is the one that ends its first line or a later one. -/
theorem break_cases {line after upto rest : List Char} (hline : '\n' ∉ line)
    (h : line ++ '\n' :: after = upto ++ '\n' :: rest) :
    upto = line ∧ rest = after ∨
      ∃ upto', upto = line ++ '\n' :: upto' ∧ after = upto' ++ '\n' :: rest := by
  rcases List.append_eq_append_iff.1 h with ⟨mid, rfl, hmid⟩ | ⟨mid, rfl, hmid⟩
  · cases mid with
    | nil => exact .inl ⟨List.append_nil line, (List.cons.inj hmid).2.symm⟩
    | cons c mid =>
      obtain ⟨rfl, hafter⟩ := List.cons.inj hmid
      exact .inr ⟨mid, rfl, hafter⟩
  · cases mid with
    | nil => exact .inl ⟨(List.append_nil upto).symm, (List.cons.inj hmid).2⟩
    | cons c mid =>
      obtain ⟨rfl, -⟩ := List.cons.inj hmid
      simp at hline

/-! ## Cutting a text -/

section

variable {line : List Char}

theorem lines_cons {c : Char} {text : List Char} (hc : c ≠ '\n')
    (hcr : c = '\r' → text.head? ≠ some '\n') :
    lines (c :: text) = (c :: (lines text).headD []) :: (lines text).tail := by
  rw [lines.eq_4 c text (fun rest hr ht => hcr hr (by rw [ht]; rfl)) hc]
  cases lines text <;> rfl

theorem lines_of_last (h : '\n' ∉ line) (hne : line ≠ []) : lines line = [line] := by
  induction line with
  | nil => exact absurd rfl hne
  | cons c line ih =>
    rw [List.mem_cons, not_or] at h
    have hnext : line.head? ≠ some '\n' := fun hhead => h.2 (List.mem_of_head? hhead)
    rw [lines_cons (Ne.symm h.1) fun _ => hnext]
    by_cases hnil : line = []
    · rw [hnil]
      rfl
    · rw [ih h.2 hnil]
      rfl

/-- The first line of a text goes up to its first line feed, without the carriage return before
it. -/
theorem lines_of_line (h : '\n' ∉ line) (after : List Char) :
    lines (line ++ '\n' :: after) = dropReturn line :: lines after := by
  induction line with
  | nil => rfl
  | cons c line ih =>
    rw [List.mem_cons, not_or] at h
    by_cases hreturn : line = [] ∧ c = '\r'
    · obtain ⟨rfl, rfl⟩ := hreturn
      rfl
    · have hnext : c = '\r' → (line ++ '\n' :: after).head? ≠ some '\n' := by
        rintro rfl
        obtain ⟨d, rest, rfl⟩ := List.exists_cons_of_ne_nil fun hnil => hreturn ⟨hnil, rfl⟩
        intro hhead
        exact h.2 (Option.some.inj hhead ▸ List.mem_cons_self)
      rw [List.cons_append, lines_cons (Ne.symm h.1) hnext, ih h.2,
        dropReturn_cons fun hnil hcr => hreturn ⟨hnil, hcr⟩]
      rfl

end

/-- Whether a beginning of a text is followed by the start of a line. -/
def EndsLines (before : List Char) : Prop :=
  ∀ c ∈ before.getLast?, c = '\n'

theorem endsLines_nil : EndsLines [] := by
  intro c hc
  cases hc

theorem endsLines_append {line before : List Char} :
    EndsLines (line ++ '\n' :: before) ↔ EndsLines before := by
  rw [EndsLines, EndsLines, List.getLast?_append, Option.or_of_isSome (by simp)]
  by_cases hnil : before = []
  · simp [hnil]
  · rw [List.getLast?_cons_of_ne_nil hnil]

theorem EndsLines.eq_nil {line : List Char} (h : EndsLines line) (hline : '\n' ∉ line) :
    line = [] := by
  refine Decidable.byContradiction fun hne => ?_
  have hlast := List.getLast?_eq_some_getLast hne
  exact hline (h _ hlast ▸ List.mem_of_getLast? hlast)

/-- Whole lines are cut by themselves, and their line feeds count them. -/
theorem lines_append {before : List Char} (h : EndsLines before) (text : List Char) :
    lines (before ++ text) = lines before ++ lines text ∧
    (lines before).length = before.count '\n' := by
  induction before using lines_induction with
  | last line hline =>
    rw [h.eq_nil hline]
    exact ⟨rfl, rfl⟩
  | line line before hline ih =>
    obtain ⟨happend, hlength⟩ := ih (endsLines_append.1 h)
    rw [List.append_assoc, List.cons_append, lines_of_line hline, lines_of_line hline, happend]
    refine ⟨rfl, ?_⟩
    rw [List.length_cons, hlength, List.count_append, List.count_eq_zero_of_not_mem hline,
      List.count_cons_self, Nat.zero_add]

/-- What the lines of a text are, numbered from zero: what stands between the line feeds, less a
carriage return right before the line feed that ends it. After a final line feed there is no
line. -/
inductive IsLine (text : List Char) : Nat → List Char → Prop
  | ended (before line after : List Char) (htext : text = before ++ (line ++ '\n' :: after))
    (hbefore : EndsLines before) (hline : '\n' ∉ line) :
      IsLine text (before.count '\n') (dropReturn line)
  | last (before line : List Char) (htext : text = before ++ line) (hbefore : EndsLines before)
    (hline : '\n' ∉ line) (hne : line ≠ []) : IsLine text (before.count '\n') line

namespace IsLine

variable {text line : List Char} {number : Nat}

theorem not_mem_lf (h : IsLine text number line) : '\n' ∉ line := by
  cases h with
  | ended _ _ _ _ _ hline => exact fun hmem => hline ((dropReturn_begins _).mem hmem)
  | last _ _ _ _ hline _ => exact hline

/-- A line before others leaves them and moves their numbers. -/
theorem shift {first : List Char} (hfirst : '\n' ∉ first) (h : IsLine text number line) :
    IsLine (first ++ '\n' :: text) (number + 1) line := by
  have hcount (before : List Char) : before.count '\n' + 1 =
      (first ++ '\n' :: before).count '\n' := by
    rw [List.count_append, List.count_eq_zero_of_not_mem hfirst, List.count_cons_self, Nat.zero_add]
  cases h with
  | ended before line after htext hbefore hline =>
    rw [hcount]
    exact .ended _ _ after (by rw [htext, List.append_assoc]; rfl)
      (endsLines_append.2 hbefore) hline
  | last before line htext hbefore hline hne =>
    rw [hcount]
    exact .last _ _ (by rw [htext, List.append_assoc]; rfl) (endsLines_append.2 hbefore) hline hne

end IsLine

/-- Cutting a text gives its lines, each in the place of its number. -/
theorem getElem?_lines_iff {text line : List Char} {number : Nat} :
    (lines text)[number]? = some line ↔ IsLine text number line := by
  constructor
  · intro h
    induction text using lines_induction generalizing number with
    | last rest hrest =>
      by_cases hnil : rest = []
      · rw [hnil] at h
        cases h
      · rw [lines_of_last hrest hnil, List.getElem?_singleton] at h
        split at h
        · rename_i hzero
          obtain rfl := Option.some.inj h
          rw [hzero]
          exact .last [] rest rfl endsLines_nil hrest hnil
        · cases h
    | line first after hfirst ih =>
      rw [lines_of_line hfirst] at h
      cases number with
      | zero =>
        obtain rfl := Option.some.inj h
        exact .ended [] first after rfl endsLines_nil hfirst
      | succ number => exact (ih h).shift hfirst
  · intro h
    cases h with
    | ended before line after htext hbefore hline =>
      obtain ⟨happend, hlength⟩ := lines_append hbefore (line ++ '\n' :: after)
      rw [htext, happend, ← hlength, List.getElem?_append_right (Nat.le_refl _), Nat.sub_self,
        lines_of_line hline]
      rfl
    | last before line htext hbefore hline hne =>
      obtain ⟨happend, hlength⟩ := lines_append hbefore line
      rw [htext, happend, ← hlength, List.getElem?_append_right (Nat.le_refl _), Nat.sub_self,
        lines_of_last hline hne]
      rfl

/-- A text has one line of a number at most. -/
theorem IsLine.unique {text line line' : List Char} {number : Nat} (h : IsLine text number line)
    (h' : IsLine text number line') : line = line' :=
  Option.some.inj ((getElem?_lines_iff.2 h).symm.trans (getElem?_lines_iff.2 h'))

/-! ## The line around a place -/

/-- The line around a place of a text, from the last line feed before it to the first one after it,
less a carriage return right before the latter. -/
def lineAround (before after : List Char) : List Char :=
  let line := lastLine before ++ after.takeWhile (· != '\n')
  if '\n' ∈ after then dropReturn line else line

theorem takeWhile_of_line {line rest : List Char} (h : '\n' ∉ line)
    (hrest : ∀ c ∈ rest.head?, c = '\n') :
    (line ++ rest).takeWhile (· != '\n') = line := by
  have hall : ∀ c ∈ line, (c != '\n') = true := fun c hc => bne_iff_ne.2 fun he => h (he ▸ hc)
  rw [List.takeWhile_append_of_pos hall]
  cases rest with
  | nil => exact List.append_nil line
  | cons c rest =>
    obtain rfl := hrest c rfl
    exact List.append_nil line

/-- The line around a character is the one that the line feeds before it count. -/
theorem isLine_lineAround (before : List Char) (c : Char) (after : List Char) :
    IsLine (before ++ c :: after) (before.count '\n') (lineAround before (c :: after)) := by
  obtain ⟨wholes, hbefore, hwholes, hlast⟩ := exists_lines_append_lastLine before
  have hcount : before.count '\n' = wholes.count '\n' := by
    rw [hbefore, List.count_append, List.count_eq_zero_of_not_mem hlast, Nat.add_zero]
  rw [hcount, lineAround]
  split
  · rename_i hlf
    obtain ⟨upto, rest, hrest, hupto⟩ := List.eq_append_cons_of_mem hlf
    rw [hrest, takeWhile_of_line hupto (by simp)]
    refine .ended wholes _ rest ?_ hwholes (by simp [hlast, hupto])
    conv => lhs; rw [hbefore]
    simp only [List.append_assoc]
  · rename_i hlf
    have hline : (c :: after ++ []).takeWhile (· != '\n') = c :: after :=
      takeWhile_of_line hlf (by simp)
    rw [List.append_nil] at hline
    rw [hline]
    refine .last wholes _ ?_ hwholes (by simp [hlast, hlf]) (by simp)
    conv => lhs; rw [hbefore]
    exact List.append_assoc _ _ _

/-- The character stands in its line where its column says. -/
theorem getElem?_lineAround (before after : List Char) {c : Char} (hc : c ≠ '\n') (hcr : c ≠ '\r') :
    (lineAround before (c :: after))[(lastLine before).length]? = some c := by
  have htake : (c :: after).takeWhile (· != '\n') = c :: after.takeWhile (· != '\n') :=
    List.takeWhile_cons_of_pos (bne_iff_ne.2 hc)
  rw [lineAround, htake]
  split
  · rw [dropReturn_append _ _ (by simp), dropReturn_cons fun _ => hcr,
      List.getElem?_append_right (Nat.le_refl _), Nat.sub_self]
    rfl
  · rw [List.getElem?_append_right (Nat.le_refl _), Nat.sub_self]
    rfl

end EastConst
