import EastConst.Nesting

/-!
# Brackets as a stack

How many brackets suppress qualifiers follows from the brackets that are open, so a nesting is its
stack (`Nesting.of`), and every way of closing brackets takes some off its top. What is done to a
stack that stands on other brackets is what is done to the stack alone, as long as those other
brackets are left standing (`dropWhile_append_of_suffix`, `closing_append`, `closingBrace_append`).
-/

namespace EastConst.Nesting

/-- The nesting with given brackets open. -/
def of (brackets : List Bracket) : Nesting :=
  ⟨brackets, brackets.countP Bracket.suppresses⟩

/-- Closes the innermost bracket if it is of a kind. -/
def closing (p : Bracket → Bool) (bs : List Bracket) : List Bracket :=
  if bs.head?.any p then bs.tail else bs

/-- Closes the innermost brace and everything in it. -/
def closingBrace (bs : List Bracket) : List Bracket :=
  if .brace ∈ bs then (bs.dropWhile (· != .brace)).tail else bs

@[simp]
theorem brackets_of (bs : List Bracket) : (of bs).brackets = bs := rfl

@[simp]
theorem depth_of (bs : List Bracket) : (of bs).depth = bs.length := rfl

/-- Qualifiers are suppressed exactly where some bracket on the stack does so. -/
theorem isSuppressed_of (bs : List Bracket) : (of bs).isSuppressed = bs.any Bracket.suppresses := by
  rw [Bool.eq_iff_iff, isSuppressed, decide_eq_true_eq, of, List.countP_pos_iff, List.any_eq_true]

/-! ## The operations on a stack -/

section

variable (bs : List Bracket)

@[simp]
theorem push_of (b : Bracket) : (of bs).push b = of (b :: bs) := by
  cases h : b.suppresses <;> simp [push, of, h]

@[simp]
theorem pop_of : (of bs).pop = of bs.tail := by
  cases bs with
  | nil => rfl
  | cons b bs => cases h : b.suppresses <;> simp [pop, of, h]

theorem popMany_of (count : Nat) : (of bs).popMany count = of (bs.drop count) := by
  induction count generalizing bs with
  | zero => rfl
  | succ count ih => rw [popMany, pop_of, ih, List.drop_tail]

theorem truncate_of (depth : Nat) : (of bs).truncate depth = of (bs.drop (bs.length - depth)) := by
  rw [truncate, popMany_of, depth_of]

theorem drop_length_takeWhile (p : Bracket → Bool) :
    bs.drop (bs.takeWhile p).length = bs.dropWhile p := by
  have h : (bs.takeWhile p ++ bs.dropWhile p).drop (bs.takeWhile p).length = bs.dropWhile p :=
    List.drop_left
  rwa [List.takeWhile_append_dropWhile] at h

@[simp]
theorem dropAngles_of : (of bs).dropAngles = of (bs.dropWhile Bracket.isAngle) := by
  rw [dropAngles, popMany_of, brackets_of, drop_length_takeWhile]

/-- Closing an angle bracket takes it off the top, and does nothing to any other bracket. -/
@[simp]
theorem closeAngle_of :
    (of bs).closeAngle = (bs.head?.filter Bracket.isAngle, of (closing Bracket.isAngle bs)) := by
  cases bs with
  | nil => rfl
  | cons b bs =>
    cases b with
    | angle header =>
      rw [closeAngle, pop_of]
      rfl
    | paren operand => rfl
    | square => rfl
    | brace => rfl

@[simp]
theorem closeParen_of :
    (of bs).closeParen = of (closing Bracket.isParen (bs.dropWhile Bracket.isAngle)) := by
  rw [closeParen, dropAngles_of, closing, pop_of]
  exact (apply_ite of _ _ _).symm

@[simp]
theorem closeSquare_of :
    (of bs).closeSquare = of (closing (· == .square) (bs.dropWhile Bracket.isAngle)) := by
  have hhead : (bs.dropWhile Bracket.isAngle).head? = some .square ↔
      (bs.dropWhile Bracket.isAngle).head?.any (· == .square) = true := by
    cases (bs.dropWhile Bracket.isAngle).head? <;> simp
  rw [closeSquare, dropAngles_of, closing, pop_of]
  simp only [brackets_of, hhead]
  exact (apply_ite of _ _ _).symm

@[simp]
theorem closeBrace_of : (of bs).closeBrace = of (closingBrace bs) := by
  rw [closeBrace, closingBrace, brackets_of, popMany_of, ← List.drop_drop, drop_length_takeWhile,
    List.drop_one, List.contains_eq_mem]
  by_cases h : .brace ∈ bs <;> simp [h]

end

/-! ## A stack on other brackets -/

section

variable {p : Bracket → Bool} {bs base : List Bracket}

/-- What is left of a stack that is cut back are the brackets that it stood on, if they are still
there. -/
theorem truncate_eq_iff : (of bs).truncate base.length = of base ↔ base <:+ bs := by
  rw [truncate_of, List.suffix_iff_eq_drop]
  constructor
  · intro h
    exact (congrArg brackets h).symm
  · intro h
    rw [← h]

theorem closing_suffix (p : Bracket → Bool) (bs : List Bracket) : closing p bs <:+ bs := by
  unfold closing
  split
  · exact List.tail_suffix bs
  · exact List.suffix_rfl

/-- A list that ends its own tail is empty. -/
theorem eq_nil_of_suffix_tail {l : List Bracket} (h : l <:+ l.tail) : l = [] := by
  cases l with
  | nil => rfl
  | cons b l => exact absurd h.length_le (by simp)

/-- Brackets taken off a stack come from its upper part alone if the lower part is still there. -/
theorem dropWhile_append_of_suffix (h : base <:+ (bs ++ base).dropWhile p) :
    (bs ++ base).dropWhile p = bs.dropWhile p ++ base := by
  rw [List.dropWhile_append] at h ⊢
  split
  · rename_i hnil
    rw [if_pos hnil] at h
    have hbase := (List.dropWhile_suffix p).eq_of_length_le h.length_le
    rw [hbase, List.isEmpty_iff.1 hnil, List.nil_append]
  · rfl

/-- The innermost bracket is closed in the upper part alone if the lower part is still there. -/
theorem closing_append (h : base <:+ closing p (bs ++ base)) :
    (bs ++ base).head?.filter p = bs.head?.filter p ∧
      closing p (bs ++ base) = closing p bs ++ base := by
  cases bs with
  | nil =>
    rw [List.nil_append] at h ⊢
    have hhead : base.head?.any p = false := by
      apply Bool.eq_false_iff.2
      intro hany
      rw [closing, if_pos hany] at h
      rw [eq_nil_of_suffix_tail h] at hany
      cases hany
    refine ⟨?_, by rw [closing, if_neg (by simp [hhead])]; rfl⟩
    cases hb : base.head? with
    | none => rfl
    | some b =>
      rw [hb, Option.any_some] at hhead
      simp [hhead]
  | cons b bs =>
    refine ⟨rfl, ?_⟩
    rw [closing, closing, List.cons_append, List.head?_cons, List.head?_cons]
    split <;> rfl

theorem closingBrace_eq {inner outer : List Bracket} (h : .brace ∉ inner) :
    closingBrace (inner ++ .brace :: outer) = outer := by
  have hall : ∀ b ∈ inner, (b != .brace) = true := by
    intro b hb
    rw [bne_iff_ne]
    rintro rfl
    exact h hb
  rw [closingBrace, if_pos (by simp), List.dropWhile_append_of_pos hall]
  simp

/-- A brace is closed in the upper part alone if the lower part is still there. -/
theorem closingBrace_append (h : base <:+ closingBrace (bs ++ base)) :
    closingBrace (bs ++ base) = closingBrace bs ++ base := by
  by_cases hbs : .brace ∈ bs
  · obtain ⟨inner, outer, rfl, hinner⟩ := List.eq_append_cons_of_mem hbs
    rw [List.append_assoc, List.cons_append, closingBrace_eq hinner, closingBrace_eq hinner]
  · by_cases hbase : .brace ∈ base
    · -- the brace that is closed would be one of the others
      obtain ⟨inner, outer, rfl, hinner⟩ := List.eq_append_cons_of_mem hbase
      rw [← List.append_assoc, closingBrace_eq (by simp [hbs, hinner])] at h
      exact absurd h.length_le (by simp; omega)
    · rw [closingBrace, closingBrace, if_neg hbs, if_neg (by simp [hbs, hbase])]

/-- A brace that is opened over other brackets, the angle brackets over which are dropped. -/
theorem dropWhile_append_of_suffix_brace
    (h : base <:+ .brace :: (bs ++ base).dropWhile Bracket.isAngle) :
    (bs ++ base).dropWhile Bracket.isAngle = bs.dropWhile Bracket.isAngle ++ base := by
  rcases List.suffix_cons_iff.1 h with heq | h
  · -- the brace would be one of the other brackets, which cannot be among those dropped
    exfalso
    have hlen := congrArg List.length heq
    rw [List.length_cons, List.dropWhile_append] at hlen
    split at hlen
    · rw [heq] at hlen
      simp [Bracket.isAngle] at hlen
    · rw [List.length_append] at hlen
      omega
  · exact dropWhile_append_of_suffix h

end

/-! ## One bracket more -/

section

variable (n : Nesting) {b : Bracket}

@[simp]
theorem pop_push (b : Bracket) : (n.push b).pop = n := by
  cases h : b.suppresses <;> simp [push, pop, h]

theorem suppressed_le_push (b : Bracket) : n.suppressed ≤ (n.push b).suppressed := by
  unfold push
  split
  · exact Nat.le_succ _
  · exact Nat.le_refl _

theorem brackets_popMany (count : Nat) : (n.popMany count).brackets = n.brackets.drop count := by
  induction count generalizing n with
  | zero => rfl
  | succ count ih =>
    rw [popMany, ih]
    obtain ⟨bs, suppressed⟩ := n
    cases bs with
    | nil => simp [pop]
    | cons b bs => rfl

theorem brackets_dropAngles : n.dropAngles.brackets = n.brackets.dropWhile Bracket.isAngle := by
  rw [dropAngles, brackets_popMany, drop_length_takeWhile]

theorem dropAngles_push (hb : b.isAngle = true) : (n.push b).dropAngles = n.dropAngles := by
  rw [dropAngles, push, List.takeWhile_cons_of_pos hb, List.length_cons, popMany]
  exact congrArg (popMany _) (pop_push n b)

theorem closeAngle_push (hb : b.isAngle = true) : (n.push b).closeAngle = (some b, n) := by
  cases b with
  | angle header =>
    rw [closeAngle]
    exact congrArg (Prod.mk _) (pop_push n _)
  | _ => cases hb

theorem closeBrace_push_brace : (n.push .brace).closeBrace = n := by
  rw [closeBrace, push, if_pos (by simp), List.takeWhile_cons_of_neg (by decide)]
  exact pop_push n .brace

/-- A closing brace closes what stands above the innermost brace with it. -/
theorem closeBrace_push (hb : b ≠ .brace) (hn : .brace ∈ n.brackets) :
    (n.push b).closeBrace = n.closeBrace := by
  have htake : ((n.push b).brackets.takeWhile (· != .brace)).length =
      (n.brackets.takeWhile (· != .brace)).length + 1 := by
    simp [push, hb]
  rw [closeBrace, closeBrace, if_pos (by simp [push, hn]), if_pos (by simp [hn]), htake,
    popMany, pop_push]

end

/-- Whether the innermost bracket is no angle bracket. -/
def IsFirm (n : Nesting) : Prop :=
  ∀ b ∈ n.brackets.head?, b.isAngle = false

theorem isFirm_push (n : Nesting) {b : Bracket} (hb : b.isAngle = false) : (n.push b).IsFirm := by
  intro b' hb'
  obtain rfl : b = b' := Option.some.inj hb'
  exact hb

theorem IsFirm.dropAngles_eq {n : Nesting} (h : n.IsFirm) : n.dropAngles = n := by
  obtain ⟨bs, suppressed⟩ := n
  cases bs with
  | nil => rfl
  | cons b bs =>
    have hb : b.isAngle = false := h b rfl
    rw [dropAngles, List.takeWhile_cons_of_neg (by simp [hb])]
    rfl

/-- Where no angle bracket is innermost, there is none to close. -/
theorem IsFirm.closeAngle_eq {n : Nesting} (h : n.IsFirm) : n.closeAngle = (none, n) := by
  obtain ⟨bs, suppressed⟩ := n
  cases bs with
  | nil => rfl
  | cons b bs =>
    have hb : b.isAngle = false := h b rfl
    cases b with
    | angle header => cases hb
    | paren operand => rfl
    | square => rfl
    | brace => rfl

end EastConst.Nesting
