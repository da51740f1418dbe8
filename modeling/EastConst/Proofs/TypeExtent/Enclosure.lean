import EastConst.TypeExtent

/-!
# Open brackets

An `Enclosure` is a bracket that some scan has open: a template argument list, or the operand of
`decltype`. `Enclosure.rest?` runs its counters to the token that closes it. A list that is read
inside another bracket is invisible from there: the counters of the two add up (`around`), every
token moves the sum as it moves the inner counters (`after_around_of_more`), and the token that
closes the inner list gives the outer bracket back (`after_around_of_closed`).
-/

namespace EastConst.TypeExtent

/-! ## The counters of template argument lists -/

namespace Depths

variable {o d d' : Depths} {t : Token}

/-- A list is closed outside parentheses and square brackets, by as many angle brackets as are
open. -/
theorem after_eq_closed (h : d.after t = .closed) :
    d.parens = 0 ∧ d.squares = 0 ∧
      (t.mark? = some .greater ∧ d.angles ≤ 1 ∨ t.mark? = some .greaterGreater ∧ d.angles = 2) := by
  unfold after at h
  grind

theorem one_le_angles_of_more (hd : 1 ≤ d.angles) (h : d.after t = .more d') : 1 ≤ d'.angles := by
  unfold after at h
  grind

/-- The counters of a list and of another list in it, taken together. Inside parentheses or square
brackets of the outer list, the angle brackets of the inner one do not count. -/
def add (o d : Depths) : Depths where
  angles := if o.parens = 0 ∧ o.squares = 0 then o.angles + d.angles else o.angles
  parens := o.parens + d.parens
  squares := o.squares + d.squares

theorem after_of_less (h : t.isMark .less = true) : o.after t = .more (o.add { angles := 1 }) := by
  rw [Token.isMark, beq_iff_eq] at h
  obtain ⟨angles, parens, squares⟩ := o
  simp only [after, h, add]
  grind

/-- A list inside another is read as it is by itself, with the counters of the other one added. -/
theorem after_add_of_more (ho : 1 ≤ o.angles) (hd : 1 ≤ d.angles) (h : d.after t = .more d') :
    (o.add d).after t = .more (o.add d') := by
  unfold after at h ⊢
  generalize t.mark? = m at h ⊢
  rcases m with _ | m
  · simp only [add] at h ⊢
    grind
  · cases m <;> simp only [add] at h ⊢ <;> grind

/-- Where an inner list is closed, the outer one goes on. -/
theorem after_add_of_closed (ho : 1 ≤ o.angles) (hd : 1 ≤ d.angles) (h : d.after t = .closed) :
    (o.add d).after t = .more o := by
  obtain ⟨hp, hs, hm⟩ := after_eq_closed h
  obtain ⟨angles, parens, squares⟩ := o
  rcases hm with ⟨hm, hangles⟩ | ⟨hm, hangles⟩
  · simp only [after, hm, add, hp, hs]
    grind
  · simp only [after, hm, add, hp, hs]
    grind

end Depths

/-! ## Open brackets -/

/-- A bracket that is open, with what is open in it. -/
inductive Enclosure where
  | arguments (depths : Depths)
  | operand (depth : Nat)

namespace Enclosure

/-- What a token does to an open bracket. -/
inductive Step where
  | on (e : Enclosure)
  | closed
  | refused

/-- Takes an open bracket over one token. -/
def after : Enclosure → Token → Step
  | .arguments d, t =>
    match d.after t with
    | .more d' => .on (.arguments d')
    | .closed => .closed
    | .refused _ => .refused
  | .operand depth, t =>
    match t.mark? with
    | some .parenOpen => .on (.operand (depth + 1))
    | some .parenClose => if depth ≤ 1 then .closed else .on (.operand (depth - 1))
    | some .semicolon | some .braceOpen | some .braceClose => .refused
    | _ => .on (.operand depth)

/-- The tokens after the one that closes an open bracket. -/
def rest? : Enclosure → List Token → Option (List Token)
  | _, [] => none
  | e, t :: ts =>
    match e.after t with
    | .on e' => e'.rest? ts
    | .closed => some ts
    | .refused => none

/-- Whether the counters of a bracket say that it is open. -/
def IsOpen : Enclosure → Prop
  | .arguments d => 1 ≤ d.angles
  | .operand depth => 1 ≤ depth

section

variable {e e' o : Enclosure} {d d' : Depths} {t : Token} {ts : List Token}

theorem rest?_of_on (h : e.after t = .on e') (ts : List Token) :
    e.rest? (t :: ts) = e'.rest? ts := by
  rw [rest?, h]

theorem rest?_of_closed (h : e.after t = .closed) (ts : List Token) :
    e.rest? (t :: ts) = some ts := by
  rw [rest?, h]

theorem rest?_of_refused (h : e.after t = .refused) (ts : List Token) :
    e.rest? (t :: ts) = none := by
  rw [rest?, h]

theorem after_arguments_of_more (h : d.after t = .more d') :
    (arguments d).after t = .on (.arguments d') := by
  rw [after, h]

theorem after_arguments_of_closed (h : d.after t = .closed) : (arguments d).after t = .closed := by
  rw [after, h]

/-- Words, literals and `::` do nothing to a bracket. -/
theorem after_of_plain (e : Enclosure) (h : t.mark? = none ∨ t.mark? = some .scope) :
    e.after t = .on e := by
  cases e with
  | arguments d => rcases h with h | h <;> simp [after, Depths.after, h]
  | operand depth => rcases h with h | h <;> simp [after, h]

/-- Tokens that are no punctuation are read over. -/
theorem rest?_append_of_plain (e : Enclosure) (h : ∀ t ∈ ts, t.mark? = none) (us : List Token) :
    e.rest? (ts ++ us) = e.rest? us := by
  induction ts with
  | nil => rfl
  | cons t ts ih =>
    rw [List.cons_append, rest?_of_on (e.after_of_plain (.inl (h t List.mem_cons_self)))]
    exact ih fun u hu => h u (List.mem_cons_of_mem _ hu)

/-- What closes a bracket closes it whatever comes later. -/
theorem isSome_rest?_append (h : (e.rest? ts).isSome) (us : List Token) :
    (e.rest? (ts ++ us)).isSome := by
  induction ts generalizing e with
  | nil => cases h
  | cons t ts ih =>
    cases hstep : e.after t with
    | on e' =>
      rw [rest?_of_on hstep] at h
      rw [List.cons_append, rest?_of_on hstep]
      exact ih h
    | closed =>
      rw [List.cons_append, rest?_of_closed hstep]
      rfl
    | refused =>
      rw [rest?_of_refused hstep] at h
      cases h

theorem IsOpen.after (h : e.IsOpen) (hstep : e.after t = .on e') : e'.IsOpen := by
  cases e with
  | arguments d =>
    rw [Enclosure.after] at hstep
    split at hstep
    · rename_i d' hd
      cases hstep
      exact Depths.one_le_angles_of_more h hd
    · cases hstep
    · cases hstep
  | operand depth =>
    rw [Enclosure.after] at hstep
    unfold IsOpen at h ⊢
    grind

/-! ## A list inside a bracket -/

/-- The counters of a bracket and of a template argument list in it, taken together. -/
def around : Enclosure → Depths → Enclosure
  | .arguments o, d => .arguments (o.add d)
  | .operand depth, d => .operand (depth + d.parens)

theorem after_of_less (o : Enclosure) (h : t.isMark .less = true) :
    o.after t = .on (o.around { angles := 1 }) := by
  cases o with
  | arguments o => exact after_arguments_of_more (Depths.after_of_less h)
  | operand depth =>
    rw [Token.isMark, beq_iff_eq] at h
    simp [after, h, around]

theorem after_around_of_more (ho : o.IsOpen) (hd : 1 ≤ d.angles) (h : d.after t = .more d') :
    (o.around d).after t = .on (o.around d') := by
  cases o with
  | arguments o => exact after_arguments_of_more (Depths.after_add_of_more ho hd h)
  | operand depth =>
    change 1 ≤ depth at ho
    unfold Depths.after at h
    simp only [around, after]
    generalize t.mark? = m at h ⊢
    rcases m with _ | m
    · grind
    · cases m <;> grind

/-- A list inside a bracket is closed without closing the bracket. -/
theorem after_around_of_closed (ho : o.IsOpen) (hd : 1 ≤ d.angles) (h : d.after t = .closed) :
    (o.around d).after t = .on o := by
  cases o with
  | arguments o => exact after_arguments_of_more (Depths.after_add_of_closed ho hd h)
  | operand depth =>
    obtain ⟨hp, -, hm⟩ := Depths.after_eq_closed h
    rcases hm with ⟨hm, -⟩ | ⟨hm, -⟩ <;> simp [around, after, hm, hp]

/-! ## Inside a bracket -/

/-- After a word inside a bracket, a bracket is open that what follows closes. -/
theorem exists_rest?_of_inside {q : Token} {us : List Token} (he : e.IsOpen) (hq : q.mark? = none)
    (h : e.rest? (ts ++ q :: us) = some []) : ∃ o : Enclosure, o.IsOpen ∧ (o.rest? us).isSome := by
  induction ts generalizing e with
  | nil =>
    rw [List.nil_append, rest?_of_on (e.after_of_plain (.inl hq))] at h
    exact ⟨e, he, by rw [h]; rfl⟩
  | cons t ts ih =>
    rw [List.cons_append] at h
    cases hstep : e.after t with
    | on e' =>
      rw [rest?_of_on hstep] at h
      exact ih (he.after hstep) h
    | closed =>
      rw [rest?_of_closed hstep] at h
      simp at h
    | refused =>
      rw [rest?_of_refused hstep] at h
      cases h

/-- How many parentheses a bracket has open inside it. -/
def parens : Enclosure → Nat
  | .arguments d => d.parens
  | .operand depth => depth - 1

theorem after_of_parenOpen (ho : o.IsOpen) (h : t.isMark .parenOpen = true) :
    ∃ o', o.after t = .on o' ∧ 1 ≤ o'.parens := by
  rw [Token.isMark, beq_iff_eq] at h
  cases o with
  | arguments d => exact ⟨_, after_arguments_of_more (by rw [Depths.after, h]), Nat.le_add_left 1 _⟩
  | operand depth => exact ⟨.operand (depth + 1), by rw [after, h], ho⟩

/-- Takes a number of open parentheses over one token. -/
def parensAfter (n : Nat) (t : Token) : Nat :=
  match t.mark? with
  | some .parenOpen => n + 1
  | some .parenClose => n - 1
  | _ => n

theorem parensAfter_le {n m : Nat} (h : n ≤ m) (t : Token) : parensAfter n t ≤ parensAfter m t := by
  unfold parensAfter
  split <;> omega

theorem after_operand_of_on {depth : Nat} (h : (operand depth).after t = .on e) :
    e = operand (parensAfter depth t) := by
  unfold after at h
  unfold parensAfter
  grind

/-- An operand ends with a closing parenthesis. -/
theorem isMark_of_operand {depth : Nat} (h : (operand depth).rest? (ts ++ [t]) = some []) :
    t.isMark .parenClose = true := by
  induction ts generalizing depth with
  | nil =>
    cases hstep : (operand depth).after t with
    | on e =>
      rw [List.nil_append, rest?_of_on hstep] at h
      cases h
    | closed =>
      unfold after at hstep
      rw [Token.isMark, beq_iff_eq]
      grind
    | refused =>
      rw [List.nil_append, rest?_of_refused hstep] at h
      cases h
  | cons u ts ih =>
    rw [List.cons_append] at h
    cases hstep : (operand depth).after u with
    | on e =>
      rw [rest?_of_on hstep, after_operand_of_on hstep] at h
      exact ih h
    | closed =>
      rw [rest?_of_closed hstep] at h
      simp at h
    | refused =>
      rw [rest?_of_refused hstep] at h
      cases h

/-- A bracket with parentheses open inside it is not closed, and counts them. -/
theorem after_of_one_le_parens (ho : 1 ≤ o.parens) (t : Token) :
    o.after t = .refused ∨ ∃ o', o.after t = .on o' ∧ o'.parens = parensAfter o.parens t := by
  cases o with
  | arguments d =>
    change 1 ≤ d.parens at ho
    simp only [after, Depths.after, parensAfter]
    generalize t.mark? = m
    rcases m with _ | m
    · simp [Nat.lt_of_lt_of_le Nat.zero_lt_one ho, parens]
    · cases m <;> simp [parens] <;> grind [parens]
  | operand depth =>
    change 1 ≤ depth - 1 at ho
    simp only [after, parensAfter]
    generalize t.mark? = m
    rcases m with _ | m
    · simp [parens]
    · cases m <;> simp [parens] <;> grind [parens]

/-- An operand that is read inside a bracket does not close it. -/
theorem rest?_eq_none_of_operand {depth : Nat} (hdepth : 1 ≤ depth) (ho : depth ≤ o.parens)
    (h : (operand depth).rest? ts = some []) : o.rest? ts = none := by
  induction ts generalizing o depth with
  | nil => rfl
  | cons t ts ih =>
    rcases after_of_one_le_parens (Nat.le_trans hdepth ho) t with hstep | ⟨o', hstep, ho'⟩
    · exact rest?_of_refused hstep ts
    · rw [rest?_of_on hstep]
      cases hop : (operand depth).after t with
      | on e =>
        rw [rest?_of_on hop] at h
        have hopen : e.IsOpen := IsOpen.after (e := .operand depth) hdepth hop
        obtain rfl := after_operand_of_on hop
        exact ih hopen (ho' ▸ parensAfter_le ho t) h
      | closed =>
        rw [rest?_of_closed hop] at h
        obtain rfl := Option.some.inj h
        rfl
      | refused =>
        rw [rest?_of_refused hop] at h
        cases h

end

end Enclosure

end EastConst.TypeExtent
