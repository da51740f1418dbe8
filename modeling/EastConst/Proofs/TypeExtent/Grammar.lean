import EastConst.Proofs.Token.Parens
import EastConst.Proofs.TypeExtent.Phrase

/-!
# The grammar of types

A type is, by its first token, an elaborated name, a run of words of fundamental types, `decltype`
with its operand, or a name (`IsType`). The grammar counts brackets over whole stretches of tokens:
an operand and a list of template arguments end where, for the first time, as much is closed in them
as is opened (`IsBracketed`).

The scanner holds the differences of these counts while it reads. So it closes a bracket where the
grammar does (`Enclosure.rest?_operand_iff`, `Enclosure.rest?_arguments_iff`), and the tokens that
complete a name are a name (`completes_start_iff`).
-/

namespace EastConst

/-- Whether a token is a mark that a statement does not go on over. -/
def Token.endsStatement (t : Token) : Bool :=
  t.isMark .semicolon || t.isMark .braceOpen || t.isMark .braceClose

/-- How many of some tokens are a mark. -/
def countMark (m : Mark) (ts : List Token) : Nat :=
  ts.countP (·.isMark m)

theorem countMark_concat (m : Mark) (ts : List Token) (t : Token) :
    countMark m (ts ++ [t]) = countMark m ts + if t.mark? = some m then 1 else 0 := by
  simp [countMark, List.countP_append, List.countP_cons, Token.isMark]

namespace TypeExtent

/-! ## Brackets -/

/-- Whether tokens start with a mark, belong to one statement, and end where for the first time as
much is closed in them as is opened. -/
structure IsBracketed (m : Mark) (opened closed : List Token → Nat) (ts : List Token) : Prop where
  first : ∃ t ∈ ts.head?, t.isMark m = true
  statement : ∀ t ∈ ts, t.endsStatement = false
  before : ∀ us, us <+: ts → us ≠ [] → us ≠ ts → closed us < opened us
  total : closed ts = opened ts

/-- Whether tokens are the operand of `decltype`, with its parentheses. -/
def IsOperand (ts : List Token) : Prop :=
  IsBracketed .parenOpen opened closed ts

/-- Whether parentheses or square brackets are open behind tokens. -/
def leavesOpen (ts : List Token) : Bool :=
  countMark .parenClose ts < countMark .parenOpen ts ||
    countMark .squareClose ts < countMark .squareOpen ts

/-- The tokens that stand outside the parentheses and square brackets among them. -/
def outside (ts : List Token) : List Token :=
  (ts.zipIdx.filter fun e => !leavesOpen (ts.take e.2)).map Prod.fst

/-- How many angle brackets tokens open, outside parentheses and square brackets. -/
def anglesOpened (ts : List Token) : Nat :=
  countMark .less (outside ts)

/-- How many angle brackets tokens close, outside parentheses and square brackets. -/
def anglesClosed (ts : List Token) : Nat :=
  countMark .greater (outside ts) + 2 * countMark .greaterGreater (outside ts)

/-- Whether tokens have closed no more parentheses and no more square brackets than they have
opened. -/
def ClosesOwn (ts : List Token) : Prop :=
  countMark .parenClose ts ≤ countMark .parenOpen ts ∧
    countMark .squareClose ts ≤ countMark .squareOpen ts

instance : DecidablePred ClosesOwn :=
  fun _ => inferInstanceAs (Decidable (_ ∧ _))

/-- Whether tokens are a list of template arguments, with its angle brackets. -/
structure IsArguments (ts : List Token) : Prop where
  own : ∀ us, us <+: ts → ClosesOwn us
  angles : IsBracketed .less anglesOpened anglesClosed ts

/-! ## Names -/

/-- Whether tokens are the word `template`, or none at all. -/
def IsTemplateWord (ts : List Token) : Prop :=
  ts = [] ∨ ∃ t, ts = [t] ∧ t.isKeyword "template" = true

/-- A component of a name: an identifier, behind the word `template` or not, with template arguments
or not. -/
inductive IsComponent : List Token → Prop
  | intro {word args : List Token} {t : Token} (hword : IsTemplateWord word)
    (ht : t.kind = .identifier)
    (hargs : args = [] ∨ IsArguments args) : IsComponent (word ++ t :: args)

/-- Components joined by `::`. -/
inductive IsPath : List Token → Prop
  | single {ts : List Token} (h : IsComponent ts) : IsPath ts
  | cons {ts us : List Token} {s : Token} (h : IsComponent ts) (hs : s.isMark .scope = true)
    (hus : IsPath us) :
    IsPath (ts ++ s :: us)

/-- A name: components joined by `::`, and a `::` before them or not. -/
inductive IsName : List Token → Prop
  | relative {ts : List Token} (h : IsPath ts) : IsName ts
  | global {ts : List Token} {s : Token} (hs : s.isMark .scope = true) (h : IsPath ts) :
    IsName (s :: ts)

/-! ## Types -/

/-- The forms of types. -/
inductive Form where
  | elaborated
  | fundamental
  | decltype
  | name
  deriving DecidableEq, Repr

/-- The form of a type by its first token. -/
def Form.of (t : Token) : Form :=
  if t.kind = .keyword ∧ Vocabulary.isElaborator t.text then .elaborated
  else if t.isBuiltinType then .fundamental
  else if t.isKeyword "decltype" then .decltype
  else .name

/-- Whether tokens are a type. -/
def IsType : List Token → Prop
  | [] => False
  | t :: ts =>
    match Form.of t with
    | .elaborated => IsName ts
    | .fundamental => ∀ u ∈ ts, u.isBuiltinType = true
    | .decltype => IsOperand ts
    | .name => IsName (t :: ts)

/-! ## Brackets that are being read -/

/-- Whether tokens start what is bracketed, and leave it open. -/
structure IsOpening (m : Mark) (opened closed : List Token → Nat) (ts : List Token) : Prop where
  first : ∃ t ∈ ts.head?, t.isMark m = true
  statement : ∀ t ∈ ts, t.endsStatement = false
  before : ∀ us, us <+: ts → us ≠ [] → closed us < opened us

section

variable {m : Mark} {opened closed : List Token → Nat} {t : Token} {ts us : List Token}

theorem IsOpening.ne_nil (h : IsOpening m opened closed us) : us ≠ [] := by
  obtain ⟨u, hu, -⟩ := h.first
  rintro rfl
  cases hu

theorem IsOpening.lt (h : IsOpening m opened closed us) : closed us < opened us :=
  h.before us (List.prefix_refl us) h.ne_nil

theorem IsOpening.not_isBracketed (h : IsOpening m opened closed us) :
    ¬ IsBracketed m opened closed us :=
  fun hb => Nat.ne_of_lt h.lt hb.total

theorem isOpening_singleton (hm : t.isMark m = true) (ht : t.endsStatement = false)
    (hlt : closed [t] < opened [t]) : IsOpening m opened closed [t] where
  first := ⟨t, rfl, hm⟩
  statement := by
    intro u hu
    rwa [List.mem_singleton.1 hu]
  before := by
    intro us hus hne
    rcases List.prefix_cons_iff.1 hus with rfl | ⟨vs, rfl, hvs⟩
    · exact absurd rfl hne
    · rwa [List.prefix_nil.1 hvs]

/-- The step lemma: one token more leaves it open. -/
theorem IsOpening.concat (h : IsOpening m opened closed us) (ht : t.endsStatement = false)
    (hlt : closed (us ++ [t]) < opened (us ++ [t])) : IsOpening m opened closed (us ++ [t]) where
  first := by
    obtain ⟨u, hu, hm⟩ := h.first
    exact ⟨u, by rw [List.head?_append, Option.mem_def.1 hu]; rfl, hm⟩
  statement := by
    intro u hu
    rcases List.mem_append.1 hu with hu | hu
    · exact h.statement u hu
    · rwa [List.mem_singleton.1 hu]
  before := by
    intro vs hvs hne
    rcases List.prefix_concat_iff.1 hvs with rfl | hvs
    · exact hlt
    · exact h.before vs hvs hne

/-- The step lemma: one token more closes it. -/
theorem IsOpening.close (h : IsOpening m opened closed us) (ht : t.endsStatement = false)
    (heq : closed (us ++ [t]) = opened (us ++ [t])) : IsBracketed m opened closed (us ++ [t]) where
  first := by
    obtain ⟨u, hu, hm⟩ := h.first
    exact ⟨u, by rw [List.head?_append, Option.mem_def.1 hu]; rfl, hm⟩
  statement := by
    intro u hu
    rcases List.mem_append.1 hu with hu | hu
    · exact h.statement u hu
    · rwa [List.mem_singleton.1 hu]
  before := by
    intro vs hvs hne hne'
    rcases List.prefix_concat_iff.1 hvs with rfl | hvs
    · exact absurd rfl hne'
    · exact h.before vs hvs hne
  total := heq

/-- What is bracketed goes on over a token only if the token belongs to the statement and closes no
more than is open. -/
theorem IsBracketed.le_concat (h : IsBracketed m opened closed (us ++ t :: ts)) :
    t.endsStatement = false ∧ closed (us ++ [t]) ≤ opened (us ++ [t]) ∧
      (closed (us ++ [t]) = opened (us ++ [t]) → ts = []) := by
  refine ⟨h.statement t (by simp), ?_⟩
  have hsplit : us ++ t :: ts = us ++ [t] ++ ts := by simp
  cases ts with
  | nil => exact ⟨Nat.le_of_eq h.total, fun _ => rfl⟩
  | cons u ts =>
    have hlt := h.before (us ++ [t]) (hsplit ▸ List.prefix_append _ _) (by simp) (by simp)
    exact ⟨Nat.le_of_lt hlt, fun heq => absurd heq (Nat.ne_of_lt hlt)⟩

end

/-- What reads an open bracket as it is described closes it where the description ends. `Open` says
which tokens have been read where a bracket stands open, `Whole` describes the bracket and what is
in it. -/
theorem Enclosure.rest?_eq_nil_iff (Open : Enclosure → List Token → Prop)
    (Whole : List Token → Prop) (hopen : ∀ e us, Open e us → ¬ Whole us)
    (hon : ∀ e us t e', Open e us → e.after t = .on e' → Open e' (us ++ [t]))
    (hclosed : ∀ e us t, Open e us → e.after t = .closed →
      Whole (us ++ [t]) ∧ ∀ ts, Whole (us ++ t :: ts) → ts = [])
    (hrefused : ∀ e us t, Open e us → e.after t = .refused → ∀ ts, ¬ Whole (us ++ t :: ts))
    {e : Enclosure} {us : List Token} (h : Open e us) (ts : List Token) :
    e.rest? ts = some [] ↔ Whole (us ++ ts) := by
  induction ts generalizing e us with
  | nil =>
    rw [List.append_nil]
    constructor
    · intro hnil
      cases hnil
    · exact fun hwhole => absurd hwhole (hopen e us h)
  | cons t ts ih =>
    cases hstep : e.after t with
    | on e' =>
      rw [rest?_of_on hstep, ih (hon e us t e' h hstep), List.append_assoc]
      rfl
    | closed =>
      obtain ⟨hwhole, hend⟩ := hclosed e us t h hstep
      rw [rest?_of_closed hstep, Option.some.injEq]
      exact ⟨fun hnil => hnil ▸ hwhole, hend ts⟩
    | refused =>
      rw [rest?_of_refused hstep]
      constructor
      · intro hnil
        cases hnil
      · exact fun hwhole => absurd hwhole (hrefused e us t h hstep ts)

/-! ## Operands -/

theorem opened_concat (ts : List Token) (t : Token) :
    opened (ts ++ [t]) = opened ts + if t.mark? = some .parenOpen then 1 else 0 :=
  countMark_concat .parenOpen ts t

theorem closed_concat (ts : List Token) (t : Token) :
    closed (ts ++ [t]) = closed ts + if t.mark? = some .parenClose then 1 else 0 :=
  countMark_concat .parenClose ts t

/-- Where the reading of an operand stands after some of its tokens. -/
theorem Enclosure.after_operand {us : List Token} (h : closed us < opened us) (t : Token) :
    (Enclosure.operand (opened us - closed us)).after t =
      if t.endsStatement then .refused
      else if closed (us ++ [t]) < opened (us ++ [t]) then
        .on (.operand (opened (us ++ [t]) - closed (us ++ [t])))
      else .closed := by
  rw [opened_concat, closed_concat]
  obtain ⟨mark?, hm⟩ : ∃ mark?, t.mark? = mark? := ⟨_, rfl⟩
  simp only [Enclosure.after, Token.endsStatement, Token.isMark, hm]
  cases mark? with
  | none => simp [h]
  | some m => cases m <;> simp [h] <;> grind

theorem Enclosure.closed_le_opened {us : List Token} (h : closed us < opened us) (t : Token) :
    closed (us ++ [t]) ≤ opened (us ++ [t]) := by
  rw [opened_concat, closed_concat]
  split <;> omega

/-- What closes an operand that is open is what completes it. -/
theorem Enclosure.rest?_operand_iff {us : List Token} (h : IsOpening .parenOpen opened closed us)
    (ts : List Token) :
    (Enclosure.operand (opened us - closed us)).rest? ts = some [] ↔ IsOperand (us ++ ts) := by
  refine Enclosure.rest?_eq_nil_iff
    (fun e us => e = .operand (opened us - closed us) ∧ IsOpening .parenOpen opened closed us)
      IsOperand
    ?_ ?_ ?_ ?_ ⟨rfl, h⟩ ts
  · rintro e us ⟨-, hus⟩
    exact hus.not_isBracketed
  · rintro e us t e' ⟨rfl, hus⟩ hstep
    rw [after_operand hus.lt] at hstep
    split at hstep
    · cases hstep
    · rename_i ht
      split at hstep
      · rename_i hlt
        cases hstep
        exact ⟨rfl, hus.concat (by simpa using ht) hlt⟩
      · cases hstep
  · rintro e us t ⟨rfl, hus⟩ hstep
    rw [after_operand hus.lt] at hstep
    split at hstep
    · cases hstep
    · rename_i ht
      split at hstep
      · cases hstep
      · rename_i hge
        have heq := Nat.le_antisymm (closed_le_opened hus.lt t) (Nat.le_of_not_lt hge)
        exact ⟨hus.close (by simpa using ht) heq, fun ts hts => hts.le_concat.2.2 heq⟩
  · rintro e us t ⟨rfl, hus⟩ hstep ts hts
    rw [after_operand hus.lt, if_neg (by simp [hts.le_concat.1])] at hstep
    split at hstep <;> cases hstep

theorem isOperand_cons_iff {t : Token} (h : t.isMark .parenOpen = true) (ts : List Token) :
    IsOperand (t :: ts) ↔ (Enclosure.operand 1).rest? ts = some [] := by
  have hm : t.mark? = some .parenOpen := beq_iff_eq.1 h
  have hopened : opened [t] = 1 := by simp [opened, h]
  have hclosed : closed [t] = 0 := by simp [closed, Token.isMark, hm]
  have hopening : IsOpening .parenOpen opened closed [t] :=
    isOpening_singleton h (by simp [Token.endsStatement, Token.isMark, hm]) (by omega)
  have hiff := Enclosure.rest?_operand_iff hopening ts
  rw [hopened, hclosed] at hiff
  exact hiff.symm

/-! ## Template arguments -/

theorem outside_concat (ts : List Token) (t : Token) :
    outside (ts ++ [t]) = outside ts ++ if leavesOpen ts then [] else [t] := by
  have hts : ts.zipIdx.filter (fun e => !leavesOpen ((ts ++ [t]).take e.2)) =
      ts.zipIdx.filter fun e => !leavesOpen (ts.take e.2) := by
    refine List.filter_congr fun e he => ?_
    have hlt : e.2 < ts.length := by
      obtain ⟨u, i⟩ := e
      simpa using (List.mem_zipIdx he).2.1
    rw [List.take_append_of_le_length (Nat.le_of_lt hlt)]
  rw [outside, List.zipIdx_append, List.filter_append, List.map_append, hts, outside]
  congr 1
  rw [List.zipIdx_singleton, List.filter_cons, Nat.zero_add, List.take_left]
  cases leavesOpen ts <;> simp

theorem anglesOpened_concat (ts : List Token) (t : Token) :
    anglesOpened (ts ++ [t]) =
      anglesOpened ts + if leavesOpen ts = false ∧ t.mark? = some .less then 1 else 0 := by
  rw [anglesOpened, outside_concat, anglesOpened]
  cases leavesOpen ts with
  | true => simp
  | false => simp [countMark_concat]

theorem anglesClosed_concat (ts : List Token) (t : Token) :
    anglesClosed (ts ++ [t]) =
      anglesClosed ts + if leavesOpen ts = false ∧ t.mark? = some .greater then 1
        else if leavesOpen ts = false ∧ t.mark? = some .greaterGreater then 2 else 0 := by
  rw [anglesClosed, outside_concat, anglesClosed]
  cases leavesOpen ts with
  | true => simp
  | false =>
    simp only [countMark_concat, Bool.false_eq_true, if_false, true_and]
    split
    · rename_i hm
      simp [hm]
      omega
    · split <;> omega

/-- The brackets that are open behind some tokens of a list of template arguments. -/
def Depths.behind (ts : List Token) : Depths where
  angles := anglesOpened ts - anglesClosed ts
  parens := countMark .parenOpen ts - countMark .parenClose ts
  squares := countMark .squareOpen ts - countMark .squareClose ts

/-- Parentheses and square brackets are open behind tokens exactly if a counter is not zero. -/
theorem Depths.leavesOpen_iff (ts : List Token) :
    leavesOpen ts = true ↔ 0 < (behind ts).parens ∨ 0 < (behind ts).squares := by
  simp only [leavesOpen, behind, Bool.or_eq_true, decide_eq_true_eq]
  omega

/-- Where the reading of template arguments stands after some of their tokens. -/
theorem Depths.after_behind {us : List Token} (hown : ClosesOwn us)
    (h : anglesClosed us < anglesOpened us) (t : Token) :
    (behind us).after t =
      if t.endsStatement ∨ ¬ ClosesOwn (us ++ [t]) then .refused .unbalancedTemplate
      else if anglesClosed (us ++ [t]) < anglesOpened (us ++ [t]) then .more (behind (us ++ [t]))
      else if anglesClosed (us ++ [t]) = anglesOpened (us ++ [t]) then .closed
      else .refused .splitAngle := by
  obtain ⟨mark?, hm⟩ : ∃ mark?, t.mark? = mark? := ⟨_, rfl⟩
  obtain ⟨open?, ho⟩ : ∃ open?, leavesOpen us = open? := ⟨_, rfl⟩
  have hdepth := leavesOpen_iff us
  unfold ClosesOwn at hown ⊢
  simp only [behind, ho] at hdepth
  simp only [Depths.after, behind, anglesOpened_concat, anglesClosed_concat, countMark_concat,
    Token.endsStatement, Token.isMark, hm, ho]
  cases mark? with
  | none => grind
  | some m => cases m <;> simp <;> grind

/-- Whether tokens start a list of template arguments, and leave it open. -/
structure OpensArguments (ts : List Token) : Prop where
  own : ∀ us, us <+: ts → ClosesOwn us
  angles : IsOpening .less anglesOpened anglesClosed ts

theorem OpensArguments.own_concat {us : List Token} {t : Token} (h : OpensArguments us)
    (ht : ClosesOwn (us ++ [t])) : ∀ vs, vs <+: us ++ [t] → ClosesOwn vs := by
  intro vs hvs
  rcases List.prefix_concat_iff.1 hvs with rfl | hvs
  · exact ht
  · exact h.own vs hvs

/-- A token behind opened arguments: it ends a statement, closes what it did not open, goes on, or
closes the list. -/
theorem OpensArguments.after {us : List Token} (h : OpensArguments us) (t : Token) :
    (Enclosure.arguments (Depths.behind us)).after t =
      if t.endsStatement ∨ ¬ ClosesOwn (us ++ [t]) then .refused
      else if anglesClosed (us ++ [t]) < anglesOpened (us ++ [t]) then
        .on (.arguments (Depths.behind (us ++ [t])))
      else if anglesClosed (us ++ [t]) = anglesOpened (us ++ [t]) then .closed
      else .refused := by
  rw [Enclosure.after, Depths.after_behind (h.own us (List.prefix_refl us)) h.angles.lt]
  grind

theorem IsArguments.own_of_append {us ts : List Token} {t : Token}
    (h : IsArguments (us ++ t :: ts)) :
    ClosesOwn (us ++ [t]) :=
  h.own (us ++ [t]) ⟨ts, by simp⟩

/-- What closes a list of arguments that is open is what completes it. -/
theorem Enclosure.rest?_arguments_iff {us : List Token} (h : OpensArguments us) (ts : List Token) :
    (Enclosure.arguments (Depths.behind us)).rest? ts = some [] ↔ IsArguments (us ++ ts) := by
  refine Enclosure.rest?_eq_nil_iff
    (fun e us => e = .arguments (Depths.behind us) ∧ OpensArguments us) IsArguments
    ?_ ?_ ?_ ?_ ⟨rfl, h⟩ ts
  · rintro e us ⟨-, hus⟩ hargs
    exact hus.angles.not_isBracketed hargs.angles
  · rintro e us t e' ⟨rfl, hus⟩ hstep
    rw [hus.after] at hstep
    split at hstep
    · cases hstep
    · rename_i ht
      obtain ⟨ht, hown⟩ := not_or.1 ht
      split at hstep
      · rename_i hlt
        cases hstep
        exact ⟨rfl, hus.own_concat (Decidable.not_not.1 hown),
          hus.angles.concat (by simpa using ht) hlt⟩
      · split at hstep <;> cases hstep
  · rintro e us t ⟨rfl, hus⟩ hstep
    rw [hus.after] at hstep
    split at hstep
    · cases hstep
    · rename_i ht
      obtain ⟨ht, hown⟩ := not_or.1 ht
      split at hstep
      · cases hstep
      · split at hstep
        · rename_i heq
          refine ⟨⟨hus.own_concat (Decidable.not_not.1 hown),
            hus.angles.close (by simpa using ht) heq⟩, ?_⟩
          exact fun ts hts => hts.angles.le_concat.2.2 heq
        · cases hstep
  · rintro e us t ⟨rfl, hus⟩ hstep ts hts
    obtain ⟨ht, hle, -⟩ := hts.angles.le_concat
    rw [hus.after, if_neg (by simp [ht, hts.own_of_append])] at hstep
    split at hstep
    · cases hstep
    · split at hstep
      · cases hstep
      · omega

theorem isArguments_cons_iff {t : Token} (h : t.isMark .less = true) (ts : List Token) :
    IsArguments (t :: ts) ↔ (Enclosure.arguments { angles := 1 }).rest? ts = some [] := by
  have hm : t.mark? = some .less := beq_iff_eq.1 h
  have hopened : anglesOpened [t] = 1 := by simp [anglesOpened, outside, countMark, leavesOpen, h]
  have hclosed : anglesClosed [t] = 0 := by
    simp [anglesClosed, outside, countMark, leavesOpen, Token.isMark, hm]
  have hown : ∀ us, us <+: [t] → ClosesOwn us := by
    intro us hus
    rcases List.prefix_cons_iff.1 hus with rfl | ⟨vs, rfl, hvs⟩
    · exact ⟨Nat.le_refl _, Nat.le_refl _⟩
    · rw [List.prefix_nil.1 hvs]
      simp [ClosesOwn, countMark, Token.isMark, hm]
  have hopening : OpensArguments [t] :=
    ⟨hown, isOpening_singleton h (by simp [Token.endsStatement, Token.isMark, hm]) (by omega)⟩
  have hdepths : Depths.behind [t] = { angles := 1 } := by
    simp [Depths.behind, hopened, hclosed, countMark, Token.isMark, hm]
  rw [← hdepths, Enclosure.rest?_arguments_iff hopening]
  rfl

/-! ## What completes a name -/

/-- What may stand behind a component: nothing, or `::` and more components. -/
def EndsPath (ts : List Token) : Prop :=
  ts = [] ∨ ∃ s us, ts = s :: us ∧ s.isMark .scope = true ∧ IsPath us

theorem IsComponent.isPath_append {ts us : List Token} (h : IsComponent ts) (hus : EndsPath us) :
    IsPath (ts ++ us) := by
  rcases hus with rfl | ⟨s, us, rfl, hs, hus⟩
  · rw [List.append_nil]
    exact .single h
  · exact .cons h hs hus

/-- What the grammar has to follow a state in the reading of a name. -/
def NameState.Expects : NameState → List Token → Prop
  | .start, ts => IsName ts
  | .component, ts => IsPath ts
  | .templated, ts => ∃ t args us, ts = t :: (args ++ us) ∧ t.kind = .identifier ∧
    (args = [] ∨ IsArguments args) ∧ EndsPath us
  | .identifier, ts => ∃ args us, ts = args ++ us ∧ (args = [] ∨ IsArguments args) ∧ EndsPath us
  | .arguments d, ts => ∃ args us,
    ts = args ++ us ∧ (Enclosure.arguments d).rest? args = some [] ∧ EndsPath us
  | .argued, ts => EndsPath ts

section

variable {state state' : NameState} {d : Depths} {t : Token} {ts us args : List Token}

/-- The step lemma: a token that takes the reading of a name on is one that the grammar has
there. -/
theorem NameState.Reads.expects (h : state.Reads t state') (hts : state'.Expects ts) :
    state.Expects (t :: ts) := by
  cases h with
  | global ht => exact .global ht hts
  | template hs ht =>
    obtain ⟨u, args, us, rfl, hu, hargs, hus⟩ := hts
    have hpath : IsPath (([t] ++ u :: args) ++ us) :=
      (IsComponent.intro (.inr ⟨t, rfl, ht⟩) hu hargs).isPath_append hus
    rcases hs with rfl | rfl
    · exact .relative hpath
    · exact hpath
  | identifier hs ht =>
    obtain ⟨args, us, rfl, hargs, hus⟩ := hts
    have hpath : IsPath (([] ++ t :: args) ++ us) :=
      (IsComponent.intro (.inl rfl) ht hargs).isPath_append hus
    rcases hs with rfl | rfl | rfl
    · exact .relative hpath
    · exact hpath
    · exact ⟨t, args, us, rfl, ht, hargs, hus⟩
  | scope hs ht =>
    have hends : EndsPath (t :: ts) := .inr ⟨t, ts, rfl, ht, hts⟩
    rcases hs with rfl | rfl
    · exact ⟨[], t :: ts, rfl, .inl rfl, hends⟩
    · exact hends
  | less ht =>
    obtain ⟨args, us, rfl, hargs, hus⟩ := hts
    exact ⟨t :: args, us, rfl, .inr ((isArguments_cons_iff ht args).2 hargs), hus⟩
  | more hd =>
    obtain ⟨args, us, rfl, hargs, hus⟩ := hts
    exact ⟨t :: args, us, rfl,
      by rwa [Enclosure.rest?_of_on (Enclosure.after_arguments_of_more hd)], hus⟩
  | closed hd =>
    exact ⟨[t], ts, rfl, Enclosure.rest?_of_closed (Enclosure.after_arguments_of_closed hd) [], hts⟩

/-- The run lemma: what completes a name is what the grammar has there. -/
theorem Completes.expects (h : Completes state ts) : state.Expects ts := by
  induction h with
  | identifier => exact ⟨[], [], rfl, .inl rfl, .inl rfl⟩
  | argued => exact .inl rfl
  | step ht _ ih => exact ht.expects ih

theorem completes_arguments (hargs : (Enclosure.arguments d).rest? args = some [])
    (hus : Completes .argued us) : Completes (.arguments d) (args ++ us) := by
  induction args generalizing d with
  | nil => cases hargs
  | cons t args ih =>
    cases hd : d.after t with
    | more d' =>
      rw [Enclosure.rest?_of_on (Enclosure.after_arguments_of_more hd)] at hargs
      exact .step (.more hd) (ih hargs)
    | closed =>
      rw [Enclosure.rest?_of_closed (Enclosure.after_arguments_of_closed hd)] at hargs
      obtain rfl := Option.some.inj hargs
      exact .step (.closed hd) hus
    | refused refusal =>
      rw [Enclosure.rest?_of_refused (by rw [Enclosure.after, hd])] at hargs
      cases hargs

/-- Template arguments, or none, are read behind an identifier. -/
theorem completes_identifier (hargs : args = [] ∨ IsArguments args) (hid : Completes .identifier us)
    (harg : Completes .argued us) : Completes .identifier (args ++ us) := by
  rcases hargs with rfl | hargs
  · exact hid
  · obtain ⟨t, ht, hless⟩ := hargs.angles.first
    obtain ⟨args, rfl⟩ := List.head?_eq_some_iff.1 ht
    exact .step (.less hless) (completes_arguments ((isArguments_cons_iff hless args).1 hargs) harg)

theorem IsComponent.completes (h : IsComponent ts) (hs : state = .start ∨ state = .component)
    (hid : Completes .identifier us) (harg : Completes .argued us) :
    Completes state (ts ++ us) := by
  cases h with
  | intro hword ht hargs =>
    have hrest := completes_identifier hargs hid harg
    rcases hword with rfl | ⟨u, rfl, hu⟩
    · exact .step (.identifier (hs.imp_right .inl) ht) hrest
    · exact .step (.template hs hu) (.step (.identifier (.inr (.inr rfl)) ht) hrest)

/-- A path completes a name. -/
theorem IsPath.completes (h : IsPath ts) (hs : state = .start ∨ state = .component) :
    Completes state ts := by
  induction h generalizing state with
  | single h =>
    have hcompletes := h.completes hs .identifier .argued
    rwa [List.append_nil] at hcompletes
  | cons h hscope _ ih =>
    have hmore := ih (.inr rfl)
    exact h.completes hs (.step (.scope (.inl rfl) hscope) hmore)
      (.step (.scope (.inr rfl) hscope) hmore)

/-- The tokens that complete a name from its start on are the names of the grammar. -/
theorem completes_start_iff : Completes .start ts ↔ IsName ts := by
  refine ⟨Completes.expects, fun h => ?_⟩
  cases h with
  | relative h => exact h.completes (.inl rfl)
  | global hs h => exact .step (.global hs) (h.completes (.inr rfl))

end

end TypeExtent

end EastConst
