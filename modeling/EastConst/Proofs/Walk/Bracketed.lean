import EastConst.Proofs.Directive.Line
import EastConst.Proofs.Nesting
import EastConst.Proofs.Walk
import EastConst.Token.Stream

/-!
# Walking through brackets

An angle bracket on the stack is a guess, which a comparison can make and a shift can take back.
What bounds the damage is that every other bracket drops the angle brackets in it when it closes. So
a walk that goes through tokens whose parentheses, square brackets and braces are properly nested
(`Nested`) has, over the brackets that were open before them, only those that the tokens have still
to close, and angle brackets (`Nesting.Awaits`, the step lemma `Walk.awaits_step` and the run lemma
`Walk.awaits_run`). A pair of brackets around such tokens leaves the stack as it was
(`walk_bracketed`).
-/

namespace EastConst

/-! ## Tokens whose brackets are nested -/

/-- The marks that are to close what is open, innermost first, after one more mark. There are none
if the mark closes what is not innermost. -/
def awaitedAfter : List Mark → Option Mark → Option (List Mark)
  | awaited, some .parenOpen => some (.parenClose :: awaited)
  | awaited, some .squareOpen => some (.squareClose :: awaited)
  | awaited, some .braceOpen => some (.braceClose :: awaited)
  | .parenClose :: awaited, some .parenClose => some awaited
  | .squareClose :: awaited, some .squareClose => some awaited
  | .braceClose :: awaited, some .braceClose => some awaited
  | _, some .parenClose | _, some .squareClose | _, some .braceClose => none
  | awaited, _ => some awaited

/-- The marks that are to close what is open, after tokens. -/
def awaitedAfterAll (awaited : List Mark) (ts : List Token) : Option (List Mark) :=
  ts.foldlM (fun awaited t => awaitedAfter awaited t.mark?) awaited

/-- Whether the parentheses, square brackets and braces of tokens are properly nested. -/
def Nested (ts : List Token) : Prop :=
  awaitedAfterAll [] ts = some []

instance (ts : List Token) : Decidable (Nested ts) :=
  inferInstanceAs (Decidable (_ = _))

section

variable {awaited awaited' : List Mark} {closer : Mark}

theorem awaitedAfterAll_cons (awaited : List Mark) (t : Token) (ts : List Token) :
    awaitedAfterAll awaited (t :: ts) =
      (awaitedAfter awaited t.mark?).bind fun awaited' => awaitedAfterAll awaited' ts := by
  rw [awaitedAfterAll, List.foldlM_cons]
  rfl

theorem awaitedAfterAll_append (awaited : List Mark) (ts ts' : List Token) :
    awaitedAfterAll awaited (ts ++ ts') =
      (awaitedAfterAll awaited ts).bind fun awaited' => awaitedAfterAll awaited' ts' := by
  rw [awaitedAfterAll, List.foldlM_append]
  rfl

/-- A mark that closes is the one that is awaited. -/
theorem eq_of_awaitedAfter (h : awaitedAfter awaited (some closer) = some awaited')
    (hcloser : closer = .parenClose ∨ closer = .squareClose ∨ closer = .braceClose) :
    awaited = closer :: awaited' := by
  unfold awaitedAfter at h
  split at h <;> simp_all

end

/-! ## Brackets that are still to be closed -/

/-- The mark that closes a bracket. An angle bracket is a guess, and nothing has to close it. -/
def Bracket.closer? : Bracket → Option Mark
  | .paren _ => some .parenClose
  | .square => some .squareClose
  | .brace => some .braceClose
  | .angle _ => none

namespace Nesting

/-- `n.Awaits awaited m` says that `m` has, over the brackets of `n`, those that the awaited marks
close, and angle brackets. -/
inductive Awaits (n : Nesting) : List Mark → Nesting → Prop
  | base : Awaits n [] n
  | angle {awaited : List Mark} {m : Nesting} (header : Bool) :
    Awaits n awaited m → Awaits n awaited (m.push (.angle header))
  | bracket {awaited : List Mark} {m : Nesting} {b : Bracket} {closer : Mark} :
    Awaits n awaited m → b.closer? = some closer → Awaits n (closer :: awaited) (m.push b)

variable {n m : Nesting} {awaited : List Mark} {b : Bracket} {closer : Mark}

theorem isAngle_of_closer? (h : b.closer? = some closer) : b.isAngle = false := by
  cases b with
  | angle header => cases h
  | _ => rfl

namespace Awaits

theorem depth_le (h : n.Awaits awaited m) : n.depth ≤ m.depth := by
  induction h with
  | base => exact Nat.le_refl _
  | angle header _ ih => exact Nat.le_succ_of_le ih
  | bracket _ _ ih => exact Nat.le_succ_of_le ih

theorem suppressed_le (h : n.Awaits awaited m) : n.suppressed ≤ m.suppressed := by
  induction h with
  | base => exact Nat.le_refl _
  | angle header _ ih => exact Nat.le_trans ih (suppressed_le_push _ _)
  | bracket _ _ ih => exact Nat.le_trans ih (suppressed_le_push _ _)

/-- Where nothing is to be closed, there are only angle brackets over what was open. -/
theorem exists_angles (h : n.Awaits [] m) :
    ∃ angles, (∀ b ∈ angles, b.isAngle = true) ∧ m.brackets = angles ++ n.brackets := by
  generalize hnil : ([] : List Mark) = awaited at h
  induction h with
  | base => exact ⟨[], by simp, rfl⟩
  | angle header _ ih =>
    obtain ⟨angles, hangles, hbrackets⟩ := ih hnil
    refine ⟨.angle header :: angles, ?_, congrArg (List.cons _) hbrackets⟩
    intro b hb
    rcases List.mem_cons.1 hb with rfl | hb
    · rfl
    · exact hangles b hb
  | bracket _ _ _ => cases hnil

/-- The innermost bracket that is to be closed has only angle brackets over it. -/
theorem exists_bracket (h : n.Awaits (closer :: awaited) m) :
    ∃ b m', b.closer? = some closer ∧ n.Awaits awaited m' ∧ (m'.push b).Awaits [] m := by
  generalize hall : closer :: awaited = all at h
  induction h with
  | base => cases hall
  | angle header _ ih =>
    obtain ⟨b, m', hb, hm', hm⟩ := ih hall
    exact ⟨b, m', hb, hm', hm.angle header⟩
  | bracket h hb _ =>
    obtain ⟨rfl, rfl⟩ := List.cons.inj hall
    exact ⟨_, _, hb, h, .base⟩

/-! ### Closing brackets -/

/-- Dropping angle brackets closes none of the brackets that are awaited. -/
theorem dropAngles (hn : n.IsFirm) (h : n.Awaits awaited m) :
    n.Awaits awaited m.dropAngles ∧ m.dropAngles.IsFirm := by
  induction h with
  | base =>
    rw [hn.dropAngles_eq]
    exact ⟨.base, hn⟩
  | angle header _ ih =>
    rw [dropAngles_push _ rfl]
    exact ih
  | bracket h hb _ =>
    have hfirm {m : Nesting} := isFirm_push m (isAngle_of_closer? hb)
    rw [hfirm.dropAngles_eq]
    exact ⟨h.bracket hb, hfirm⟩

theorem closeAngle (hn : n.IsFirm) (h : n.Awaits awaited m) : n.Awaits awaited m.closeAngle.2 := by
  cases h with
  | base =>
    rw [hn.closeAngle_eq]
    exact .base
  | angle header h =>
    rw [closeAngle_push _ rfl]
    exact h
  | bracket h hb =>
    rw [(isFirm_push _ (isAngle_of_closer? hb)).closeAngle_eq]
    exact h.bracket hb

/-- Where only angle brackets have come over a bracket, dropping them uncovers it. -/
theorem dropAngles_eq (hb : b.isAngle = false) (h : (n.push b).Awaits [] m) :
    m.dropAngles = n.push b := by
  obtain ⟨h', hfirm⟩ := h.dropAngles (isFirm_push n hb)
  generalize m.dropAngles = m' at h' hfirm
  cases h' with
  | base => rfl
  | angle header _ => cases hfirm _ rfl

theorem closeParen_eq {operand : Bool} (h : (n.push (.paren operand)).Awaits [] m) :
    m.closeParen = n := by
  rw [closeParen, h.dropAngles_eq rfl]
  exact pop_push n _

theorem closeSquare_eq (h : (n.push .square).Awaits [] m) : m.closeSquare = n := by
  rw [closeSquare, h.dropAngles_eq rfl]
  exact pop_push n _

/-- A closing brace closes its own brace if only angle brackets are left in it. -/
theorem closeBrace_eq (h : (n.push .brace).Awaits [] m) :
    .brace ∈ m.brackets ∧ m.closeBrace = n := by
  generalize hnil : ([] : List Mark) = awaited at h
  induction h with
  | base => exact ⟨List.mem_cons_self, closeBrace_push_brace n⟩
  | angle header _ ih =>
    obtain ⟨hmem, hclose⟩ := ih hnil
    refine ⟨List.mem_cons_of_mem _ hmem, ?_⟩
    rw [closeBrace_push _ (by simp) hmem, hclose]
  | bracket _ _ _ => cases hnil

end Awaits

end Nesting

/-! ## The walk -/

namespace Walk

open Nesting (Awaits)

variable {options : Options} {w : Walk} {n : Nesting} {awaited awaited' : List Mark} {t : Token}

/-- What a mark makes of the open brackets. -/
def bracketsAfter (w : Walk) : Option Mark → Nesting
  | some .parenOpen => w.nesting.push (.paren (w.lastIsKeyword "decltype"))
  | some .squareOpen => w.nesting.push .square
  | some .braceOpen => w.nesting.dropAngles.push .brace
  | some .parenClose => w.nesting.closeParen
  | some .squareClose => w.nesting.closeSquare
  | some .braceClose => w.nesting.closeBrace
  | some .semicolon => w.nesting.dropAngles
  | some .less =>
    if w.last.any opensAngle then
      w.nesting.push (.angle (w.lastIsKeyword "template")) else w.nesting
  | some .greater => w.nesting.closeAngle.2
  | some .greaterGreater => w.nesting.closeAngle.2.closeAngle.2
  | _ => w.nesting

/-- What a punctuator does to the brackets. -/
theorem nesting_punctuate (w : Walk) (m : Option Mark) :
    (w.punctuate m).nesting = w.bracketsAfter m := by
  obtain ⟨trailing, h⟩ := endTrailingReturn_eq w m
  obtain ⟨nesting, preceding, last, trailing₀⟩ := w
  unfold punctuate
  rw [h]
  cases m with
  | none => rfl
  | some m =>
    cases m with
    | less =>
      dsimp only [bracketsAfter, lastIsKeyword]
      split <;> rfl
    | _ => rfl

/-- Only marks change the open brackets. -/
theorem nesting_step (options : Options) (w : Walk) (t : Token) :
    (w.step options t).nesting = w.bracketsAfter t.mark? := by
  by_cases hk : t.kind = .punctuation
  · rw [step_of_punctuation hk]
    exact nesting_punctuate w t.mark?
  · have hm : t.mark? = none := if_neg hk
    rw [hm]
    exact (agrees_step_of_kind hk).nesting.symm

/-- The mark that closes a bracket leaves what was open before it, if only angle brackets have come
over it. -/
theorem bracketsAfter_closer {b : Bracket} {closer : Mark} (hb : b.closer? = some closer)
    (h : (n.push b).Awaits [] w.nesting) : w.bracketsAfter (some closer) = n := by
  cases b with
  | paren operand =>
    obtain rfl := Option.some.inj hb
    exact h.closeParen_eq
  | square =>
    obtain rfl := Option.some.inj hb
    exact h.closeSquare_eq
  | brace =>
    obtain rfl := Option.some.inj hb
    exact h.closeBrace_eq.2
  | angle header => cases hb

theorem awaits_closer {closer : Mark} (h : n.Awaits awaited w.nesting)
    (ht : awaitedAfter awaited (some closer) = some awaited')
    (hcloser : closer = .parenClose ∨ closer = .squareClose ∨ closer = .braceClose) :
    n.Awaits awaited' (w.bracketsAfter (some closer)) := by
  rw [eq_of_awaitedAfter ht hcloser] at h
  obtain ⟨b, m, hb, hm, hover⟩ := h.exists_bracket
  rw [bracketsAfter_closer hb hover]
  exact hm

/-- The step lemma: a token that closes no bracket but the innermost one keeps to what is
awaited. -/
theorem awaits_step (hn : n.IsFirm) (h : n.Awaits awaited w.nesting)
    (ht : awaitedAfter awaited t.mark? = some awaited') :
    n.Awaits awaited' (w.step options t).nesting := by
  rw [nesting_step]
  generalize t.mark? = m at ht
  cases m with
  | none =>
    obtain rfl := Option.some.inj ht
    exact h
  | some m =>
    cases m with
    | parenOpen =>
      obtain rfl := Option.some.inj ht
      exact h.bracket rfl
    | squareOpen =>
      obtain rfl := Option.some.inj ht
      exact h.bracket rfl
    | braceOpen =>
      obtain rfl := Option.some.inj ht
      exact (h.dropAngles hn).1.bracket rfl
    | parenClose => exact awaits_closer h ht (by simp)
    | squareClose => exact awaits_closer h ht (by simp)
    | braceClose => exact awaits_closer h ht (by simp)
    | semicolon =>
      obtain rfl := Option.some.inj ht
      exact (h.dropAngles hn).1
    | less =>
      obtain rfl := Option.some.inj ht
      rw [bracketsAfter]
      split
      · exact h.angle _
      · exact h
    | greater =>
      obtain rfl := Option.some.inj ht
      exact h.closeAngle hn
    | greaterGreater =>
      obtain rfl := Option.some.inj ht
      exact (h.closeAngle hn).closeAngle hn
    | _ =>
      obtain rfl := Option.some.inj ht
      exact h

/-- The run lemma. -/
theorem awaits_run {ts : List Token} (hn : n.IsFirm) (h : n.Awaits awaited w.nesting)
    (hts : awaitedAfterAll awaited ts = some awaited') :
    n.Awaits awaited' (w.run options ts).nesting := by
  induction ts generalizing w awaited with
  | nil =>
    obtain rfl := Option.some.inj hts
    exact h
  | cons t ts ih =>
    rw [awaitedAfterAll_cons, Option.bind_eq_some_iff] at hts
    obtain ⟨next, ht, hts⟩ := hts
    exact ih (awaits_step hn h ht) hts

end Walk

/-! ## Brackets around tokens -/

/-- Whether two tokens are brackets of one kind, of which the first opens and the second closes. -/
def Token.pairs (o c : Token) : Bool :=
  o.isMark .parenOpen && c.isMark .parenClose || o.isMark .squareOpen && c.isMark .squareClose ||
    o.isMark .braceOpen && c.isMark .braceClose

/-- Whether two tokens are a pair of brackets around others, whose own brackets are nested, and of
which none ends the input and no `#` starts a line. -/
structure Bracketed (o : Token) (body : List Token) (c : Token) : Prop where
  pair : o.pairs c = true
  nested : Nested body
  inInput : ∀ t ∈ body, t.kind ≠ .endOfInput
  noDirective : ∀ k t, body[k]? = some t → t.isMark .hash = true → ¬ StartsLine (o :: body) (k + 1)

/-- The walk after tokens that follow a place. -/
def Walk.runFrom (options : Options) (w : Walk) (place : Place) (ts : List Token) : Walk :=
  w.runSegments options (segmentsFrom place ts)

section

variable {o c t : Token} {m m' : Mark}

theorem Token.kind_of_isMark (h : t.isMark m = true) : t.kind = .punctuation := by
  apply Decidable.byContradiction
  intro hk
  simp [Token.isMark, Token.mark?, hk] at h

theorem Token.ofToken?_of_isMark (h : t.isMark m = true) : Qualifier.ofToken? t = none := by
  simp [Qualifier.ofToken?, Token.kind_of_isMark h]

theorem Token.isMark_of_ne (h : t.isMark m = true) (hne : m ≠ m') : t.isMark m' = false := by
  rw [Token.isMark, beq_iff_eq] at h
  simp [Token.isMark, h, hne]

/-- The three pairs of brackets. -/
theorem Token.pairs_cases (h : o.pairs c = true) :
    o.isMark .parenOpen = true ∧ c.isMark .parenClose = true ∨
      o.isMark .squareOpen = true ∧ c.isMark .squareClose = true ∨
      o.isMark .braceOpen = true ∧ c.isMark .braceClose = true := by
  simpa [Token.pairs, or_assoc] using h

/-- A pair of brackets are two marks, none of them a `#` or an arrow. -/
theorem Token.exists_marks_of_pairs (h : o.pairs c = true) :
    ∃ m m', o.isMark m = true ∧ c.isMark m' = true ∧ (m ≠ .hash ∧ m ≠ .arrow) ∧ m' ≠ .hash ∧
      m' ≠ .arrow := by
  rcases Token.pairs_cases h with ⟨ho, hc⟩ | ⟨ho, hc⟩ | ⟨ho, hc⟩ <;>
    exact ⟨_, _, ho, hc, by decide, by decide⟩

/-- A token of a list in brackets is the first bracket, one between them, or the last one. -/
theorem split_bracketed {body pre post : List Token} (h : o :: body ++ [c] = pre ++ t :: post) :
    (pre = [] ∧ t = o) ∨ (∃ pre' post', pre = o :: pre' ∧ body = pre' ++ t :: post') ∨ t = c := by
  cases pre with
  | nil => exact .inl ⟨rfl, (List.cons.inj h).1.symm⟩
  | cons u pre =>
    rw [List.cons_append, List.cons_append] at h
    obtain ⟨rfl, hrest⟩ := List.cons.inj h
    rcases List.append_eq_append_iff.1 hrest with ⟨mid, rfl, hlast⟩ | ⟨mid, rfl, hmid⟩
    · cases mid with
      | nil => exact .inr (.inr (List.cons.inj hlast).1.symm)
      | cons v mid => simp at hlast
    · cases mid with
      | nil => exact .inr (.inr (List.cons.inj hmid).1)
      | cons v mid =>
        obtain ⟨rfl, -⟩ := List.cons.inj hmid
        exact .inr (.inl ⟨pre, mid, rfl, rfl⟩)

end

/-- On one line with a token that is no trivia, nothing after it starts a line. -/
theorem not_startsLine {o : Token} {body : List Token} (ho : o.isSignificant = true)
    (hline : ∀ t ∈ body, t.endsLine = false) (k : Nat) : ¬ StartsLine (o :: body) (k + 1) := by
  intro h
  obtain ⟨j, u, hj, -, hu, hends⟩ := h 0 o (Nat.succ_pos k) rfl ho
  cases j with
  | zero => exact absurd hj (Nat.lt_irrefl 0)
  | succ j =>
    rw [hline u (List.mem_of_getElem? hu)] at hends
    cases hends

namespace Bracketed

variable {options : Options} {w : Walk} {place : Place} {o c : Token} {body : List Token}

/-- No directive starts between the brackets. -/
theorem segmentsFrom_eq (h : Bracketed o body c) (hplace : ∀ held, place ≠ .directive held) :
    segmentsFrom place (o :: body ++ [c]) = (o :: body ++ [c]).map .token := by
  obtain ⟨m, m', ho, hc, ⟨hm, -⟩, hm', -⟩ := Token.exists_marks_of_pairs h.pair
  apply segmentsFrom_eq_map hplace
  intro pre t post heq hhash
  rcases split_bracketed heq with ⟨-, rfl⟩ | ⟨pre, post, rfl, hbody⟩ | rfl
  · rw [Token.isMark_of_ne ho hm] at hhash
    cases hhash
  · -- the bracket is on the line, so that the walk is at the start of one only if a `#` there
    -- starts it
    have hafter : place.after o = Place.lineStart.after o := by
      have hline : o.endsLine = false := by
        simp [Token.endsLine, Token.kind_of_isMark ho]
      have htrivia : o.isTrivia = false := by
        simp [Token.isTrivia, Token.kind_of_isMark ho]
      cases place with
      | lineStart => rfl
      | midLine => simp [Place.after, Token.isMark_of_ne ho hm, hline, htrivia]
      | directive held => exact absurd rfl (hplace held)
    have hinput : ∀ k u, k < pre.length + 1 → (o :: body)[k]? = some u → u.kind ≠ .endOfInput := by
      intro k u _ hu
      cases k with
      | zero =>
        obtain rfl := Option.some.inj hu
        simp [Token.kind_of_isMark ho]
      | succ k => exact h.inInput u (List.mem_of_getElem? hu)
    have hstart := foldl_after_eq_lineStart_iff (by simp [hbody]) hinput
    have htake : (o :: body).take (pre.length + 1) = o :: pre := by simp [hbody]
    rw [htake, List.foldl_cons, ← hafter] at hstart
    intro hfold
    exact h.noDirective pre.length t (by simp [hbody]) hhash (hstart.1 hfold)
  · rw [Token.isMark_of_ne hc hm'] at hhash
    cases hhash

theorem runFrom_eq (h : Bracketed o body c) (hplace : ∀ held, place ≠ .directive held) :
    w.runFrom options place (o :: body ++ [c]) = w.run options (o :: body ++ [c]) := by
  rw [Walk.runFrom, h.segmentsFrom_eq hplace, Walk.runSegments_tokens]

theorem run_eq (options : Options) (w : Walk) (o c : Token) (body : List Token) :
    w.run options (o :: body ++ [c]) = (w.run options (o :: body)).step options c := by
  rw [Walk.run_append]
  rfl

theorem nesting_step_paren (options : Options) (w : Walk) (ho : o.isMark .parenOpen = true) :
    (w.step options o).nesting = w.nesting.push (.paren (w.lastIsKeyword "decltype")) := by
  rw [Token.isMark, beq_iff_eq] at ho
  rw [Walk.nesting_step, ho, Walk.bracketsAfter]

/-- Between the brackets, the first of them is open, with what the tokens have opened over it. -/
theorem awaits_prefix (hnested : Nested body) {n : Nesting} (hn : n.IsFirm)
    (ho : (w.step options o).nesting = n) {pre post : List Token} (hbody : body = pre ++ post) :
    ∃ awaited, n.Awaits awaited (w.run options (o :: pre)).nesting := by
  rw [Nested, hbody, awaitedAfterAll_append, Option.bind_eq_some_iff] at hnested
  obtain ⟨awaited, hpre, -⟩ := hnested
  refine ⟨awaited, ?_⟩
  rw [Walk.run_cons]
  exact Walk.awaits_run hn (ho ▸ .base) hpre

/-- At the closing bracket only angle brackets are open over the opening one. -/
theorem awaits_body (hnested : Nested body) {n : Nesting} (hn : n.IsFirm)
    (ho : (w.step options o).nesting = n) : n.Awaits [] (w.run options (o :: body)).nesting := by
  rw [Walk.run_cons]
  exact Walk.awaits_run hn (ho ▸ .base) hnested

/-- Nested tokens between a bracket and its closer leave the brackets as they were. -/
theorem nesting_of_push (hnested : Nested body) {n : Nesting} {b : Bracket} {closer : Mark}
    (hb : b.closer? = some closer) (ho : (w.step options o).nesting = n.push b)
    (hc : c.isMark closer = true) : (w.run options (o :: body ++ [c])).nesting = n := by
  rw [Token.isMark, beq_iff_eq] at hc
  rw [run_eq, Walk.nesting_step, hc]
  exact Walk.bracketsAfter_closer hb
    (awaits_body hnested (Nesting.isFirm_push _ (Nesting.isAngle_of_closer? hb)) ho)

/-- Behind brackets around nested tokens the nesting is what it was, without the angle brackets that
a brace drops. -/
theorem nesting_eq (h : Bracketed o body c) (options : Options) (w : Walk) :
    (w.run options (o :: body ++ [c])).nesting =
      if o.isMark .braceOpen then w.nesting.dropAngles else w.nesting := by
  rcases Token.pairs_cases h.pair with ⟨ho, hc⟩ | ⟨ho, hc⟩ | ⟨ho, hc⟩
  · rw [if_neg (by simp [Token.isMark_of_ne ho])]
    exact nesting_of_push h.nested rfl (nesting_step_paren options w ho) hc
  · have hopen : (w.step options o).nesting = w.nesting.push .square := by
      rw [Walk.nesting_step, beq_iff_eq.1 ho, Walk.bracketsAfter]
    rw [if_neg (by simp [Token.isMark_of_ne ho])]
    exact nesting_of_push h.nested rfl hopen hc
  · have hopen : (w.step options o).nesting = w.nesting.dropAngles.push .brace := by
      rw [Walk.nesting_step, beq_iff_eq.1 ho, Walk.bracketsAfter]
    rw [if_pos ho]
    exact nesting_of_push h.nested rfl hopen hc

/-- In the operand of `decltype`, every qualifier is ignored. -/
theorem role_eq_ignored (h : Bracketed o body c) (ho : o.isMark .parenOpen = true)
    (hw : w.lastIsKeyword "decltype" = true) {pre post : List Token} (hbody : body = pre ++ post) :
    (w.run options (o :: pre)).role = .ignored := by
  obtain ⟨awaited, hover⟩ :=
    awaits_prefix h.nested (Nesting.isFirm_push _ rfl) (nesting_step_paren options w ho) hbody
  rw [hw] at hover
  have hpos : 0 < (w.run options (o :: pre)).nesting.suppressed :=
    Nat.lt_of_lt_of_le (Nat.succ_pos w.nesting.suppressed) hover.suppressed_le
  rw [Walk.role, Walk.isSuppressed, Nesting.isSuppressed, decide_eq_true hpos]
  rfl

end Bracketed

/-- A pair of brackets leaves the open brackets as they were, whatever is compared or shifted
between them; a pair of braces drops the angle brackets that were innermost. All qualifiers in the
operand of `decltype` are ignored. -/
theorem walk_bracketed (options : Options) (w : Walk) {place : Place}
    (hplace : ∀ held, place ≠ .directive held) {o c : Token} {body : List Token}
    (h : Bracketed o body c) :
    w.runFrom options place (o :: body ++ [c]) = w.run options (o :: body ++ [c]) ∧
    (o.isMark .braceOpen = false →
      (w.runFrom options place (o :: body ++ [c])).nesting = w.nesting) ∧
    (o.isMark .braceOpen = true →
      (w.runFrom options place (o :: body ++ [c])).nesting = w.nesting.dropAngles ∧
      (w.runFrom options place (o :: body ++ [c])).nesting.brackets =
        w.nesting.brackets.dropWhile Bracket.isAngle) ∧
    (o.isMark .parenOpen = true → w.lastIsKeyword "decltype" = true → ∀ boundary index found,
      found ∈ occurrencesInSegments options boundary w index
        (segmentsFrom place (o :: body ++ [c])) ↔
        ∃ k t q, body[k]? = some t ∧ Qualifier.ofToken? t = some q ∧
          found = ⟨index + (k + 1), q, .ignored, boundary⟩) := by
  have hnesting : (w.runFrom options place (o :: body ++ [c])).nesting = _ :=
    (congrArg Walk.nesting (h.runFrom_eq hplace)).trans (h.nesting_eq options w)
  refine ⟨h.runFrom_eq hplace, ?_, ?_, ?_⟩
  · intro ho
    rw [hnesting, if_neg (by simp [ho])]
  · intro ho
    rw [hnesting, if_pos ho]
    exact ⟨rfl, w.nesting.brackets_dropAngles⟩
  intro ho hw boundary index found
  obtain ⟨m, m', hm, hm', -, -⟩ := Token.exists_marks_of_pairs h.pair
  rw [h.segmentsFrom_eq hplace, occurrencesInSegments_tokens, mem_occurrencesIn_iff]
  constructor
  · rintro ⟨pre, t, post, q, heq, hq, rfl⟩
    rcases split_bracketed heq with ⟨-, rfl⟩ | ⟨pre, post, rfl, hbody⟩ | rfl
    · rw [Token.ofToken?_of_isMark hm] at hq
      cases hq
    · rw [h.role_eq_ignored ho hw hbody]
      exact ⟨pre.length, t, q, by simp [hbody], hq, rfl⟩
    · rw [Token.ofToken?_of_isMark hm'] at hq
      cases hq
  · rintro ⟨k, t, q, ht, hq, rfl⟩
    obtain ⟨hk, hget⟩ := List.getElem?_eq_some_iff.1 ht
    have hbody : body = body.take k ++ t :: body.drop (k + 1) := by
      rw [← hget, ← List.drop_eq_getElem_cons, List.take_append_drop]
    refine ⟨o :: body.take k, t, body.drop (k + 1) ++ [c], q, ?_, hq, ?_⟩
    · conv => lhs; rw [hbody]
      simp
    · rw [h.role_eq_ignored ho hw hbody, List.length_cons, List.length_take,
        Nat.min_eq_left (Nat.le_of_lt hk)]

/-- Comparisons, a shift and a semicolon between the brackets of an operand, inside template
arguments. -/
theorem walk_bracketed_in_decltype :
    ∃ ts w, tokens "A<decltype(a < b[\x7b;const c # >> d\x7d])> e;".toList = ts ∧
      Walk.runFrom {} {} .lineStart (ts.take 3) = w ∧
      (w.runFrom {} .midLine (ts.extract 3 24)).nesting = w.nesting ∧
      ⟨12, .const, .ignored, 28⟩ ∈
        occurrencesInSegments {} 28 w 3 (segmentsFrom .midLine (ts.extract 3 24)) := by
  obtain ⟨o, ho⟩ : ∃ o : Token, o = ⟨.punctuation, ['(']⟩ := ⟨_, rfl⟩
  obtain ⟨body, hbody⟩ : ∃ body : List Token, body =
      [⟨.identifier, ['a']⟩, ⟨.whitespace, [' ']⟩, ⟨.punctuation, ['<']⟩, ⟨.whitespace, [' ']⟩,
       ⟨.identifier, ['b']⟩, ⟨.punctuation, ['[']⟩, ⟨.punctuation, ['\x7b']⟩, ⟨.punctuation, [';']⟩,
       ⟨.keyword, "const".toList⟩, ⟨.whitespace, [' ']⟩, ⟨.identifier, ['c']⟩, ⟨.whitespace, [' ']⟩,
       ⟨.punctuation, ['#']⟩, ⟨.whitespace, [' ']⟩, ⟨.punctuation, ['>', '>']⟩,
       ⟨.whitespace, [' ']⟩, ⟨.identifier, ['d']⟩, ⟨.punctuation, ['\x7d']⟩,
       ⟨.punctuation, [']']⟩] := ⟨_, rfl⟩
  obtain ⟨c, hc⟩ : ∃ c : Token, c = ⟨.punctuation, [')']⟩ := ⟨_, rfl⟩
  obtain ⟨ts, hts⟩ : ∃ ts : List Token, ts =
      [⟨.identifier, ['A']⟩, ⟨.punctuation, ['<']⟩, ⟨.keyword, "decltype".toList⟩] ++
        (o :: body ++ [c]) ++
      [⟨.punctuation, ['>']⟩, ⟨.whitespace, [' ']⟩, ⟨.identifier, ['e']⟩, ⟨.punctuation, [';']⟩,
       .endOfInput] := ⟨_, rfl⟩
  have hbracketed : Bracketed o body c := by
    subst ho hbody hc
    refine ⟨by decide, by decide, by decide,
      fun k t _ _ => not_startsLine (by decide) (by decide) k⟩
  have hextract : ts.extract 3 24 = o :: body ++ [c] := by
    rw [hts, hbody]
    rfl
  have hplace : ∀ held, Place.midLine ≠ .directive held := by simp
  obtain ⟨-, hnesting, -, hroles⟩ :=
    walk_bracketed {} (Walk.runFrom {} {} .lineStart (ts.take 3)) hplace hbracketed
  refine ⟨ts, _, ?_, rfl, ?_, ?_⟩
  · subst hts ho hbody hc
    decide +kernel
  · rw [hextract]
    exact hnesting (by rw [ho]; decide)
  · rw [hextract]
    refine (hroles (by rw [ho]; decide) ?_ 28 3 _).2
      ⟨8, _, .const, by rw [hbody]; rfl, by decide, rfl⟩
    subst hts ho hbody hc
    decide +kernel

end EastConst
