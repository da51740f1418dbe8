import EastConst.Proofs.Walk.Bracketed
import EastConst.Proofs.Walk.Frame

/-!
# The count of suppressing brackets

How many open brackets suppress qualifiers is kept in a counter. Whatever a walk does to its
brackets, it does by opening one or closing the innermost one, and only these two touch the counter.
`bracketEdits` lists them in order, over a whole token sequence, macro bodies and the brackets that
are cut off after them included. The walk's brackets come of these edits (the step lemma
`Walk.edited_edits`, the run lemmas `Walk.edited_runEdits` and `Walk.edited_segmentsEdits`), and
between any two of them the counter has the number of the suppressing brackets (`Nesting.Mirrors`).
-/

namespace EastConst

namespace Nesting

/-- What is done to the open brackets at a time. -/
inductive Edit where
  | push (b : Bracket)
  | pop
  deriving DecidableEq, Repr

/-- The open brackets after an edit. -/
def Edit.apply (n : Nesting) : Edit → Nesting
  | .push b => n.push b
  | .pop => n.pop

/-- The open brackets after edits. -/
def edited (n : Nesting) (edits : List Edit) : Nesting :=
  edits.foldl Edit.apply n

/-- The edits that close brackets until as many are open as in another nesting. -/
def popsTo (n m : Nesting) : List Edit :=
  List.replicate (n.depth - m.depth) .pop

/-- Whether the counter has the number of the open brackets that suppress qualifiers, so that it can
be counted down with each of them, and is not zero exactly if there is one. -/
structure Mirrors (n : Nesting) : Prop where
  counted : n.suppressed = n.brackets.count (.paren true) + n.brackets.count (.angle true)
  /-- Closing a bracket does not count down from zero. -/
  closable : ∀ b rest, n.brackets = b :: rest → b.suppresses = true → 0 < n.suppressed
  suppressed_iff : n.isSuppressed = true ↔ .paren true ∈ n.brackets ∨ .angle true ∈ n.brackets

theorem edited_append (n : Nesting) (edits edits' : List Edit) :
    n.edited (edits ++ edits') = (n.edited edits).edited edits' :=
  List.foldl_append

theorem edited_replicate_pop (bs : List Bracket) (count : Nat) :
    (of bs).edited (List.replicate count .pop) = of (bs.drop count) := by
  induction count generalizing bs with
  | zero => rfl
  | succ count ih =>
    have hpop : (of bs).edited (.pop :: List.replicate count .pop) =
        (of bs).pop.edited (List.replicate count .pop) := rfl
    rw [List.replicate_succ, hpop, pop_of, ih, List.drop_tail]

/-- Closing brackets down to those that are left leaves them. -/
theorem edited_popsTo {bs left : List Bracket} (h : left <:+ bs) :
    (of bs).edited ((of bs).popsTo (of left)) = of left := by
  rw [popsTo, edited_replicate_pop, depth_of, depth_of, ← List.suffix_iff_eq_drop.1 h]

/-- No edits make the counter wrong. -/
theorem exists_edited_of (bs : List Bracket) (edits : List Edit) :
    ∃ bs', (of bs).edited edits = of bs' := by
  induction edits generalizing bs with
  | nil => exact ⟨bs, rfl⟩
  | cons e edits ih =>
    cases e with
    | push b =>
      obtain ⟨bs', h⟩ := ih (b :: bs)
      exact ⟨bs', by rw [← h, ← push_of]; rfl⟩
    | pop =>
      obtain ⟨bs', h⟩ := ih bs.tail
      exact ⟨bs', by rw [← h, ← pop_of]; rfl⟩

theorem countP_suppresses (bs : List Bracket) :
    bs.countP Bracket.suppresses = bs.count (.paren true) + bs.count (.angle true) := by
  induction bs with
  | nil => rfl
  | cons b bs ih =>
    have hone : (if b.suppresses then 1 else 0) =
        (if b == .paren true then 1 else 0) + (if b == .angle true then 1 else 0) := by
      cases b with
      | paren operand => cases operand <;> rfl
      | angle header => cases header <;> rfl
      | square => rfl
      | brace => rfl
    rw [List.countP_cons, List.count_cons, List.count_cons, ih, hone]
    omega

/-- The nesting of any brackets mirrors them. -/
theorem mirrors_of (bs : List Bracket) : (of bs).Mirrors where
  counted := countP_suppresses bs
  closable b rest hbs hb := by
    obtain rfl : bs = b :: rest := hbs
    exact List.countP_pos_iff.2 ⟨b, List.mem_cons_self, hb⟩
  suppressed_iff := by
    rw [isSuppressed, decide_eq_true_iff, of, countP_suppresses, Nat.add_pos_iff_pos_or_pos,
      List.count_pos_iff, List.count_pos_iff]

theorem closingBrace_suffix (bs : List Bracket) : closingBrace bs <:+ bs := by
  unfold closingBrace
  split
  · exact (List.tail_suffix _).trans (List.dropWhile_suffix _)
  · exact List.suffix_rfl

end Nesting

namespace Walk

open Nesting (Edit)

/-- The edits of the open brackets at a mark. -/
def edits (w : Walk) : Option Mark → List Edit
  | some .parenOpen => [.push (.paren (w.lastIsKeyword "decltype"))]
  | some .squareOpen => [.push .square]
  | some .braceOpen => w.nesting.popsTo w.nesting.dropAngles ++ [.push .brace]
  | some .less =>
    if w.last.any opensAngle then [.push (.angle (w.lastIsKeyword "template"))] else []
  | m => w.nesting.popsTo (w.bracketsAfter m)

/-- The edits at tokens outside directives. -/
def runEdits (options : Options) : (w : Walk) → List Token → List Edit
  | _, [] => []
  | w, t :: ts => w.edits t.mark? ++ runEdits options (w.step options t) ts

/-- The edits in a directive: those in the macro's body, and those that cut the stack back after
it. -/
def directiveEdits (options : Options) (w : Walk) (d : List Token) : List Edit :=
  match macroBody? d with
  | none => []
  | some body =>
    let n := (w.enterBody.run options body).nesting
    w.enterBody.runEdits options body ++ n.popsTo (n.truncate w.nesting.depth)

/-- The edits at segments. -/
def segmentsEdits (options : Options) : (w : Walk) → List Segment → List Edit
  | _, [] => []
  | w, .token t :: segs => w.edits t.mark? ++ segmentsEdits options (w.step options t) segs
  | w, .directive d :: segs =>
    w.directiveEdits options d ++ segmentsEdits options (w.directive options d) segs

variable {options : Options} {w : Walk}

/-! ## The edits are what a walk does -/

/-- A mark that opens no bracket leaves a part of the stack. -/
theorem bracketsAfter_suffix {bs : List Bracket} {m : Option Mark} (hw : w.nesting = .of bs)
    (hm : m ≠ some .parenOpen ∧ m ≠ some .squareOpen ∧ m ≠ some .braceOpen ∧ m ≠ some .less) :
    ∃ left, left <:+ bs ∧ w.bracketsAfter m = .of left := by
  have hangles := List.dropWhile_suffix (l := bs) Bracket.isAngle
  cases m with
  | none => exact ⟨bs, List.suffix_rfl, hw⟩
  | some m =>
    cases m with
    | parenOpen | squareOpen | braceOpen | less => simp at hm
    | parenClose =>
      refine ⟨_, (Nesting.closing_suffix Bracket.isParen _).trans hangles, ?_⟩
      rw [bracketsAfter, hw, Nesting.closeParen_of]
    | squareClose =>
      refine ⟨_, (Nesting.closing_suffix (· == .square) _).trans hangles, ?_⟩
      rw [bracketsAfter, hw, Nesting.closeSquare_of]
    | braceClose =>
      refine ⟨_, Nesting.closingBrace_suffix bs, ?_⟩
      rw [bracketsAfter, hw, Nesting.closeBrace_of]
    | semicolon =>
      refine ⟨_, hangles, ?_⟩
      rw [bracketsAfter, hw, Nesting.dropAngles_of]
    | greater =>
      refine ⟨_, Nesting.closing_suffix Bracket.isAngle bs, ?_⟩
      rw [bracketsAfter, hw, Nesting.closeAngle_of]
    | greaterGreater =>
      refine ⟨_, (Nesting.closing_suffix Bracket.isAngle _).trans
        (Nesting.closing_suffix Bracket.isAngle bs), ?_⟩
      rw [bracketsAfter, hw, Nesting.closeAngle_of, Nesting.closeAngle_of]
    | _ => exact ⟨bs, List.suffix_rfl, hw⟩

/-- The step lemma: the edits at a mark make of the open brackets what the mark makes of them. -/
theorem edited_edits (hw : w.Counts) (m : Option Mark) :
    w.nesting.edited (w.edits m) = w.bracketsAfter m := by
  unfold edits
  split
  · rfl
  · rfl
  · rw [Nesting.edited_append, hw, Nesting.dropAngles_of,
      Nesting.edited_popsTo (List.dropWhile_suffix _), ← Nesting.dropAngles_of, ← hw]
    rfl
  · rw [bracketsAfter]
    split <;> rfl
  · rename_i hparen hsquare hbrace hless
    obtain ⟨left, hleft, hafter⟩ := bracketsAfter_suffix hw ⟨hparen, hsquare, hbrace, hless⟩
    rw [hafter, hw, Nesting.edited_popsTo hleft]

/-- The edits of a walk, one after the other, give its nesting. -/
theorem edited_runEdits (hw : w.Counts) (ts : List Token) :
    w.nesting.edited (w.runEdits options ts) = (w.run options ts).nesting := by
  induction ts generalizing w with
  | nil => rfl
  | cons t ts ih =>
    rw [runEdits, Nesting.edited_append, edited_edits hw, ← nesting_step options,
      ih (hw.step options t), run_cons]

theorem edited_directiveEdits (hw : w.Counts) (d : List Token) :
    w.nesting.edited (w.directiveEdits options d) = (w.directive options d).nesting := by
  cases hbody : macroBody? d with
  | none =>
    rw [directiveEdits, directive, hbody]
    rfl
  | some body =>
    have hrun : w.nesting.edited (w.enterBody.runEdits options body) =
        (w.enterBody.run options body).nesting :=
      edited_runEdits (w := w.enterBody) hw body
    have hcounts : (w.enterBody.run options body).Counts :=
      Counts.run (w := w.enterBody) hw options body
    rw [directiveEdits, directive, hbody]
    dsimp only
    rw [Nesting.edited_append, hrun, hcounts, Nesting.truncate_of,
      Nesting.edited_popsTo (List.drop_suffix _ _)]

/-- The run lemma: the edits at segments make of the open brackets what the walk makes of them. -/
theorem edited_segmentsEdits (hw : w.Counts) (segs : List Segment) :
    w.nesting.edited (w.segmentsEdits options segs) = (w.runSegments options segs).nesting := by
  induction segs generalizing w with
  | nil => rfl
  | cons s segs ih =>
    have hs := hw.segment options s
    cases s with
    | token t =>
      rw [segmentsEdits, Nesting.edited_append, edited_edits hw, ← nesting_step options]
      exact ih hs
    | directive d =>
      rw [segmentsEdits, Nesting.edited_append, edited_directiveEdits hw]
      exact ih hs

theorem runEdits_append (w : Walk) (ts ts' : List Token) :
    w.runEdits options (ts ++ ts') =
      w.runEdits options ts ++ (w.run options ts).runEdits options ts' := by
  induction ts generalizing w with
  | nil => rfl
  | cons t ts ih => rw [List.cons_append, runEdits, runEdits, ih, run_cons, List.append_assoc]

theorem segmentsEdits_append (w : Walk) (segs segs' : List Segment) :
    w.segmentsEdits options (segs ++ segs') =
    w.segmentsEdits options segs ++ (w.runSegments options segs).segmentsEdits options segs' := by
  induction segs generalizing w with
  | nil => rfl
  | cons s segs ih =>
    cases s with
    | token t =>
      rw [List.cons_append, segmentsEdits, segmentsEdits, ih, List.append_assoc]
      rfl
    | directive d =>
      rw [List.cons_append, segmentsEdits, segmentsEdits, ih, List.append_assoc]
      rfl

end Walk

/-! ## A whole token sequence -/

/-- The edits of the open brackets in a walk over a token sequence. -/
def bracketEdits (options : Options) (ts : List Token) : List Nesting.Edit :=
  Walk.segmentsEdits options {} (segments ts)

/-- Whether brackets are open so at some time of a walk over a token sequence: after some of the
edits. -/
def PassesThrough (options : Options) (ts : List Token) (n : Nesting) : Prop :=
  ∃ done, done <+: bracketEdits options ts ∧ Nesting.edited {} done = n

section

variable {options : Options} {ts : List Token} {pre post : List Segment}

/-- The nesting before each segment is passed through. -/
theorem passesThrough_runSegments (h : segments ts = pre ++ post) :
    PassesThrough options ts (Walk.runSegments options {} pre).nesting := by
  refine ⟨Walk.segmentsEdits options {} pre, ?_, Walk.edited_segmentsEdits Walk.counts_empty pre⟩
  rw [bracketEdits, h, Walk.segmentsEdits_append]
  exact List.prefix_append _ _

theorem passesThrough_body {d inner rest : List Token}
    (h : segments ts = pre ++ .directive d :: post) (hbody : macroBody? d = some (inner ++ rest)) :
    PassesThrough options ts
      ((Walk.runSegments options {} pre).enterBody.run options inner).nesting := by
  have hcounts := Walk.counts_empty.runSegments options pre
  refine ⟨Walk.segmentsEdits options {} pre ++
    (Walk.runSegments options {} pre).enterBody.runEdits options inner, ?_, ?_⟩
  · rw [bracketEdits, h, Walk.segmentsEdits_append, List.prefix_append_right_inj,
      Walk.segmentsEdits, Walk.directiveEdits, hbody]
    dsimp only
    rw [Walk.runEdits_append, List.append_assoc, List.append_assoc]
    exact List.prefix_append _ _
  · rw [Nesting.edited_append, Walk.edited_segmentsEdits Walk.counts_empty]
    exact Walk.edited_runEdits (w := (Walk.runSegments options {} pre).enterBody) hcounts inner

end

/-- Every nesting that is passed through mirrors its brackets. -/
theorem PassesThrough.mirrors {options : Options} {ts : List Token} {n : Nesting}
    (h : PassesThrough options ts n) :
    n.Mirrors := by
  obtain ⟨done, -, rfl⟩ := h
  obtain ⟨bs, hbs⟩ := Nesting.exists_edited_of [] done
  have hedited : Nesting.edited {} done = .of bs := hbs
  rw [hedited]
  exact Nesting.mirrors_of bs

/-- In a walk over a token sequence, the counter of suppressing brackets mirrors the stack whenever
the brackets have been changed. That is so outside of directives, inside a macro's body, and while
brackets are closed one by one. -/
theorem suppression_mirrors_stack (options : Options) (ts : List Token) :
    (∀ pre post, segments ts = pre ++ post →
      PassesThrough options ts (Walk.runSegments options {} pre).nesting) ∧
      (∀ pre post d inner rest, segments ts = pre ++ .directive d :: post →
        macroBody? d = some (inner ++ rest) →
        PassesThrough options ts
          ((Walk.runSegments options {} pre).enterBody.run options inner).nesting) ∧
      ∀ n, PassesThrough options ts n → n.Mirrors :=
  ⟨fun _ _ => passesThrough_runSegments, fun _ _ _ _ _ => passesThrough_body,
   fun _ => PassesThrough.mirrors⟩

/-- A template header that a macro's body leaves open, inside the operand of `decltype`: it is
counted, and counted down when it is cut off. -/
theorem suppression_mirrors_stack_in_macroBody :
    ∃ ts, tokens "decltype(\n#define X template<".toList = ts ∧
      bracketEdits {} ts = [.push (.paren true), .push (.angle true), .pop] ∧
      Nesting.Mirrors ⟨[.angle true, .paren true], 2⟩ ∧ Nesting.Mirrors ⟨[.paren true], 1⟩ := by
  obtain ⟨ts, hts⟩ : ∃ ts : List Token, ts =
      [⟨.keyword, "decltype".toList⟩, ⟨.punctuation, ['(']⟩, ⟨.whitespace, ['\n']⟩,
       ⟨.punctuation, ['#']⟩, ⟨.identifier, "define".toList⟩, ⟨.whitespace, [' ']⟩,
       ⟨.identifier, ['X']⟩, ⟨.whitespace, [' ']⟩, ⟨.keyword, "template".toList⟩,
       ⟨.punctuation, ['<']⟩, .endOfInput] := ⟨_, rfl⟩
  have hsegs : segments ts = (ts.take 3).map .token ++ .directive ((ts.drop 3).take 7) :: [] := by
    rw [hts]
    rfl
  have hbody : macroBody? ((ts.drop 3).take 7) = some ((ts.drop 7).take 3 ++ []) := by
    rw [hts]
    decide +kernel
  obtain ⟨houtside, hinside, hmirrors⟩ := suppression_mirrors_stack {} ts
  have hopen := hmirrors _ (hinside _ _ _ _ _ hsegs hbody)
  have hcut := hmirrors _ (houtside _ [] ((List.append_nil _).symm))
  refine ⟨ts, ?_, ?_, ?_, ?_⟩
  · rw [hts]
    decide +kernel
  · rw [hts]
    decide +kernel
  · rw [hts] at hopen
    exact hopen
  · rw [hts] at hcut
    exact hcut

end EastConst
