import EastConst.Proofs.Nesting
import EastConst.Proofs.Walk

/-!
# Walking inside brackets

A walk inside open brackets does what it would do by itself, with those brackets below its own
(`Walk.atop`), as long as it closes none of them and none of them suppresses qualifiers
(`Walk.run_atop`). Where one of them suppresses qualifiers, every qualifier is ignored until it is
closed (`Walk.role_of_suppressing`). So of the brackets around a macro's body only those that it
closes are walked with it (`Walk.role_run_enterBody_of_retains`).
-/

namespace EastConst.Walk

open Nesting (closing closingBrace)

variable {options : Options} {w v : Walk} {t : Token} {base : List Bracket}

/-- Whether a walk has counted the open brackets that suppress qualifiers. -/
def Counts (w : Walk) : Prop :=
  w.nesting = .of w.nesting.brackets

theorem counts_empty : Counts {} := rfl

/-! ## Brackets are counted -/

theorem Counts.punctuate (h : w.Counts) (m : Option Mark) : (w.punctuate m).Counts := by
  obtain ⟨nesting, preceding, last, trailing⟩ := w
  obtain ⟨bs, rfl⟩ : ∃ bs, nesting = .of bs := ⟨_, h⟩
  obtain ⟨trailing', htrailing⟩ := endTrailingReturn_eq ⟨.of bs, preceding, last, trailing⟩ m
  unfold Walk.punctuate
  rw [htrailing]
  cases m with
  | none => rfl
  | some m =>
    cases m with
    | less =>
      dsimp only
      split
      · simp [Counts]
      · rfl
    | _ => simp [Counts]

/-- The step lemma: a walk counts the brackets that suppress qualifiers as it opens and closes
them. -/
theorem Counts.step (h : w.Counts) (options : Options) (t : Token) : (w.step options t).Counts := by
  unfold Walk.step
  split
  · split
    · exact h
    · unfold Walk.advance
      split
      · exact h.punctuate t.mark?
      · exact h
      · exact h
      · exact h
      · exact h
  · exact h

theorem Counts.run (h : w.Counts) (options : Options) (ts : List Token) :
    (w.run options ts).Counts := by
  induction ts generalizing w with
  | nil => exact h
  | cons t ts ih => exact ih (h.step options t)

theorem Counts.segment (h : w.Counts) (options : Options) (s : Segment) :
    (w.segment options s).Counts := by
  cases s with
  | token t => exact h.step options t
  | directive d =>
    rw [Walk.segment, Walk.directive]
    split
    · exact h
    · rename_i body _
      have hbody : (w.enterBody.run options body).Counts :=
        Counts.run (w := w.enterBody) h options body
      rw [Counts, hbody, Nesting.truncate_of]
      rfl

/-- The run lemma: a walk over segments has counted its brackets. -/
theorem Counts.runSegments (h : w.Counts) (options : Options) (segs : List Segment) :
    (w.runSegments options segs).Counts := by
  induction segs generalizing w with
  | nil => exact h
  | cons s segs ih => exact ih (h.segment options s)

/-! ## Brackets below a walk -/

/-- A walk with other brackets open below its own. -/
def atop (base : List Bracket) (v : Walk) : Walk :=
  { v with
    nesting := .of (v.nesting.brackets ++ base)
    trailingReturn := v.trailingReturn.map (· + base.length) }

theorem isSuppressed_atop (hv : v.Counts) (hbase : base.any Bracket.suppresses = false) :
    (v.atop base).isSuppressed = v.isSuppressed := by
  rw [isSuppressed, isSuppressed, atop, hv]
  simp [Nesting.isSuppressed_of, hbase]

/-- Brackets that suppress nothing change no role. -/
theorem role_atop (hv : v.Counts) (hbase : base.any Bracket.suppresses = false) :
    (v.atop base).role = v.role := by
  rw [role, role, isSuppressed_atop hv hbase]
  rfl

theorem endTrailingReturn_atop (v : Walk) (base : List Bracket) (m : Option Mark) :
    (v.atop base).endTrailingReturn m = (v.endTrailingReturn m).atop base := by
  obtain ⟨nesting, preceding, last, trailing⟩ := v
  cases trailing with
  | none => rfl
  | some start =>
    have hends : endsTrailingReturn (start + base.length)
        (Nesting.of (nesting.brackets ++ base)).depth m =
          endsTrailingReturn start nesting.depth m := by
      rw [Nesting.depth_of, List.length_append, Nesting.depth]
      unfold endsTrailingReturn
      split <;> simp
    simp only [endTrailingReturn, atop, Option.map_some, hends]
    split <;> rfl

/-- A punctuator that leaves the brackets below open does to a walk what it does without them. -/
theorem punctuate_atop {m : Option Mark} (hv : v.Counts)
    (h : base <:+ ((v.atop base).punctuate m).nesting.brackets) :
    (v.atop base).punctuate m = (v.punctuate m).atop base := by
  have hcounts : (v.endTrailingReturn m).Counts := by
    unfold endTrailingReturn
    split
    · split <;> exact hv
    · exact hv
  unfold punctuate at h ⊢
  rw [endTrailingReturn_atop] at h ⊢
  generalize v.endTrailingReturn m = v at h hcounts ⊢
  obtain ⟨nesting, preceding, last, trailing⟩ := v
  obtain ⟨bs, rfl⟩ : ∃ bs, nesting = .of bs := ⟨_, hcounts⟩
  cases m with
  | none => rfl
  | some m =>
    cases m with
    | parenOpen => simp [atop, lastIsKeyword]
    | squareOpen => simp [atop]
    | braceOpen =>
      simp only [atop, Nesting.brackets_of, Nesting.dropAngles_of, Nesting.push_of] at h ⊢
      rw [Nesting.dropWhile_append_of_suffix_brace h, List.cons_append]
    | parenClose =>
      simp only [atop, Nesting.brackets_of, Nesting.closeParen_of] at h ⊢
      have hdrop := Nesting.dropWhile_append_of_suffix (h.trans (Nesting.closing_suffix _ _))
      rw [hdrop] at h ⊢
      rw [(Nesting.closing_append h).2]
    | squareClose =>
      simp only [atop, Nesting.brackets_of, Nesting.closeSquare_of] at h ⊢
      have hdrop := Nesting.dropWhile_append_of_suffix (h.trans (Nesting.closing_suffix _ _))
      rw [hdrop] at h ⊢
      rw [(Nesting.closing_append h).2]
      rfl
    | braceClose =>
      simp only [atop, Nesting.brackets_of, Nesting.closeBrace_of] at h ⊢
      rw [Nesting.closingBrace_append h]
    | semicolon =>
      simp only [atop, Nesting.brackets_of, Nesting.dropAngles_of] at h ⊢
      rw [Nesting.dropWhile_append_of_suffix h]
    | less =>
      cases hopens : last.any opensAngle <;> simp [atop, lastIsKeyword, hopens]
    | greater =>
      simp only [atop, Nesting.brackets_of, Nesting.closeAngle_of] at h ⊢
      obtain ⟨hclosed, hrest⟩ := Nesting.closing_append h
      rw [hclosed, hrest]
    | greaterGreater =>
      simp only [atop, Nesting.brackets_of, Nesting.closeAngle_of] at h ⊢
      obtain ⟨hinner, hrest⟩ := Nesting.closing_append (h.trans (Nesting.closing_suffix _ _))
      rw [hrest] at h ⊢
      obtain ⟨houter, hrest'⟩ := Nesting.closing_append h
      rw [hinner, houter, hrest']
    | arrow =>
      cases trailing with
      | none =>
        cases hparen : last.any (·.isMark .parenClose) <;> simp [atop, lastIsMark, hparen]
      | some start => simp [atop]
    | _ => rfl

theorem advance_atop (hv : v.Counts)
    (h : base <:+ ((v.atop base).advance options t).nesting.brackets) :
    (v.atop base).advance options t = (v.advance options t).atop base := by
  unfold advance at h ⊢
  split at h
  · exact punctuate_atop hv h
  · rfl
  · rfl
  · rfl
  · rfl

/-- The step lemma: a step that leaves the brackets below a walk open is a step of the walk by
itself. -/
theorem step_atop (hv : v.Counts) (hbase : base.any Bracket.suppresses = false)
    (h : base <:+ ((v.atop base).step options t).nesting.brackets) :
    (v.atop base).step options t = (v.step options t).atop base := by
  cases hsig : t.isSignificant with
  | false => rw [step_insignificant hsig, step_insignificant hsig]
  | true =>
    cases hq : Qualifier.ofToken? t with
    | some q =>
      rw [step_qualifier hq, step_qualifier hq, role_atop hv hbase]
      rfl
    | none =>
      rw [step_of_not_qualifier hsig hq] at h
      rw [step_of_not_qualifier hsig hq, step_of_not_qualifier hsig hq, advance_atop hv h]
      rfl

/-- Whether given brackets are open below a walk all along tokens. -/
def Retains (options : Options) (w : Walk) (ts : List Token) (base : List Bracket) : Prop :=
  ∀ n ≤ ts.length, base <:+ (w.run options (ts.take n)).nesting.brackets

/-- Whether the brackets that are open at the start of tokens are open all along. -/
def Sustains (options : Options) (w : Walk) (ts : List Token) : Prop :=
  w.Retains options ts w.nesting.brackets

instance (options : Options) (w : Walk) (ts : List Token) (base : List Bracket) :
    Decidable (w.Retains options ts base) :=
  inferInstanceAs (Decidable (∀ n ≤ ts.length, _ <:+ _))

instance (options : Options) (w : Walk) (ts : List Token) : Decidable (w.Sustains options ts) :=
  inferInstanceAs (Decidable (w.Retains options ts _))

/-- The run lemma: as long as the brackets below a walk are open, it does what it does by itself. -/
theorem run_atop {ts : List Token} (hv : v.Counts) (hbase : base.any Bracket.suppresses = false)
    (h : (v.atop base).Retains options ts base) :
    (v.atop base).run options ts = (v.run options ts).atop base := by
  induction ts generalizing v with
  | nil => rfl
  | cons t ts ih =>
    have hstep : (v.atop base).step options t = (v.step options t).atop base := by
      apply step_atop hv hbase
      exact h 1 (Nat.le_add_left 1 _)
    rw [run_cons, run_cons, hstep]
    apply ih (hv.step options t)
    intro n hn
    rw [← hstep]
    exact h (n + 1) (Nat.succ_le_succ hn)

/-- Where a bracket that suppresses qualifiers is open, a qualifier is ignored. -/
theorem role_of_suppressing (hw : w.Counts) (hbase : base.any Bracket.suppresses = true)
    (h : base <:+ w.nesting.brackets) : w.role = .ignored := by
  have hsup : w.nesting.isSuppressed = true := by
    rw [hw, Nesting.isSuppressed_of, List.any_eq_true]
    obtain ⟨b, hb, hs⟩ := List.any_eq_true.1 hbase
    exact ⟨b, h.mem hb, hs⟩
  rw [role, isSuppressed, hsup, Bool.true_or]
  rfl

/-- The walk at the start of a macro's body is a new walk inside some of the brackets around the
body, with the others below. -/
theorem enterBody_eq_atop {closed kept : List Bracket} (hw : w.Counts)
    (hbrackets : w.nesting.brackets = closed ++ kept) :
    w.enterBody = atop kept { nesting := .of closed } := by
  rw [enterBody, atop, hw, hbrackets]
  rfl

/-- Of the brackets around a macro's body, those that stay open matter only by suppressing
qualifiers: otherwise a qualifier has the role that it has inside the others alone. -/
theorem role_run_enterBody_of_retains {ts : List Token} {closed kept : List Bracket} (hw : w.Counts)
    (hbrackets : w.nesting.brackets = closed ++ kept) (h : w.enterBody.Retains options ts kept) :
    (w.enterBody.run options ts).role =
      if kept.any Bracket.suppresses then .ignored
      else (Walk.run options { nesting := .of closed } ts).role := by
  have hclosed : Counts { nesting := .of closed } := rfl
  split
  · rename_i hkept
    have hend := h ts.length (Nat.le_refl _)
    rw [List.take_length] at hend
    exact role_of_suppressing (Counts.run (w := w.enterBody) hw options ts) hkept hend
  · rename_i hkept
    rw [Bool.not_eq_true] at hkept
    rw [enterBody_eq_atop hw hbrackets] at h ⊢
    rw [run_atop hclosed hkept h, role_atop (hclosed.run options ts) hkept]

/-- A qualifier in a macro's body has the role that it has in the body by itself, or is ignored if
the body stands where qualifiers are suppressed, as long as the brackets around the body are
open. -/
theorem role_run_enterBody {ts : List Token} (hw : w.Counts) (h : w.enterBody.Sustains options ts) :
    (w.enterBody.run options ts).role =
      if w.nesting.isSuppressed then .ignored else (Walk.run options {} ts).role := by
  have hsup : w.nesting.isSuppressed = w.nesting.brackets.any Bracket.suppresses := by
    conv => lhs; rw [hw, Nesting.isSuppressed_of]
  rw [hsup]
  exact role_run_enterBody_of_retains hw (List.nil_append _).symm h

/-! ## Brackets around a directive -/

/-- Whether a directive closes no bracket that is open around it: all of them are open at the end of
the macro's body. -/
def Spares (options : Options) (w : Walk) (d : List Token) : Prop :=
  ∀ body ∈ macroBody? d, w.nesting.brackets <:+ (w.enterBody.run options body).nesting.brackets

instance (options : Options) (w : Walk) (d : List Token) : Decidable (w.Spares options d) :=
  inferInstanceAs (Decidable (∀ body ∈ macroBody? d, _ <:+ _))

/-- A directive leaves a walk as it was exactly if it closes no bracket that is open around it. -/
theorem directive_eq_self_iff (hw : w.Counts) {d : List Token} :
    w.directive options d = w ↔ w.Spares options d := by
  rw [directive, Spares]
  split
  · rename_i hnone
    simp [hnone]
  · rename_i body hbody
    have hcounts := Counts.run (w := w.enterBody) hw options body
    have hnesting : ({ w with
        nesting := (w.enterBody.run options body).nesting.truncate w.nesting.depth } : Walk) = w ↔
        (w.enterBody.run options body).nesting.truncate w.nesting.depth = w.nesting := by
      constructor
      · exact congrArg Walk.nesting
      · intro h
        rw [h]
    have htruncate : (Nesting.of (w.enterBody.run options body).nesting.brackets).truncate
        (Nesting.of w.nesting.brackets).depth = Nesting.of w.nesting.brackets ↔ _ :=
      Nesting.truncate_eq_iff
    rw [← hcounts, ← hw] at htruncate
    rw [hnesting, hbody]
    simp only [Option.mem_def, Option.some.injEq, forall_eq']
    exact htruncate

end EastConst.Walk
