import EastConst.Proofs.Occurrence.Leading
import EastConst.Proofs.TypeExtent

/-!
# What a walk remembers

Apart from the open brackets and the trailing return type, a step over a token that is no qualifier
asks only about the last significant token (`Walk.step_congr`). A token that can start a type asks
nothing about it (`Walk.LastAlike.of_startsType`). After a token that can end a type, a qualifier in
between is not noticed, but for an arrow after a parenthesis and a `<` after a name
(`Walk.LastAlike.of_endsType`).
-/

namespace EastConst

/-- Whether two tokens in a row are read together: a parenthesis and an arrow start a trailing
return type, a name and a `<` open template arguments. -/
def Token.joins (t u : Token) : Bool :=
  t.isMark .parenClose && u.isMark .arrow || Walk.opensAngle t && u.isMark .less

theorem Token.isKeyword_of_endsType {t : Token} {word : String} (h : t.endsType = true)
    (hword : Vocabulary.isBuiltinType word.toList = false) : t.isKeyword word = false := by
  refine Bool.eq_false_iff.2 fun hw => ?_
  rw [Token.isKeyword, Bool.and_eq_true, beq_iff_eq, beq_iff_eq] at hw
  simp [Token.endsType, Token.isBuiltinType, Token.isMark, Token.mark?, hw, hword] at h

theorem Token.isMark_of_endsType {t : Token} (h : t.endsType = true) :
    t.isMark .squareClose = false := by
  refine Bool.eq_false_iff.2 fun hm => ?_
  have hkind : t.kind = .punctuation := by
    apply Decidable.byContradiction
    intro hk
    simp [Token.isMark, Token.mark?, hk] at hm
  rw [Token.isMark, beq_iff_eq] at hm
  simp [Token.endsType, Token.isBuiltinType, Token.isWord, Token.isMark, hkind, hm] at h

theorem Token.isMark_of_startsType {t : Token} {m : Mark} (h : t.startsType = true)
    (hm : m ≠ .scope) : t.isMark m = false := by
  refine Bool.eq_false_iff.2 fun hmark => ?_
  rw [Token.isMark, beq_iff_eq] at hmark
  have hkind : t.kind = .punctuation := by
    apply Decidable.byContradiction
    intro hk
    simp [Token.mark?, hk] at hmark
  simp [Token.startsType, Token.isWord, Token.isMark, hkind, hmark, hm] at h

namespace Walk

variable {options : Options} {w v : Walk} {t u : Token} {q : Qualifier}

theorem run_cons (t : Token) (ts : List Token) :
    w.run options (t :: ts) = (w.step options t).run options ts := rfl

theorem run_append (ts ts' : List Token) :
    w.run options (ts ++ ts') = (w.run options ts).run options ts' :=
  List.foldl_append

/-- Walks with the same brackets open, in the same trailing return type. -/
structure Agrees (w v : Walk) : Prop where
  nesting : w.nesting = v.nesting
  trailingReturn : w.trailingReturn = v.trailingReturn

theorem Agrees.symm (h : Agrees w v) : Agrees v w :=
  ⟨h.nesting.symm, h.trailingReturn.symm⟩

theorem Agrees.trans {x : Walk} (h : Agrees w v) (h' : Agrees v x) : Agrees w x :=
  ⟨h.nesting.trans h'.nesting, h.trailingReturn.trans h'.trailingReturn⟩

/-! ## Steps over qualifiers -/

theorem isSignificant_of_qualifier (hq : Qualifier.ofToken? t = some q) :
    t.isSignificant = true := by
  simp [Token.isSignificant, Token.isTrivia, Token.kind_of_qualifier hq]

theorem step_qualifier (hq : Qualifier.ofToken? t = some q) :
    w.step options t = { w with preceding := .qualifier w.role, last := some t } := by
  rw [Walk.step, if_pos (isSignificant_of_qualifier hq), hq]

/-- A qualifier changes no bracket and no trailing return type. -/
theorem agrees_step_qualifier (hq : Qualifier.ofToken? t = some q) :
    Agrees w (w.step options t) := by
  rw [step_qualifier hq]
  exact ⟨rfl, rfl⟩

theorem step_insignificant (h : t.isSignificant = false) : w.step options t = w := by
  rw [Walk.step, if_neg (by simp [h])]

/-! ## Steps over other tokens -/

/-- A significant token that is no qualifier is stepped over and remembered. -/
theorem step_of_not_qualifier (hs : t.isSignificant = true) (hq : Qualifier.ofToken? t = none) :
    w.step options t = { w.advance options t with last := some t } := by
  rw [Walk.step, if_pos hs, hq]

theorem step_of_punctuation (hk : t.kind = .punctuation) :
    w.step options t = { w.punctuate t.mark? with last := some t } := by
  have hs : t.isSignificant = true := by simp [Token.isSignificant, Token.isTrivia, hk]
  have hq : Qualifier.ofToken? t = none := by simp [Qualifier.ofToken?, hk]
  rw [step_of_not_qualifier hs hq, advance, hk]

/-- Only punctuation opens and closes brackets, and starts and ends trailing return types. -/
theorem agrees_step_of_kind (hk : t.kind ≠ .punctuation) : Agrees w (w.step options t) := by
  unfold Walk.step Walk.advance
  split
  · split
    · exact ⟨rfl, rfl⟩
    · split
      · contradiction
      all_goals exact ⟨rfl, rfl⟩
  · exact ⟨rfl, rfl⟩

/-- What a token asks about the last one before it has the same answer in two walks. -/
structure LastAlike (w v : Walk) (u : Token) : Prop where
  decltype : u.isMark .parenOpen = true → w.lastIsKeyword "decltype" = v.lastIsKeyword "decltype"
  linkage : u.kind = .literal → w.lastIsKeyword "extern" = v.lastIsKeyword "extern"
  square : u.isMark .squareClose = true → w.lastIsMark .squareClose = v.lastIsMark .squareClose
  angle : u.isMark .less = true → w.last.any opensAngle = v.last.any opensAngle ∧
    w.lastIsKeyword "template" = v.lastIsKeyword "template"
  arrow : u.isMark .arrow = true → w.lastIsMark .parenClose = v.lastIsMark .parenClose

theorem LastAlike.of_eq (h : w.last = v.last) (u : Token) : LastAlike w v u := by
  constructor <;> simp [lastIsKeyword, lastIsMark, h]

/-- Before the start of a type it does not matter what the last token was. -/
theorem LastAlike.of_startsType (hu : u.startsType = true) : LastAlike w v u := by
  have hmark (m : Mark) (hm : m ≠ .scope) : u.isMark m = false := Token.isMark_of_startsType hu hm
  have hkind : u.kind ≠ .literal := by
    intro hk
    simp [Token.startsType, Token.isWord, Token.isMark, Token.mark?, hk] at hu
  constructor <;> intro h
  · simp [hmark] at h
  · exact absurd h hkind
  · simp [hmark] at h
  · simp [hmark] at h
  · simp [hmark] at h

/-- After a token that can end a type, a qualifier in between is not noticed by a token that is not
read together with it. -/
theorem LastAlike.of_endsType (hw : w.last = some t) (ht : t.endsType = true)
    (hv : v.last = some ⟨.keyword, q.text⟩) (hu : t.joins u = false) : LastAlike w v u := by
  rw [Token.joins, Bool.or_eq_false_iff, Bool.and_eq_false_iff, Bool.and_eq_false_iff] at hu
  constructor <;> intro h
  · have hword : t.isKeyword "decltype" = false := Token.isKeyword_of_endsType ht (by decide)
    simp only [lastIsKeyword, hw, hv, Option.any_some, hword]
    cases q <;> decide
  · have hword : t.isKeyword "extern" = false := Token.isKeyword_of_endsType ht (by decide)
    simp only [lastIsKeyword, hw, hv, Option.any_some, hword]
    cases q <;> decide
  · simp only [lastIsMark, hw, hv, Option.any_some, Token.isMark_of_endsType ht]
    rfl
  · have hword : t.isKeyword "template" = false := Token.isKeyword_of_endsType ht (by decide)
    have hopens : opensAngle t = false := hu.2.resolve_right (by simp [h])
    simp only [lastIsKeyword, hw, hv, Option.any_some, hopens, hword]
    cases q <;> decide
  · have hparen : t.isMark .parenClose = false := hu.1.resolve_right (by simp [h])
    simp only [lastIsMark, hw, hv, Option.any_some, hparen]
    rfl

/-- Nor is a qualifier noticed where no token has been met. -/
theorem LastAlike.of_none (hw : w.last = none) (hv : v.last = some ⟨.keyword, q.text⟩) :
    LastAlike w v u := by
  have hwords : (⟨.keyword, q.text⟩ : Token).isKeyword "decltype" = false ∧
      (⟨.keyword, q.text⟩ : Token).isKeyword "extern" = false ∧
      (⟨.keyword, q.text⟩ : Token).isKeyword "template" = false ∧
      opensAngle ⟨.keyword, q.text⟩ = false := by
    cases q <;> decide
  constructor <;> intro _ <;>
    simp [lastIsKeyword, lastIsMark, hw, hv, hwords, Token.isMark, Token.mark?]

/-- Whether a mark ends a trailing return type does not depend on the tokens before it. -/
theorem endTrailingReturn_eq (w : Walk) (m : Option Mark) :
    ∃ trailing, ∀ preceding last,
      Walk.endTrailingReturn ⟨w.nesting, preceding, last, w.trailingReturn⟩ m =
        ⟨w.nesting, preceding, last, trailing⟩ := by
  unfold Walk.endTrailingReturn
  cases w.trailingReturn with
  | none => exact ⟨none, fun _ _ => rfl⟩
  | some start =>
    dsimp only
    by_cases h : endsTrailingReturn start w.nesting.depth m = true
    · exact ⟨none, fun _ _ => if_pos h⟩
    · exact ⟨some start, fun _ _ => if_neg h⟩

/-- Walks that agree are the same after a token that is no qualifier, if what it asks about the last
token has the same answer. What the next qualifier is told plays no part. -/
theorem step_congr (h : Agrees w v) (hl : LastAlike w v u) (hs : u.isSignificant = true)
    (hq : Qualifier.ofToken? u = none) : w.step options u = v.step options u := by
  rw [step_of_not_qualifier hs hq, step_of_not_qualifier hs hq]
  obtain ⟨trailing, htrailing⟩ := endTrailingReturn_eq w u.mark?
  obtain ⟨nesting, preceding, last, trailing₀⟩ := w
  obtain ⟨nesting', preceding', last', trailing₀'⟩ := v
  obtain ⟨hn, htr⟩ := h
  dsimp only at hn htr htrailing
  subst hn htr
  unfold Walk.advance
  cases hk : u.kind with
  | punctuation =>
    dsimp only
    unfold Walk.punctuate
    rw [htrailing, htrailing]
    cases hm : u.mark? with
    | none => rfl
    | some m =>
      have hmark : u.isMark m = true := by simp [Token.isMark, hm]
      cases m with
      | parenOpen =>
        have hdecltype := hl.decltype hmark
        dsimp only [lastIsKeyword] at hdecltype ⊢
        rw [hdecltype]
      | squareClose =>
        have hsquare : (Walk.mk nesting preceding last trailing).lastIsMark .squareClose =
            (Walk.mk nesting preceding' last' trailing).lastIsMark .squareClose := hl.square hmark
        dsimp only
        rw [hsquare]
      | less =>
        obtain ⟨hopens, htemplate⟩ := hl.angle hmark
        dsimp only [lastIsKeyword] at hopens htemplate ⊢
        rw [hopens, htemplate]
        split <;> rfl
      | arrow =>
        have harrow : (Walk.mk nesting preceding last trailing).lastIsMark .parenClose =
            (Walk.mk nesting preceding' last' trailing).lastIsMark .parenClose := hl.arrow hmark
        dsimp only
        rw [harrow]
      | _ => rfl
  | literal =>
    dsimp only
    rw [hl.linkage hk]
  | keyword => rfl
  | identifier => rfl
  | whitespace => rfl
  | comment => rfl
  | endOfInput => rfl

end Walk

end EastConst
