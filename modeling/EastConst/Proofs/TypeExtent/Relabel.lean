import EastConst.TypeExtent

/-!
# Extents and indices

A type is read off the tokens alone. The indices that come with them are handed on and never looked
at, so with other indices the same tokens have the same extent, in the other indices
(`scan_relabel`), and the same refusal.
-/

namespace EastConst.TypeExtent

/-- Tokens with other indices. -/
def relabelAll (φ : Nat → Nat) (sig : List (Token × Nat)) : List (Token × Nat) :=
  sig.map fun (t, i) => (t, φ i)

@[simp]
theorem relabelAll_cons (φ : Nat → Nat) (t : Token) (i : Nat) (sig : List (Token × Nat)) :
    relabelAll φ ((t, i) :: sig) = (t, φ i) :: relabelAll φ sig := rfl

/-- An extent with other indices. -/
def relabel (φ : Nat → Nat) (extent : TypeExtent) : TypeExtent :=
  ⟨φ extent.first, φ extent.last⟩

/-- A name with other indices. -/
def Name.relabel (φ : Nat → Nat) (name : Name) : Name :=
  ⟨φ name.last, name.simple, relabelAll φ name.rest⟩

variable (φ : Nat → Nat)

theorem builtinRun_relabel (last : Nat) (sig : List (Token × Nat)) :
    builtinRun (φ last) (relabelAll φ sig) = φ (builtinRun last sig) := by
  induction sig generalizing last with
  | nil => rfl
  | cons p sig ih =>
    rw [relabelAll_cons, builtinRun, builtinRun, ih]
    split <;> rfl

/-- An operand is read the same at other indices. -/
theorem operandEnd_relabel (budget depth : Nat) (sig : List (Token × Nat)) :
    operandEnd budget depth (relabelAll φ sig) = (operandEnd budget depth sig).map φ := by
  induction sig generalizing budget depth with
  | nil => cases budget <;> rfl
  | cons p sig ih =>
    cases budget with
    | zero => rfl
    | succ budget =>
      rw [relabelAll_cons, operandEnd, operandEnd]
      split
      · exact ih budget (depth + 1)
      · split
        · rfl
        · exact ih budget (depth - 1)
      · rfl
      · rfl
      · rfl
      · exact ih budget depth

theorem map_name_relabel (last? : Option Nat) (simple : Bool) (rest : List (Token × Nat)) :
    (last?.map φ).map (⟨·, simple, relabelAll φ rest⟩) =
      (last?.map (⟨·, simple, rest⟩)).map (Name.relabel φ) := by
  cases last? <;> rfl

/-- A name is read the same at other indices, and ends at the new index of its last token. -/
theorem name?_relabel (budget : Nat) (state : NameState) (last? : Option Nat) (simple : Bool)
    (sig : List (Token × Nat)) :
    name? budget state (last?.map φ) simple (relabelAll φ sig) =
      (name? budget state last? simple sig).map (Option.map (Name.relabel φ)) := by
  induction sig generalizing budget state last? simple with
  | nil => cases state <;> cases last? <;> cases budget <;> rfl
  | cons p sig ih =>
    obtain ⟨t, i⟩ := p
    rw [relabelAll_cons]
    cases state with
    | identifier =>
      cases budget with
      | zero =>
        simp only [name?]
        split
        · rfl
        · split
          · rfl
          · exact congrArg Except.ok (map_name_relabel φ last? simple ((t, i) :: sig))
      | succ budget =>
        simp only [name?]
        split
        · exact ih ..
        · split
          · exact ih ..
          · exact congrArg Except.ok (map_name_relabel φ last? simple ((t, i) :: sig))
    | argued =>
      cases budget with
      | zero =>
        simp only [name?]
        split
        · rfl
        · exact congrArg Except.ok (map_name_relabel φ last? simple ((t, i) :: sig))
      | succ budget =>
        simp only [name?]
        split
        · exact ih ..
        · exact congrArg Except.ok (map_name_relabel φ last? simple ((t, i) :: sig))
    | arguments depths =>
      cases budget with
      | zero => rfl
      | succ budget =>
        rw [name?, name?]
        split
        · exact ih ..
        · exact ih budget .argued (some i) simple
        · rfl
    | _ =>
      cases budget with
      | zero => rfl
      | succ budget =>
        simp only [name?]
        split
        · exact ih ..
        · split
          · exact ih ..
          · split
            · exact ih budget .identifier (some i) simple
            · exact congrArg Except.ok (map_name_relabel φ last? false sig)

theorem ofDecltype_relabel (first budget : Nat) (sig : List (Token × Nat)) :
    ofDecltype (φ first) budget (relabelAll φ sig) =
      (ofDecltype first budget sig).map (relabel φ) := by
  cases sig with
  | nil => rfl
  | cons p sig =>
    cases budget with
    | zero => rfl
    | succ budget =>
      rw [relabelAll_cons, ofDecltype, ofDecltype, operandEnd_relabel]
      split
      · cases operandEnd budget 1 sig <;> rfl
      · rfl

theorem ofName_relabel (first : Nat) (name : Except Refusal (Option Name)) :
    ofName (φ first) (name.map (Option.map (Name.relabel φ))) =
      (ofName first name).map (relabel φ) := by
  cases name with
  | error refusal => rfl
  | ok name => cases name <;> rfl

theorem impliesInt_relabel (rest : List (Token × Nat)) :
    impliesInt (relabelAll φ rest) = impliesInt rest := by
  cases rest <;> rfl

/-- Whether a plain name is refused does not depend on its indices. -/
theorem ofPlainName_relabel (first : Nat) (name : Except Refusal (Option Name)) :
    ofPlainName (φ first) (name.map (Option.map (Name.relabel φ))) =
      (ofPlainName first name).map (relabel φ) := by
  cases name with
  | error refusal => rfl
  | ok name =>
    cases name with
    | none => rfl
    | some name =>
      change (if name.simple && impliesInt (relabelAll φ name.rest) then _ else _) = _
      rw [impliesInt_relabel, ofPlainName]
      split <;> rfl

/-- The extent of a type is given in the indices that its tokens come with. -/
theorem scan_relabel (budget : Nat) (sig : List (Token × Nat)) :
    scan budget (relabelAll φ sig) = (scan budget sig).map (relabel φ) := by
  cases sig with
  | nil => rfl
  | cons p sig =>
    obtain ⟨t, i⟩ := p
    cases budget with
    | zero => rfl
    | succ budget =>
      have hname := name?_relabel φ budget .start none true sig
      have hplain := name?_relabel φ (budget + 1) .start none true ((t, i) :: sig)
      rw [Option.map_none] at hname hplain
      rw [relabelAll_cons] at hplain ⊢
      rw [scan, scan, hname, hplain, ofName_relabel, ofPlainName_relabel, ofDecltype_relabel,
        builtinRun_relabel]
      split
      · rfl
      · split
        · rfl
        · split <;> rfl

end EastConst.TypeExtent
