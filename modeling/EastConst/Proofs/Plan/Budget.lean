import EastConst.Proofs.Plan.Independence
import EastConst.Proofs.TypeExtent.Budget
import Mathlib.Data.List.Flatten

/-!
# A smaller budget only leaves out

The groups are the same whatever the budget is, and each of them has the same extent or refusal with
a smaller budget, or its type is too long (`Group.extent_cut`). So a smaller budget takes moves out
of a plan and changes no other (`Plan.ofTokens_moves_sublist_of_le`).
-/

namespace EastConst

open TypeExtent

/-- What gives out less, and nothing else, gives a sublist. -/
theorem filterMap_sublist_filterMap {α β : Type} {f g : α → Option β}
    (h : ∀ a, f a = none ∨ f a = g a)
    (as : List α) : (as.filterMap f).Sublist (as.filterMap g) := by
  induction as with
  | nil => exact .refl _
  | cons a as ih =>
    rw [List.filterMap_cons, List.filterMap_cons]
    rcases h a with hnone | heq
    · rw [hnone]
      cases g a with
      | none => exact ih
      | some b => exact ih.cons b
    · rw [heq]
      cases g a with
      | none => exact ih
      | some b => exact ih.cons_cons b

section

variable {options : Options} {budget more : Nat} {tokens : List Token}

/-- The groups do not depend on the budget. -/
theorem groups_budget (options : Options) (budget : Nat) (tokens : List Token) :
    groups { options with maxExtentTokens := budget } tokens = groups options tokens :=
  @groups_congr { options with maxExtentTokens := budget } options rfl rfl tokens

/-- A smaller budget gives the extent of a larger one, or none because the type is too long. -/
theorem Group.extent_cut (h : budget ≤ more) (options : Options) (tokens : List Token) (g : Group) :
    Cut (g.extent { options with maxExtentTokens := budget } tokens)
      (g.extent { options with maxExtentTokens := more } tokens) :=
  find_cut h ..

/-- A smaller budget moves fewer groups, and none that a larger one does not move. -/
theorem movable_sublist_of_le (h : budget ≤ more) :
    (movable { options with maxExtentTokens := budget } tokens).Sublist
      (movable { options with maxExtentTokens := more } tokens) := by
  rw [movable, movable, groups_budget options budget, groups_budget options more]
  refine filterMap_sublist_filterMap (fun g => ?_) _
  rcases g.extent_cut h options tokens with hcut | heq
  · exact .inl (by rw [hcut])
  · exact .inr (by rw [heq])

/-- A smaller budget takes moves out of a plan, and changes no other. -/
theorem Plan.ofTokens_moves_sublist_of_le (h : budget ≤ more) :
    (ofTokens { options with maxExtentTokens := budget } tokens).moves.Sublist
      (ofTokens { options with maxExtentTokens := more } tokens).moves := by
  rw [ofTokens_moves, ofTokens_moves]
  exact (movable_sublist_of_le h).flatMap _

/-- A group that is refused, and not because its type is too long, is refused for the same reason
with a larger budget. -/
theorem refusedGroups_sublist_of_le (h : budget ≤ more) :
    ((refusedGroups { options with maxExtentTokens := budget } tokens).filter
        (·.refusal.code != "extent-too-long")).Sublist
      (refusedGroups { options with maxExtentTokens := more } tokens) := by
  rw [refusedGroups, refusedGroups, groups_budget options budget, groups_budget options more,
    List.filter_filterMap]
  refine filterMap_sublist_filterMap (fun g => ?_) _
  rcases g.extent_cut h options tokens with hcut | heq
  · rw [hcut]
    exact .inl rfl
  · rw [heq]
    cases g.extent { options with maxExtentTokens := more } tokens with
    | ok extent => exact .inl rfl
    | error refusal =>
      dsimp only [Option.filter]
      split
      · exact .inr rfl
      · exact .inl rfl

end

/-- A smaller budget only cuts off. Of any tokens, the same extent is found or the same refusal is
given, or the type is too long. So the moves for a source are among those with the larger budget, in
the same order, and a group that is refused with another code is refused with the same code
there. -/
theorem budget_only_cuts {budget more : Nat} (h : budget ≤ more) :
    (∀ tokens start boundary,
      find budget tokens start boundary = .error .extentTooLong ∨
        find budget tokens start boundary = find more tokens start boundary) ∧
    ∀ (options : Options) (source : List Char),
      (planOf { options with maxExtentTokens := budget } source).moves.Sublist
          (planOf { options with maxExtentTokens := more } source).moves ∧
        ((refusedGroups { options with maxExtentTokens := budget } (tokens source)).filter
            (·.refusal.code != "extent-too-long")).Sublist
          (refusedGroups { options with maxExtentTokens := more } (tokens source)) :=
  ⟨find_cut h, fun _ _ => ⟨Plan.ofTokens_moves_sublist_of_le h, refusedGroups_sublist_of_le h⟩⟩

/-- A budget of three tokens refuses the template arguments and moves the rest. -/
theorem budget_only_cuts_arguments :
    (planOf { maxExtentTokens := 3 } "const A<int> a; const b; const int c;".toList).moves =
      [⟨15, 17, .const⟩] ∧
      [⟨15, 17, .const⟩].Sublist
        (planOf { maxExtentTokens := 256 } "const A<int> a; const b; const int c;".toList).moves ∧
      [⟨⟨[10], 12, 21⟩, .implicitInt⟩].Sublist
        (refusedGroups { maxExtentTokens := 256 }
            (tokens "const A<int> a; const b; const int c;".toList)) := by
  have hmoves : (planOf { maxExtentTokens := 3 }
    "const A<int> a; const b; const int c;".toList).moves =
      [⟨15, 17, .const⟩] := by
    decide +kernel
  have hrefused : (refusedGroups { maxExtentTokens := 3 }
      (tokens "const A<int> a; const b; const int c;".toList)).filter
        (·.refusal.code != "extent-too-long") =
      [⟨⟨[10], 12, 21⟩, .implicitInt⟩] := by
    decide +kernel
  have hcut := (budget_only_cuts (by decide : 3 ≤ 256)).2 {}
    "const A<int> a; const b; const int c;".toList
  rw [← hmoves, ← hrefused]
  exact ⟨rfl, hcut⟩

end EastConst
