import EastConst.Proofs.Group

/-!
# What is asked of the options

The walk and the groups ask which words are configured macros, the groups which qualifiers are to be
moved, and the types how far they may be looked at. Nothing else about the options plays a part in
the groups (`groups_congr`). If other options move fewer qualifiers, the groups are the same with
these qualifiers left out, and those that have none left are no longer there (`groups_keeping`).
-/

namespace EastConst

section

variable {options other : Options}

/-! ## Configured macros -/

theorem isDeclMacro_congr (h : options.declMacros = other.declMacros) :
    options.isDeclMacro = other.isDeclMacro := by
  funext word
  rw [Options.isDeclMacro, Options.isDeclMacro, h]

/-- Of the options, a walk reads only the macros that count as specifiers. -/
theorem Walk.step_options_congr (h : options.declMacros = other.declMacros) :
    Walk.step options = Walk.step other := by
  funext w t
  simp only [Walk.step, Walk.advance, isDeclMacro_congr h]

theorem occurrencesIn_congr (h : Walk.step options = Walk.step other) (boundary : Nat) (w : Walk)
    (index : Nat) (ts : List Token) :
    occurrencesIn options boundary w index ts = occurrencesIn other boundary w index ts := by
  induction ts generalizing w index with
  | nil => rfl
  | cons t ts ih => rw [occurrencesIn, occurrencesIn, ih, h]

theorem Walk.segment_congr (h : Walk.step options = Walk.step other) (w : Walk) (s : Segment) :
    w.segment options s = w.segment other s := by
  cases s with
  | token t => rw [Walk.segment, Walk.segment, h]
  | directive d =>
    rw [Walk.segment, Walk.segment, Walk.directive, Walk.directive]
    cases macroBody? d with
    | none => rfl
    | some body =>
      dsimp only
      rw [Walk.run, Walk.run, h]

/-- The roles of qualifiers depend on the configured macros only. -/
theorem occurrences_congr (h : options.declMacros = other.declMacros) (tokens : List Token) :
    occurrences options tokens = occurrences other tokens := by
  have hstep := Walk.step_options_congr h
  unfold occurrences
  generalize tokens.length - 1 = boundary
  generalize ({} : Walk) = w
  generalize 0 = index
  induction segments tokens generalizing w index with
  | nil => rfl
  | cons s segs ih =>
    rw [occurrencesInSegments_cons, occurrencesInSegments_cons, Walk.segment_congr hstep, ih]
    congr 1
    cases s with
    | token t => exact occurrencesIn_congr hstep _ _ _ _
    | directive d =>
      rw [Segment.occurrences, Segment.occurrences, occurrencesInDirective, occurrencesInDirective]
      cases macroBody? d with
      | none => rfl
      | some body => exact occurrencesIn_congr hstep _ _ _ _

theorem Token.isLeadIn_congr (h : options.declMacros = other.declMacros) (t : Token) :
    t.isLeadIn options = t.isLeadIn other := by
  simp only [Token.isLeadIn, Token.isTypePrefix, isDeclMacro_congr h]

end

/-! ## Groups -/

section

variable {options other : Options}

/-- Of the options, collecting a group reads only the configured macros. -/
theorem Group.collect_congr (hmacros : options.declMacros = other.declMacros)
    (moves : Nat → Qualifier → Bool) (boundary index : Nat) (ts : List Token) :
    collect options moves boundary index ts = collect other moves boundary index ts := by
  induction ts generalizing index with
  | nil => rfl
  | cons t ts ih => rw [collect_cons, collect_cons, Token.isLeadIn_congr hmacros, ih]

theorem Group.groupsFrom_congr {tokens : List Token} {found : List Occurrence}
    (h : ∀ o, ofOccurrence options tokens found o = ofOccurrence other tokens found o) (free : Nat)
    (os : List Occurrence) :
    groupsFrom options tokens found free os = groupsFrom other tokens found free os := by
  induction os generalizing free with
  | nil => rfl
  | cons o os ih =>
    rw [groupsFrom, groupsFrom, h]
    simp only [ih]

/-- The groups depend on the configured macros and on the qualifiers that are to be moved only. -/
theorem groups_congr (hmacros : options.declMacros = other.declMacros)
    (hvolatile : options.relocateVolatile = other.relocateVolatile) (tokens : List Token) :
    groups options tokens = groups other tokens := by
  have hrel : options.relocates = other.relocates := by
    funext q
    cases q with
    | const => rfl
    | volatile => exact hvolatile
  rw [groups, groups, occurrences_congr hmacros]
  apply Group.groupsFrom_congr
  intro o
  rw [Group.ofOccurrence, Group.ofOccurrence, hrel, Group.collect_congr hmacros]

end

/-! ## Qualifiers that are to be moved -/

/-- Whether the token at an index is a qualifier of a kind. -/
def isQualifierOf (keep : Qualifier → Bool) (tokens : List Token) (index : Nat) : Bool :=
  (tokens[index]?.bind Qualifier.ofToken?).any keep

/-- A group without the qualifiers that are not of a kind. -/
def Group.keeping (keep : Qualifier → Bool) (tokens : List Token) (g : Group) : Group :=
  { g with members := g.members.filter (isQualifierOf keep tokens) }

section

variable {options other : Options} {keep : Qualifier → Bool} {tokens : List Token}

/-- Where fewer qualifiers are to be moved, the type still starts at the same token. -/
theorem Group.collect_keeping (hmacros : other.declMacros = options.declMacros)
    {moves moves' : Nat → Qualifier → Bool} (hmoves : ∀ i q, moves' i q = (moves i q && keep q))
    (boundary : Nat) {index : Nat} {ts : List Token} (hts : tokens.drop index = ts) :
    collect other moves' boundary index ts =
      ((collect options moves boundary index ts).1.filter (isQualifierOf keep tokens),
        (collect options moves boundary index ts).2) := by
  induction ts generalizing index with
  | nil => rfl
  | cons t rest ih =>
    have ht : tokens[index]? = some t := by
      rw [← List.head?_drop, hts]
      rfl
    have hrest : tokens.drop (index + 1) = rest := by
      rw [← List.tail_drop, hts]
      rfl
    rw [collect_cons, collect_cons, Token.isLeadIn_congr hmacros]
    split
    · rfl
    · split
      · rw [ih hrest]
        dsimp only
        have hfirst : isQualifierOf keep tokens index = (Qualifier.ofToken? t).any keep := by
          rw [isQualifierOf, ht]
          rfl
        cases hq : Qualifier.ofToken? t with
        | none => rfl
        | some q =>
          rw [hq] at hfirst
          simp only [Option.any_some, hmoves] at hfirst ⊢
          by_cases hm : moves index q = true
          · by_cases hk : keep q = true <;> simp [hfirst, hm, hk]
          · simp [hm]
      · rfl

/-- If fewer qualifiers are to be moved, a group keeps its type and loses members. -/
theorem Group.ofOccurrence_keeping (hmacros : other.declMacros = options.declMacros)
    (hrel : ∀ q, other.relocates q = (options.relocates q && keep q)) (found : List Occurrence)
    (o : Occurrence) :
    ofOccurrence other tokens found o =
      (ofOccurrence options tokens found o).keeping keep tokens := by
  have hmoves : ∀ i q, (isLeading found i && other.relocates q) =
      (isLeading found i && options.relocates q && keep q) := by
    intro i q
    rw [hrel, Bool.and_assoc]
  rw [ofOccurrence, ofOccurrence]
  dsimp only
  rw [collect_keeping hmacros hmoves o.boundary rfl]
  rfl

/-- If fewer qualifiers are to be moved, the groups are the same up to members, without those that
are empty. -/
theorem Group.groupsFrom_keeping (hmacros : other.declMacros = options.declMacros)
    (hrel : ∀ q, other.relocates q = (options.relocates q && keep q))
    (found : List Occurrence) (free : Nat) (os : List Occurrence) :
    groupsFrom other tokens found free os =
      ((groupsFrom options tokens found free os).map (·.keeping keep tokens)).filter
        fun g => !g.members.isEmpty := by
  induction os generalizing free with
  | nil => rfl
  | cons o os ih =>
    rw [groupsFrom, groupsFrom]
    split
    · dsimp only
      rw [ofOccurrence_keeping hmacros hrel, ih]
      generalize ofOccurrence options tokens found o = g
      cases hmembers : g.members with
      | nil =>
        have hkept : (g.keeping keep tokens).members = [] := by
          rw [keeping, hmembers]
          rfl
        rw [hkept]
        rfl
      | cons m ms =>
        have hsome : ¬ (m :: ms).isEmpty = true := by simp
        rw [if_neg hsome, List.map_cons, List.filter_cons]
        cases (g.keeping keep tokens).members <;> rfl
    · exact ih free

/-- Where fewer qualifiers are to be moved, these are left out of their groups. -/
theorem groups_keeping (hmacros : other.declMacros = options.declMacros)
    (hrel : ∀ q, other.relocates q = (options.relocates q && keep q)) :
    groups other tokens =
      ((groups options tokens).map (·.keeping keep tokens)).filter fun g => !g.members.isEmpty := by
  rw [groups, groups, occurrences_congr hmacros]
  exact Group.groupsFrom_keeping hmacros hrel _ _ _

end

end EastConst
