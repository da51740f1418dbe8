import EastConst.Proofs.TypeExtent
import EastConst.Proofs.TypeExtent.Grammar

/-!
# Types are read greedily

A type that tokens start with is taken as far as it goes on (`Continues`): a run of fundamental
words over all such words, a name over template arguments right behind an identifier and over `::`
with a component.

What the reading of a name takes of the budget is known (`name?_of_completes`, `name?_of_stops`), so
the result for a type that does not go on is an equation (`scan_append`). And nothing else is found
(`exists_spans_of_scan`).
-/

namespace EastConst.TypeExtent

/-! ## Types that go on -/

/-- Whether a name with a given last token goes on: with template arguments behind an identifier, or
with `::` and a component. -/
def NameContinues (last : Token) (after : List Token) : Prop :=
  (last.kind = .identifier ∧ ∃ t ∈ after.head?, t.isMark .less = true) ∨
    ∃ s ts, s :: ts <+: after ∧ s.isMark .scope = true ∧ IsComponent ts

/-- Whether a type goes on with the tokens behind it. -/
def Continues : List Token → List Token → Prop
  | [], _ => False
  | t :: ts, after =>
    match Form.of t with
    | .elaborated | .name => ∃ last ∈ (t :: ts).getLast?, NameContinues last after
    | .fundamental => ∃ u ∈ after.head?, u.isBuiltinType = true
    | .decltype => False

/-- Whether tokens are a lone identifier, behind the word `template` or not. -/
def isLone : List Token → Bool
  | [t] => t.kind == .identifier
  | [word, t] => word.isKeyword "template" && t.kind == .identifier
  | _ => false

/-- Whether a name is a lone identifier in the place of a variable, with `=` or `;` behind it. -/
def lacksType (ts after : List Token) : Bool :=
  ts.head?.any (Form.of · == .name) && isLone ts && after.head?.any fun t =>
    t.isMark .equals || t.isMark .semicolon

/-- How many tokens behind a name that does not go on are read to know that: `::`, the word
`template` behind it, and one token more. -/
def readInVain (after : List Token) : Nat :=
  if after.head?.any (·.isMark .scope) then
    min after.length (if after[1]?.any (·.isKeyword "template") then 3 else 2)
  else 0

/-- How much of the budget a type takes that does not go on. -/
def spent : List Token → List Token → Nat
  | [], _ => 0
  | t :: ts, after =>
    match Form.of t with
    | .elaborated | .name => (t :: ts).length + readInVain after
    | .fundamental => 1
    | .decltype => (t :: ts).length

/-- Whether tokens are a type of an extent and do not go on with those behind them. -/
structure Spans (extent : TypeExtent) (phrase after : List (Token × Nat)) : Prop where
  first : phrase.head?.map Prod.snd = some extent.first
  last : phrase.getLast?.map Prod.snd = some extent.last
  type : IsType (phrase.map Prod.fst)
  greedy : ¬ Continues (phrase.map Prod.fst) (after.map Prod.fst)

section

variable {last t s : Token} {ts after : List Token}

/-- Whether tokens start with a component of a name. -/
def startsComponent : List Token → Bool
  | [] => false
  | t :: ts => t.kind == .identifier || t.isKeyword "template" &&
    ts.head?.any (·.kind == .identifier)

/-- Tokens start a component exactly if one of their beginnings is a component. -/
theorem startsComponent_iff : startsComponent ts = true ↔ ∃ us, us <+: ts ∧ IsComponent us := by
  constructor
  · intro h
    cases ts with
    | nil => cases h
    | cons t ts =>
      simp only [startsComponent, Bool.or_eq_true, beq_iff_eq, Bool.and_eq_true] at h
      rcases h with h | ⟨ht, hu⟩
      · exact ⟨[] ++ [t], ⟨ts, rfl⟩, .intro (.inl rfl) h (.inl rfl)⟩
      · obtain ⟨u, hu, hk⟩ := (Option.any_eq_true _ _).1 hu
        obtain ⟨us, rfl⟩ := List.head?_eq_some_iff.1 hu
        exact ⟨[t] ++ [u], ⟨us, rfl⟩, .intro (.inr ⟨t, rfl, ht⟩) (beq_iff_eq.1 hk) (.inl rfl)⟩
  · rintro ⟨us, ⟨rest, rfl⟩, h⟩
    cases h with
    | intro hword ht _ =>
      rcases hword with rfl | ⟨u, rfl, hu⟩
      · simp [startsComponent, ht]
      · simp [startsComponent, hu, ht]

theorem not_nameContinues_nil (last : Token) : ¬ NameContinues last [] := by
  rintro (⟨-, t, ht, -⟩ | ⟨s, ts, hpre, -⟩)
  · cases ht
  · cases List.prefix_nil.1 hpre

theorem nameContinues_scope (hs : s.isMark .scope = true) :
    NameContinues last (s :: after) ↔ startsComponent after = true := by
  rw [startsComponent_iff]
  constructor
  · rintro (⟨-, t, ht, hless⟩ | ⟨u, ts, hpre, -, hts⟩)
    · obtain rfl := Option.some.inj ht
      simp only [Token.isMark, beq_iff_eq] at hs hless
      rw [hs] at hless
      cases hless
    · exact ⟨ts, (List.cons_prefix_cons.1 hpre).2, hts⟩
  · rintro ⟨ts, hpre, hts⟩
    exact .inr ⟨s, ts, List.cons_prefix_cons.2 ⟨rfl, hpre⟩, hs, hts⟩

theorem nameContinues_cons (ht : t.isMark .scope = false) :
    NameContinues last (t :: after) ↔ last.kind = .identifier ∧ t.isMark .less = true := by
  constructor
  · rintro (⟨hlast, u, hu, hless⟩ | ⟨s, ts, hpre, hs, -⟩)
    · obtain rfl := Option.some.inj hu
      exact ⟨hlast, hless⟩
    · rw [(List.cons_prefix_cons.1 hpre).1, ht] at hs
      cases hs
  · exact fun h => .inl ⟨h.1, t, rfl, h.2⟩

theorem spent_le (ts after : List Token) : spent ts after ≤ (ts ++ after).length := by
  cases ts with
  | nil => exact Nat.zero_le _
  | cons t ts =>
    have hvain : readInVain after ≤ after.length := by
      unfold readInVain
      split
      · exact Nat.min_le_left _ _
      · exact Nat.zero_le _
    rw [spent, List.length_append]
    split <;> simp only [List.length_cons] <;> omega

theorem spent_pos (t : Token) (ts after : List Token) : 0 < spent (t :: ts) after := by
  rw [spent]
  split
  · exact Nat.add_pos_left (Nat.succ_pos _) _
  · exact Nat.add_pos_left (Nat.succ_pos _) _
  · exact Nat.one_pos
  · exact Nat.succ_pos _

end

/-! ## Where a name stops -/

/-- Whether the reading of a name stands where the components before it are all of the name. -/
def NameState.Halts : NameState → List Token → Prop
  | .start, _ => True
  | .component, ts => startsComponent ts = false
  | .templated, ts => ∀ t ∈ ts.head?, t.kind ≠ .identifier
  | .identifier, ts => ∀ last : Token, last.kind = .identifier → ¬ NameContinues last ts
  | .arguments _, _ => False
  | .argued, ts => ∀ last : Token, last.kind ≠ .identifier → ¬ NameContinues last ts

/-- Tokens complete a name up to an index, and it does not go on there. -/
def StopsAt (state : NameState) (i : Nat) (sig : List (Token × Nat)) : Prop :=
  ∃ init t rest, sig = init ++ (t, i) :: rest ∧ Completes state (init.map Prod.fst ++ [t]) ∧
    ¬ NameContinues t (rest.map Prod.fst)

section

variable {state state' : NameState} {t : Token} {i j : Nat} {sig : List (Token × Nat)}

theorem StopsAt.cons (ht : state.Reads t state') (h : StopsAt state' i sig) :
    StopsAt state i ((t, j) :: sig) := by
  obtain ⟨init, u, rest, rfl, hu, hstop⟩ := h
  exact ⟨(t, j) :: init, u, rest, rfl, .step ht hu, hstop⟩

/-- A name stops at a token that completes it and behind which no name goes on. -/
theorem StopsAt.here (ht : state.Reads t state') (hend : Completes state' [])
    (h : ¬ NameContinues t (sig.map Prod.fst)) : StopsAt state i ((t, i) :: sig) :=
  ⟨[], t, sig, rfl, .step ht hend, h⟩

end

theorem kind_ne_of_closed {d : Depths} {t : Token} (h : d.after t = .closed) :
    t.kind ≠ .identifier := by
  obtain ⟨-, -, ⟨hm, -⟩ | ⟨hm, -⟩⟩ := Depths.after_eq_closed h <;>
  · intro hk
    simp [Token.mark?, hk] at hm

theorem NameState.halts_cons_template {state : NameState} {t : Token} {ts : List Token}
    (hs : state = .start ∨ state = .component) (ht : t.isKeyword "template" = true)
    (h : ∀ u ∈ ts.head?, u.kind ≠ .identifier) : state.Halts (t :: ts) := by
  rcases hs with rfl | rfl
  · trivial
  · have hk : t.kind = .keyword := beq_iff_eq.1 (Bool.and_eq_true_iff.1 ht).1
    change startsComponent (t :: ts) = false
    rw [startsComponent, hk]
    cases ts with
    | nil => simp
    | cons u ts => simp [h u rfl]

theorem NameState.halts_cons {state : NameState} {t : Token} (ts : List Token)
    (hs : state = .start ∨ state = .component ∨ state = .templated)
    (htemplate : ¬ (state ≠ .templated ∧ t.isKeyword "template" = true))
    (hid : t.kind ≠ .identifier) :
    state.Halts (t :: ts) := by
  rcases hs with rfl | rfl | rfl
  · trivial
  · have hword : t.isKeyword "template" = false := by simpa using htemplate
    simp [Halts, startsComponent, hid, hword]
  · intro u hu
    obtain rfl := Option.some.inj hu
    exact hid

/-- A name is what the components before it were, and nothing goes on with them, or tokens complete
it and it does not go on there. -/
theorem name?_stopsAt {budget : Nat} {state : NameState} {last? : Option Nat} {simple : Bool}
    {sig : List (Token × Nat)} {name : Name}
    (h : name? budget state last? simple sig = .ok (some name)) :
    last? = some name.last ∧ state.Halts (sig.map Prod.fst) ∨ StopsAt state name.last sig := by
  have hmap {last? : Option Nat} {f : Nat → Name} (hf : ∀ n, (f n).last = n)
      (h : (.ok (last?.map f) : Except Refusal _) = .ok (some name)) : last? = some name.last := by
    obtain ⟨n, hn, rfl⟩ := Option.map_eq_some_iff.1 (Except.ok.inj h)
    rw [hf, hn]
  fun_induction name? budget state last? simple sig
  case case1 | case7 | case9 | case12 | case15 | case18 => cases h
  case case2 => exact .inl ⟨hmap (fun _ => rfl) h, trivial⟩
  case case3 => exact .inl ⟨hmap (fun _ => rfl) h, rfl⟩
  case case4 => exact .inl ⟨hmap (fun _ => rfl) h, fun t ht => by cases ht⟩
  case case5 | case6 => exact .inl ⟨hmap (fun _ => rfl) h, fun last _ => not_nameContinues_nil last⟩
  case case8 ht _ ih => exact .inr (((ih h).resolve_left And.right).cons (.less ht))
  case case10 ht _ ih =>
    rcases ih h with ⟨hlast, hhalt⟩ | hstop
    · refine .inl ⟨hlast, fun last _ => ?_⟩
      rw [List.map_cons, nameContinues_scope ht, hhalt]
      simp
    · exact .inr (hstop.cons (.scope (.inl rfl) ht))
  case case11 hless hscope =>
    refine .inl ⟨hmap (fun _ => rfl) h, fun last _ => ?_⟩
    rw [List.map_cons, nameContinues_cons (Bool.eq_false_iff.2 hscope)]
    exact fun hcontinues => hless hcontinues.2
  case case13 ht _ ih =>
    rcases ih h with ⟨hlast, hhalt⟩ | hstop
    · refine .inl ⟨hlast, fun last _ => ?_⟩
      rw [List.map_cons, nameContinues_scope ht, hhalt]
      simp
    · exact .inr (hstop.cons (.scope (.inr rfl) ht))
  case case14 hscope =>
    refine .inl ⟨hmap (fun _ => rfl) h, fun last hlast => ?_⟩
    rw [List.map_cons, nameContinues_cons (Bool.eq_false_iff.2 hscope)]
    exact fun hcontinues => hlast hcontinues.1
  case case16 hd ih => exact .inr (((ih h).resolve_left And.right).cons (.more hd))
  case case17 hd ih =>
    right
    rcases ih h with ⟨hlast, hhalt⟩ | hstop
    · obtain rfl := Option.some.inj hlast
      exact .here (.closed hd) .argued (hhalt _ (kind_ne_of_closed hd))
    · exact hstop.cons (.closed hd)
  case case19 hc ih =>
    obtain ⟨rfl, ht⟩ := hc
    rcases ih h with ⟨hlast, -⟩ | hstop
    · exact .inl ⟨hlast, trivial⟩
    · exact .inr (hstop.cons (.global ht))
  case case20 state _ _ _ _ _ hid harg hargs _ hc ih =>
    have hstate : state = .start ∨ state = .component := by cases state <;> simp_all
    rcases ih h with ⟨hlast, hhalt⟩ | hstop
    · exact .inl ⟨hlast, NameState.halts_cons_template hstate hc.2 hhalt⟩
    · exact .inr (hstop.cons (.template hstate hc.2))
  case case21 state _ _ _ _ _ hid harg hargs _ _ ht ih =>
    have hstate : state = .start ∨ state = .component ∨ state = .templated := by
      cases state <;> simp_all
    right
    rcases ih h with ⟨hlast, hhalt⟩ | hstop
    · obtain rfl := Option.some.inj hlast
      exact .here (.identifier hstate ht) .identifier (hhalt _ ht)
    · exact hstop.cons (.identifier hstate ht)
  case case22 state _ _ _ _ _ hid harg hargs _ htemplate ht =>
    have hstate : state = .start ∨ state = .component ∨ state = .templated := by
      cases state <;> simp_all
    exact .inl ⟨hmap (fun _ => rfl) h, NameState.halts_cons _ hstate htemplate ht⟩

/-! ## What the reading of a name takes -/

/-- Whether a name may end in a state. -/
def NameState.ends : NameState → Bool
  | .identifier | .argued => true
  | _ => false

section

variable {state state' : NameState} {t : Token} {i budget : Nat} {last? : Option Nat}
  {simple : Bool} {rest : List (Token × Nat)}

theorem name?_zero_of_reads (h : state.Reads t state') :
    name? 0 state last? simple ((t, i) :: rest) = .error .extentTooLong := by
  cases h with
  | global ht => rfl
  | template hs ht => rcases hs with rfl | rfl <;> rfl
  | identifier hs ht => rcases hs with rfl | rfl | rfl <;> rfl
  | scope hs ht => rcases hs with rfl | rfl <;> simp [name?, ht]
  | less ht => simp [name?, ht]
  | more hd => rfl
  | closed hd => rfl

theorem isWord_of_isMark {m : Mark} (h : t.isMark m = true) : t.isWord = false := by
  rw [Token.isMark, beq_iff_eq, Token.mark?] at h
  split at h
  · rename_i hk
    simp [Token.isWord, hk]
  · cases h

theorem not_less_of_scope (h : t.isMark .scope = true) : t.isMark .less = false := by
  rw [Token.isMark, beq_iff_eq] at h
  simp [Token.isMark, h]

theorem not_scope_of_isWord (h : t.isWord = true) : t.isMark .scope = false := by
  cases hs : t.isMark .scope with
  | false => rfl
  | true => rw [isWord_of_isMark hs] at h; cases h

/-- The step lemma: a token of a name takes one unit of the budget. -/
theorem name?_succ_of_reads (h : state.Reads t state')
    (hs : ∀ d, state = .arguments d → simple = false) :
    name? (budget + 1) state last? simple ((t, i) :: rest) =
      name? budget state' (if state'.ends then some i else last?) (simple && t.isWord) rest := by
  cases h with
  | global ht => simp [name?, ht, isWord_of_isMark ht, NameState.ends]
  | template hs ht =>
    have hk : t.kind = .keyword := beq_iff_eq.1 (Bool.and_eq_true_iff.1 ht).1
    have hword : t.isWord = true := by simp [Token.isWord, hk]
    rcases hs with rfl | rfl <;> simp [name?, ht, hword, not_scope_of_isWord hword, NameState.ends]
  | identifier hs ht =>
    have hword : t.isWord = true := by simp [Token.isWord, ht]
    have hkeyword : t.isKeyword "template" = false := by simp [Token.isKeyword, ht]
    rcases hs with rfl | rfl | rfl <;>
      simp [name?, ht, hkeyword, hword, not_scope_of_isWord hword, NameState.ends]
  | scope hs ht =>
    rcases hs with rfl | rfl <;>
      simp [name?, ht, not_less_of_scope ht, isWord_of_isMark ht, NameState.ends]
  | less ht => simp [name?, ht, isWord_of_isMark ht, NameState.ends]
  | more hd => simp [name?, hd, hs _ rfl, NameState.ends]
  | closed hd => simp [name?, hd, hs _ rfl, NameState.ends]

/-- A name with template arguments is not simple. -/
theorem NameState.Reads.simple_eq_false (h : state.Reads t state')
    (hs : ∀ d, state = .arguments d → simple = false) :
    ∀ d, state' = .arguments d → (simple && t.isWord) = false := by
  rintro d rfl
  cases h with
  | less ht => rw [isWord_of_isMark ht, Bool.and_false]
  | more hd => rw [hs _ rfl, Bool.false_and]

/-- The state of a name behind its last token. -/
def NameState.behind (last : Token) : NameState :=
  if last.kind = .identifier then .identifier else .argued

/-- The state behind a complete name is known from its last token. -/
theorem NameState.Reads.eq_behind (h : state.Reads t state') (hend : Completes state' []) :
    state' = .behind t ∧ state'.ends = true := by
  cases hend with
  | identifier =>
    cases h with
    | identifier _ ht => exact ⟨by rw [NameState.behind, if_pos ht], rfl⟩
  | argued =>
    cases h with
    | closed hd => exact ⟨by rw [NameState.behind, if_neg (kind_ne_of_closed hd)], rfl⟩

/-- The run lemma: the tokens of a name take one unit of the budget each. -/
theorem name?_of_completes {init : List (Token × Nat)}
    (h : Completes state (init.map Prod.fst ++ [t]))
    (hs : ∀ d, state = .arguments d → simple = false) :
    name? budget state last? simple (init ++ (t, i) :: rest) =
      if budget < init.length + 1 then .error .extentTooLong
      else name? (budget - (init.length + 1)) (.behind t) (some i)
        (simple && (init.map Prod.fst ++ [t]).all Token.isWord) rest := by
  induction init generalizing state budget last? simple with
  | nil =>
    cases h with
    | step ht hend =>
      obtain ⟨hstate, hends⟩ := ht.eq_behind hend
      cases budget with
      | zero => exact name?_zero_of_reads ht
      | succ budget =>
        rw [List.nil_append, name?_succ_of_reads ht hs, hends, hstate]
        simp
  | cons e init ih =>
    obtain ⟨u, j⟩ := e
    cases h with
    | step hu hrest =>
      cases budget with
      | zero => exact name?_zero_of_reads hu
      | succ budget =>
        rw [List.cons_append, name?_succ_of_reads hu hs, ih hrest (hu.simple_eq_false hs)]
        simp [Bool.and_assoc]

theorem impliesInt_cons_of_scope (ht : t.isMark .scope = true) :
    impliesInt ((t, i) :: rest) = false := by
  rw [Token.isMark, beq_iff_eq] at ht
  simp [impliesInt, Token.isMark, ht]

/-- Where no component follows `::`, the name has ended before it. -/
theorem name?_component_of_halts (i budget : Nat)
    (h : startsComponent (rest.map Prod.fst) = false) :
    ∃ name : Name, name.last = i ∧ name.simple = false ∧
      name? budget .component (some i) false rest =
        if budget < min rest.length
            (if (rest.map Prod.fst).head?.any (·.isKeyword "template") then 2 else 1) then
          .error .extentTooLong
        else .ok (some name) := by
  cases rest with
  | nil => exact ⟨⟨i, false, []⟩, rfl, rfl, by cases budget <;> rfl⟩
  | cons e rest =>
    obtain ⟨u, j⟩ := e
    simp only [List.map_cons, startsComponent, Bool.or_eq_false_iff, beq_eq_false_iff_ne] at h
    obtain ⟨hid, hword⟩ := h
    cases htemplate : u.isKeyword "template" with
    | false =>
      refine ⟨⟨i, false, rest⟩, rfl, rfl, ?_⟩
      cases budget with
      | zero => simp [name?, htemplate]
      | succ budget => simp [name?, htemplate, hid]
    | true =>
      rw [htemplate, Bool.true_and] at hword
      cases rest with
      | nil =>
        refine ⟨⟨i, false, []⟩, rfl, rfl, ?_⟩
        cases budget with
        | zero => simp [name?, htemplate]
        | succ budget => simp [name?, htemplate]
      | cons e rest =>
        obtain ⟨v, k⟩ := e
        refine ⟨⟨i, false, rest⟩, rfl, rfl, ?_⟩
        have hv : v.kind ≠ .identifier := by simpa using hword
        cases budget with
        | zero => simp [name?, htemplate]
        | succ budget =>
          cases budget with
          | zero => simp [name?, htemplate]
          | succ budget => simp [name?, htemplate, hv]

theorem readInVain_cons_of_scope (ht : t.isMark .scope = true) (ts : List Token) :
    readInVain (t :: ts) =
      min ts.length (if ts.head?.any (·.isKeyword "template") then 2 else 1) + 1 := by
  rw [readInVain, List.head?_cons, Option.any_some, if_pos ht, List.length_cons,
    List.getElem?_cons_succ, ← List.head?_eq_getElem?]
  split <;> omega

/-- Where a name does not go on, it ends. -/
theorem name?_of_stops (i budget : Nat) (simple : Bool)
    (h : ¬ NameContinues t (rest.map Prod.fst)) :
    ∃ name : Name, name.last = i ∧
      (name.simple && impliesInt name.rest) = (simple && impliesInt rest) ∧
      name? budget (.behind t) (some i) simple rest =
        if budget < readInVain (rest.map Prod.fst) then
          .error .extentTooLong else .ok (some name) := by
  have hbehind : NameState.behind t = .identifier ∧ t.kind = .identifier ∨
      NameState.behind t = .argued := by
    unfold NameState.behind
    split
    · exact .inl ⟨rfl, ‹_›⟩
    · exact .inr rfl
  cases rest with
  | nil =>
    refine ⟨⟨i, simple, []⟩, rfl, rfl, ?_⟩
    rcases hbehind with ⟨hstate, -⟩ | hstate <;> rw [hstate] <;> cases budget <;> rfl
  | cons e rest =>
    obtain ⟨u, j⟩ := e
    rw [List.map_cons] at h ⊢
    cases hscope : u.isMark .scope with
    | false =>
      have hvain : readInVain (u :: rest.map Prod.fst) = 0 := by simp [readInVain, hscope]
      rw [nameContinues_cons hscope] at h
      refine ⟨⟨i, simple, (u, j) :: rest⟩, rfl, rfl, ?_⟩
      rw [hvain, if_neg (Nat.not_lt_zero _)]
      rcases hbehind with ⟨hstate, hid⟩ | hstate
      · have hless : u.isMark .less = false := Bool.eq_false_iff.2 fun hless => h ⟨hid, hless⟩
        rw [hstate]
        cases budget <;> simp [name?, hless, hscope]
      · rw [hstate]
        cases budget <;> simp [name?, hscope]
    | true =>
      rw [nameContinues_scope hscope, Bool.not_eq_true] at h
      rw [readInVain_cons_of_scope hscope]
      cases budget with
      | zero =>
        refine ⟨⟨i, false, []⟩, rfl, by rw [impliesInt_cons_of_scope hscope]; simp, ?_⟩
        rcases hbehind with ⟨hstate, -⟩ | hstate <;> rw [hstate, name?] <;>
          simp [hscope, not_less_of_scope hscope]
      | succ budget =>
        obtain ⟨name, hlast, hsimple, hname⟩ := name?_component_of_halts i budget h
        refine ⟨name, hlast, by rw [hsimple, impliesInt_cons_of_scope hscope]; simp, ?_⟩
        have hstep : name? (budget + 1) (.behind t) (some i) simple ((u, j) :: rest) =
            name? budget .component (some i) false rest := by
          rcases hbehind with ⟨hstate, -⟩ | hstate <;> rw [hstate, name?] <;>
            simp [hscope, not_less_of_scope hscope]
        rw [hstep, hname]
        simp only [Nat.add_lt_add_iff_right, List.length_map]

end

/-! ## What is found of a type that does not go on -/

section

variable {t : Token} {i last budget : Nat} {init phrase after : List (Token × Nat)}
  {ts : List Token}

/-- A lone name consists of words. -/
theorem all_isWord_of_isLone (h : isLone ts = true) : ts.all Token.isWord = true := by
  unfold isLone at h
  split at h
  · simp_all [Token.isWord]
  · simp_all [Token.isWord, Token.isKeyword]
  · cases h

theorem IsComponent.isLone (h : IsComponent ts) (hwords : ts.all Token.isWord = true) :
    isLone ts = true := by
  cases h with
  | intro hword ht hargs =>
    rcases hargs with rfl | hargs
    · rcases hword with rfl | ⟨u, rfl, hu⟩
      · simp [TypeExtent.isLone, ht]
      · simp [TypeExtent.isLone, ht, hu]
    · obtain ⟨u, hu, hless⟩ := hargs.angles.first
      have hmem := List.mem_of_head? hu
      rw [List.all_eq_true] at hwords
      have hcontra := hwords u (by simp [hmem])
      rw [isWord_of_isMark hless] at hcontra
      cases hcontra

/-- A name of words only is a lone identifier. -/
theorem IsName.all_isWord_eq (h : IsName ts) : ts.all Token.isWord = isLone ts := by
  rw [Bool.eq_iff_iff]
  refine ⟨fun hwords => ?_, all_isWord_of_isLone⟩
  have hmark {s : Token} (hs : s.isMark .scope = true) (hmem : s ∈ ts) : False := by
    have hcontra := List.all_eq_true.1 hwords s hmem
    rw [isWord_of_isMark hs] at hcontra
    cases hcontra
  cases h with
  | relative h =>
    cases h with
    | single h => exact h.isLone hwords
    | cons _ hs _ => exact (hmark hs (by simp)).elim
  | global hs _ => exact (hmark hs List.mem_cons_self).elim

theorem impliesInt_eq (after : List (Token × Nat)) :
    impliesInt after = (after.map Prod.fst).head?.any fun t =>
      t.isMark .equals || t.isMark .semicolon := by
  cases after <;> rfl

/-- A name that does not go on is read to its end. -/
theorem name?_of_isName (i budget : Nat) (h : IsName (init.map Prod.fst ++ [t]))
    (hstop : ¬ NameContinues t (after.map Prod.fst)) :
    ∃ name : Name, name.last = i ∧
      (name.simple && impliesInt name.rest) =
        (isLone (init.map Prod.fst ++ [t]) && impliesInt after) ∧
      name? budget .start none true (init ++ (t, i) :: after) =
        if budget < init.length + 1 + readInVain (after.map Prod.fst) then .error .extentTooLong
        else .ok (some name) := by
  obtain ⟨name, hlast, hint, hname⟩ := name?_of_stops i (budget - (init.length + 1))
    (true && (init.map Prod.fst ++ [t]).all Token.isWord) hstop
  refine ⟨name, hlast, by rw [hint, Bool.true_and, h.all_isWord_eq], ?_⟩
  rw [name?_of_completes (completes_start_iff.2 h) (by simp), hname]
  by_cases hbudget : budget < init.length + 1
  · rw [if_pos hbudget, if_pos (by omega)]
  · rw [if_neg hbudget]
    by_cases hvain : budget - (init.length + 1) < readInVain (after.map Prod.fst)
    · rw [if_pos hvain, if_pos (by omega)]
    · rw [if_neg hvain, if_neg (by omega)]

theorem builtinRun_append (hrun : ∀ e ∈ phrase, e.1.isBuiltinType = true)
    (hstop : ∀ u ∈ (after.map Prod.fst).head?, u.isBuiltinType = false)
    (hlast : (((t, i) :: phrase).getLast?.map Prod.snd) = some last) :
    builtinRun i (phrase ++ after) = last := by
  induction phrase generalizing t i with
  | nil =>
    obtain rfl := Option.some.inj hlast
    cases after with
    | nil => rfl
    | cons e after => rw [List.nil_append, builtinRun, hstop e.1 rfl]; rfl
  | cons e phrase ih =>
    obtain ⟨u, j⟩ := e
    rw [List.getLast?_cons_cons] at hlast
    rw [List.cons_append, builtinRun, if_pos (hrun (u, j) List.mem_cons_self)]
    exact ih (fun e he => hrun e (List.mem_cons_of_mem _ he)) hlast

theorem operandEnd_of_on {depth : Nat} {e : Enclosure} {rest : List (Token × Nat)}
    (h : (Enclosure.operand depth).after t = .on e) :
    operandEnd (budget + 1) depth ((t, i) :: rest) =
      operandEnd budget (Enclosure.parensAfter depth t) rest := by
  rw [operandEnd]
  unfold Enclosure.after at h
  unfold Enclosure.parensAfter
  grind

theorem operandEnd_of_closed {depth : Nat} {rest : List (Token × Nat)}
    (h : (Enclosure.operand depth).after t = .closed) :
    operandEnd (budget + 1) depth ((t, i) :: rest) = .ok i := by
  rw [operandEnd]
  unfold Enclosure.after at h
  grind

/-- The tokens of an operand take one unit of the budget each. -/
theorem operandEnd_append {depth : Nat}
    (h : (Enclosure.operand depth).rest? (phrase.map Prod.fst) = some [])
    (hlast : phrase.getLast?.map Prod.snd = some last) :
    operandEnd budget depth (phrase ++ after) =
      if budget < phrase.length then .error .extentTooLong else .ok last := by
  induction phrase generalizing budget depth with
  | nil => cases h
  | cons e phrase ih =>
    obtain ⟨u, j⟩ := e
    rw [List.map_cons] at h
    cases budget with
    | zero => rfl
    | succ budget =>
      rw [List.cons_append, List.length_cons]
      cases hstep : (Enclosure.operand depth).after u with
      | on e =>
        rw [Enclosure.rest?_of_on hstep, Enclosure.after_operand_of_on hstep] at h
        cases phrase with
        | nil => cases h
        | cons e phrase =>
          rw [List.getLast?_cons_cons] at hlast
          rw [operandEnd_of_on hstep, ih h hlast]
          simp only [Nat.add_lt_add_iff_right]
      | closed =>
        rw [Enclosure.rest?_of_closed hstep, Option.some.injEq, List.map_eq_nil_iff] at h
        subst h
        obtain rfl := Option.some.inj hlast
        rw [operandEnd_of_closed hstep]
        simp
      | refused =>
        rw [Enclosure.rest?_of_refused hstep] at h
        cases h

/-! ## Types by their forms -/

theorem scan_of_elaborated (h : Form.of t = .elaborated) (sig : List (Token × Nat)) :
    scan (budget + 1) ((t, i) :: sig) = ofName i (name? budget .start none true sig) := by
  unfold Form.of at h
  rw [scan]
  grind

theorem scan_of_fundamental (h : Form.of t = .fundamental) (sig : List (Token × Nat)) :
    scan (budget + 1) ((t, i) :: sig) = .ok ⟨i, builtinRun i sig⟩ := by
  unfold Form.of at h
  rw [scan]
  grind

theorem scan_of_decltype (h : Form.of t = .decltype) (sig : List (Token × Nat)) :
    scan (budget + 1) ((t, i) :: sig) = ofDecltype i budget sig := by
  unfold Form.of at h
  rw [scan]
  grind

theorem scan_of_name (h : Form.of t = .name) (sig : List (Token × Nat)) :
    scan (budget + 1) ((t, i) :: sig) =
      ofPlainName i (name? (budget + 1) .start none true ((t, i) :: sig)) := by
  unfold Form.of at h
  rw [scan]
  grind

theorem lacksType_cons_of_ne (h : Form.of t ≠ .name) (ts after : List Token) :
    lacksType (t :: ts) after = false := by
  simp [lacksType, h]

theorem Form.isBuiltinType_of_fundamental (h : Form.of t = .fundamental) :
    t.isBuiltinType = true := by
  unfold Form.of at h
  grind

theorem exists_concat {α : Type} {ps : List (α × Nat)} (h : ps.getLast?.map Prod.snd = some last) :
    ∃ init a, ps = init ++ [(a, last)] := by
  obtain ⟨⟨a, j⟩, he, rfl⟩ := Option.map_eq_some_iff.1 h
  obtain ⟨init, rfl⟩ := List.getLast?_eq_some_iff.1 he
  exact ⟨init, a, rfl⟩

theorem IsName.ne_nil (h : IsName ts) : ts ≠ [] := by
  rintro rfl
  cases completes_start_iff.2 h

theorem scan_append_elaborated (hform : Form.of t = .elaborated)
    (hlast : ((t, i) :: phrase).getLast?.map Prod.snd = some last)
    (h : IsType (t :: phrase.map Prod.fst))
    (hstop : ¬ Continues (t :: phrase.map Prod.fst) (after.map Prod.fst)) :
    scan (budget + 1) ((t, i) :: (phrase ++ after)) =
      if budget + 1 < spent (t :: phrase.map Prod.fst) (after.map Prod.fst) then
        .error .extentTooLong
      else .ok ⟨i, last⟩ := by
  simp only [IsType, Continues, hform] at h hstop
  have hne : phrase ≠ [] := fun hnil => h.ne_nil (by rw [hnil]; rfl)
  rw [List.getLast?_cons_of_ne_nil hne] at hlast
  obtain ⟨init, u, rfl⟩ := exists_concat hlast
  rw [List.map_append] at h hstop
  have hu : ¬ NameContinues u (after.map Prod.fst) := fun hu =>
    hstop ⟨u, by rw [← List.cons_append]; exact List.getLast?_concat, hu⟩
  obtain ⟨name, rfl, -, hname⟩ := name?_of_isName last budget h hu
  rw [scan_of_elaborated hform, List.append_assoc, List.singleton_append, hname]
  simp only [spent, hform, List.length_cons, List.length_map, List.length_append, List.length_nil]
  by_cases hbudget : budget < init.length + 1 + readInVain (after.map Prod.fst)
  · rw [if_pos hbudget, if_pos (by omega)]
    rfl
  · rw [if_neg hbudget, if_neg (by omega)]
    rfl

/-- A plain name that does not go on is found, unless the budget is too small or it is no type. -/
theorem scan_append_name (hform : Form.of t = .name)
    (hlast : ((t, i) :: phrase).getLast?.map Prod.snd = some last)
    (h : IsType (t :: phrase.map Prod.fst))
    (hstop : ¬ Continues (t :: phrase.map Prod.fst) (after.map Prod.fst)) :
    scan (budget + 1) ((t, i) :: (phrase ++ after)) =
      if budget + 1 < spent (t :: phrase.map Prod.fst) (after.map Prod.fst) then
        .error .extentTooLong
      else if lacksType (t :: phrase.map Prod.fst) (after.map Prod.fst) then .error .implicitInt
      else .ok ⟨i, last⟩ := by
  simp only [IsType, Continues, hform] at h hstop
  obtain ⟨init, u, hsplit⟩ := exists_concat hlast
  have hmap : t :: phrase.map Prod.fst = init.map Prod.fst ++ [u] := by
    simpa using congrArg (List.map Prod.fst) hsplit
  rw [hmap] at h hstop
  have hu : ¬ NameContinues u (after.map Prod.fst) := fun hu => hstop ⟨u, List.getLast?_concat, hu⟩
  obtain ⟨name, rfl, hint, hname⟩ := name?_of_isName last (budget + 1) h hu
  have hlacks : lacksType (t :: phrase.map Prod.fst) (after.map Prod.fst) =
      (name.simple && impliesInt name.rest) := by
    rw [hint, ← hmap, impliesInt_eq]
    simp [lacksType, hform]
  rw [scan_of_name hform, ← List.cons_append, hsplit, List.append_assoc, List.singleton_append,
    hname, hlacks]
  have hlen : phrase.length = init.length := by simpa using congrArg List.length hsplit
  simp only [spent, hform, List.length_cons, List.length_map, hlen]
  by_cases hbudget : budget + 1 < init.length + 1 + readInVain (after.map Prod.fst)
  · rw [if_pos hbudget, if_pos hbudget]
    rfl
  · rw [if_neg hbudget, if_neg hbudget]
    rfl

/-- A run of fundamental types that does not go on is found with any budget but zero. -/
theorem scan_append_fundamental (hform : Form.of t = .fundamental)
    (hlast : ((t, i) :: phrase).getLast?.map Prod.snd = some last)
    (h : IsType (t :: phrase.map Prod.fst))
    (hstop : ¬ Continues (t :: phrase.map Prod.fst) (after.map Prod.fst)) :
    scan (budget + 1) ((t, i) :: (phrase ++ after)) = .ok ⟨i, last⟩ := by
  simp only [IsType, Continues, hform] at h hstop
  rw [scan_of_fundamental hform, builtinRun_append ?_ ?_ hlast]
  · exact fun e he => h e.1 (List.mem_map_of_mem he)
  · exact fun u hu => Bool.eq_false_iff.2 fun hbuiltin => hstop ⟨u, hu, hbuiltin⟩

theorem scan_append_decltype (hform : Form.of t = .decltype)
    (hlast : ((t, i) :: phrase).getLast?.map Prod.snd = some last)
    (h : IsType (t :: phrase.map Prod.fst)) :
    scan (budget + 1) ((t, i) :: (phrase ++ after)) =
      if budget + 1 < spent (t :: phrase.map Prod.fst) (after.map Prod.fst) then
        .error .extentTooLong
      else .ok ⟨i, last⟩ := by
  simp only [IsType, hform] at h
  obtain ⟨u, hu, hparen⟩ := h.first
  cases phrase with
  | nil => cases hu
  | cons e phrase =>
    obtain ⟨v, k⟩ := e
    obtain rfl := Option.some.inj hu
    have hoperand := (isOperand_cons_iff hparen _).1 h
    rw [List.getLast?_cons_cons] at hlast
    have hne : phrase ≠ [] := by
      rintro rfl
      cases hoperand
    rw [List.getLast?_cons_of_ne_nil hne] at hlast
    rw [scan_of_decltype hform]
    simp only [spent, hform, List.map_cons, List.length_cons, List.length_map, List.cons_append]
    cases budget with
    | zero =>
      rw [if_pos (by omega)]
      rfl
    | succ budget =>
      rw [ofDecltype, if_pos hparen, operandEnd_append hoperand hlast]
      by_cases hbudget : budget < phrase.length
      · rw [if_pos hbudget, if_pos (by omega)]
        rfl
      · rw [if_neg hbudget, if_neg (by omega)]
        rfl

/-- The result for a type that does not go on: the budget may be too small for it, or it may stand
in the place of a variable. -/
theorem scan_append {extent : TypeExtent} (hspans : Spans extent phrase after) (budget : Nat) :
    scan budget (phrase ++ after) =
      if budget < spent (phrase.map Prod.fst) (after.map Prod.fst) then .error .extentTooLong
      else if lacksType (phrase.map Prod.fst) (after.map Prod.fst) then .error .implicitInt
      else .ok extent := by
  obtain ⟨hfirst, hlast, h, hstop⟩ := hspans
  cases phrase with
  | nil => exact h.elim
  | cons e phrase =>
    obtain ⟨u, j⟩ := e
    obtain rfl := Option.some.inj hfirst
    simp only [List.map_cons] at h hstop ⊢
    cases budget with
    | zero =>
      rw [if_pos (spent_pos ..)]
      rfl
    | succ budget =>
      have hplain (hne : Form.of u ≠ .name) :=
        lacksType_cons_of_ne hne (phrase.map Prod.fst) (after.map Prod.fst)
      rw [List.cons_append]
      cases hform : Form.of u with
      | elaborated =>
        rw [scan_append_elaborated hform hlast h hstop, hplain (by simp [hform])]
        rfl
      | fundamental =>
        have hspent : spent (u :: phrase.map Prod.fst) (after.map Prod.fst) =
            1 := by simp only [spent, hform]
        rw [scan_append_fundamental hform hlast h hstop, hplain (by simp [hform]), hspent,
          if_neg (by omega)]
        rfl
      | decltype =>
        rw [scan_append_decltype hform hlast h, hplain (by simp [hform])]
        rfl
      | name => exact scan_append_name hform hlast h hstop

/-! ## What is found is a type that does not go on -/

section

variable {extent : TypeExtent} {sig : List (Token × Nat)}

theorem exists_spans_elaborated (hform : Form.of t = .elaborated)
    (h : scan (budget + 1) ((t, i) :: sig) = .ok extent) :
    ∃ phrase after, (t, i) :: sig = phrase ++ after ∧ Spans extent phrase after := by
  rw [scan_of_elaborated hform] at h
  obtain ⟨name, hname, rfl⟩ := ofName_eq_ok h
  obtain ⟨init, u, rest, rfl, hname, hstop⟩ := (name?_stopsAt hname).resolve_left (by simp)
  refine ⟨(t, i) :: (init ++ [(u, name.last)]), rest, by simp, rfl, ?_, ?_, ?_⟩
  · rw [← List.cons_append, List.getLast?_concat]
    rfl
  · simpa [IsType, hform] using completes_start_iff.1 hname
  · simp only [List.map_cons, List.map_append, Continues, hform]
    rintro ⟨v, hv, hcontinues⟩
    rw [← List.cons_append, List.map_nil, List.getLast?_concat] at hv
    obtain rfl := Option.some.inj hv
    exact hstop hcontinues

/-- What is found for a plain name is a type that does not go on. -/
theorem exists_spans_name (hform : Form.of t = .name)
    (h : scan (budget + 1) ((t, i) :: sig) = .ok extent) :
    ∃ phrase after, (t, i) :: sig = phrase ++ after ∧ Spans extent phrase after := by
  rw [scan_of_name hform] at h
  obtain ⟨name, hname, rfl⟩ := ofPlainName_eq_ok h
  obtain ⟨init, u, rest, hsig, hname, hstop⟩ := (name?_stopsAt hname).resolve_left (by simp)
  obtain ⟨ps, hps⟩ : ∃ ps, init ++ [(u, name.last)] = (t, i) :: ps := by
    cases init with
    | nil => exact ⟨[], by rw [(List.cons.inj hsig).1]; rfl⟩
    | cons e init => exact ⟨init ++ [(u, name.last)], by rw [(List.cons.inj hsig).1]; rfl⟩
  have hmap : init.map Prod.fst ++ [u] = t :: ps.map Prod.fst := by
    simpa using congrArg (List.map Prod.fst) hps
  refine ⟨(t, i) :: ps, rest, by rw [← hps, hsig]; simp, rfl, ?_, ?_, ?_⟩
  · rw [← hps, List.getLast?_concat]
    rfl
  · simp only [List.map_cons, IsType, hform]
    rw [← hmap]
    exact completes_start_iff.1 hname
  · simp only [List.map_cons, Continues, hform]
    rw [← hmap, List.getLast?_concat]
    rintro ⟨v, hv, hcontinues⟩
    obtain rfl := Option.some.inj hv
    exact hstop hcontinues

/-- The words of fundamental types that tokens start with. -/
theorem exists_run (sig : List (Token × Nat)) :
    ∃ run after, sig = run ++ after ∧ (∀ e ∈ run, e.1.isBuiltinType = true) ∧
      ∀ u ∈ (after.map Prod.fst).head?, u.isBuiltinType = false := by
  induction sig with
  | nil => exact ⟨[], [], rfl, by simp, by simp⟩
  | cons e sig ih =>
    cases he : e.1.isBuiltinType with
    | false => exact ⟨[], e :: sig, rfl, by simp, by simpa using he⟩
    | true =>
      obtain ⟨run, after, rfl, hrun, hstop⟩ := ih
      exact ⟨e :: run, after, rfl, List.forall_mem_cons.2 ⟨he, hrun⟩, hstop⟩

theorem exists_spans_fundamental (hform : Form.of t = .fundamental)
    (h : scan (budget + 1) ((t, i) :: sig) = .ok extent) :
    ∃ phrase after, (t, i) :: sig = phrase ++ after ∧ Spans extent phrase after := by
  rw [scan_of_fundamental hform] at h
  obtain rfl := Except.ok.inj h
  obtain ⟨run, after, rfl, hrun, hstop⟩ := exists_run sig
  refine ⟨(t, i) :: run, after, rfl, rfl, ?_, ?_, ?_⟩
  · have hlast := List.getLast?_eq_some_getLast (List.cons_ne_nil (t, i) run)
    rw [hlast, builtinRun_append hrun hstop (by rw [hlast]; rfl)]
    rfl
  · simp only [List.map_cons, IsType, hform]
    exact List.forall_mem_map.2 hrun
  · simp only [List.map_cons, Continues, hform]
    rintro ⟨u, hu, hbuiltin⟩
    rw [hstop u hu] at hbuiltin
    cases hbuiltin

/-- What is found for an operand is a type that does not go on. -/
theorem exists_spans_decltype (hform : Form.of t = .decltype)
    (h : scan (budget + 1) ((t, i) :: sig) = .ok extent) :
    ∃ phrase after, (t, i) :: sig = phrase ++ after ∧ Spans extent phrase after := by
  rw [scan_of_decltype hform] at h
  unfold ofDecltype at h
  split at h
  · cases h
  · cases h
  · rename_i budget v k sig
    split at h
    · rename_i hparen
      cases hend : operandEnd budget 1 sig with
      | error refusal =>
        rw [hend] at h
        cases h
      | ok last =>
        rw [hend] at h
        obtain rfl := Except.ok.inj h
        obtain ⟨init, u, rest, rfl, hoperand⟩ := operandEnd_endsAt hend
        refine ⟨(t, i) :: (v, k) :: (init ++ [(u, last)]), rest, by simp, rfl, ?_, ?_, ?_⟩
        · rw [← List.cons_append, ← List.cons_append, List.getLast?_concat]
          rfl
        · simpa [IsType, hform] using (isOperand_cons_iff hparen _).2 hoperand
        · simp only [List.map_cons, Continues, hform, not_false_eq_true]
    · cases h

/-- What is found is a type that does not go on. -/
theorem exists_spans_of_scan (h : scan budget sig = .ok extent) :
    ∃ phrase after, sig = phrase ++ after ∧ Spans extent phrase after := by
  cases sig with
  | nil => cases h
  | cons e sig =>
    obtain ⟨t, i⟩ := e
    cases budget with
    | zero => cases h
    | succ budget =>
      cases hform : Form.of t with
      | elaborated => exact exists_spans_elaborated hform h
      | fundamental => exact exists_spans_fundamental hform h
      | decltype => exact exists_spans_decltype hform h
      | name => exact exists_spans_name hform h

/-- A type is found if and only if it does not go on, does not stand in the place of a variable, and
takes no more than the budget. -/
theorem scan_eq_ok_iff :
    scan budget sig = .ok extent ↔
      ∃ phrase after, sig = phrase ++ after ∧ Spans extent phrase after ∧
        lacksType (phrase.map Prod.fst) (after.map Prod.fst) = false ∧
        spent (phrase.map Prod.fst) (after.map Prod.fst) ≤ budget := by
  constructor
  · intro h
    obtain ⟨phrase, after, rfl, hspans⟩ := exists_spans_of_scan h
    refine ⟨phrase, after, rfl, hspans, ?_⟩
    rw [scan_append hspans] at h
    split at h
    · cases h
    · rename_i hbudget
      split at h
      · cases h
      · rename_i hlacks
        exact ⟨Bool.eq_false_iff.2 hlacks, Nat.le_of_not_lt hbudget⟩
  · rintro ⟨phrase, after, rfl, hspans, hlacks, hbudget⟩
    rw [scan_append hspans, if_neg (Nat.not_lt.2 hbudget), hlacks]
    rfl

end

end

/-- The types of the grammar are found, each as far as it goes on. Of the significant tokens from an
index to before another, an extent is found if and only if the first ones are a type of that extent
that does not go on, that is no lone identifier in the place of a variable, and that the budget
suffices for. A budget of as many units as there are tokens suffices for every type. -/
theorem find_eq_ok_iff_greedy (budget start boundary : Nat) (tokens : List Token)
    (extent : TypeExtent) :
    (find budget tokens start boundary = .ok extent ↔
      ∃ phrase after, significantBetween tokens start boundary = phrase ++ after ∧
        Spans extent phrase after ∧
        lacksType (phrase.map Prod.fst) (after.map Prod.fst) = false ∧
        spent (phrase.map Prod.fst) (after.map Prod.fst) ≤ budget) ∧
    ∀ ts after, spent ts after ≤ (ts ++ after).length :=
  ⟨scan_eq_ok_iff, spent_le⟩

end EastConst.TypeExtent
