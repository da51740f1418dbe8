import EastConst.Proofs.TypeExtent.Enclosure

/-!
# Type phrases

`NameState.Reads` says which token takes the reading of a name from one state to another,
`Completes` which tokens complete a name, and `Phrase` which tokens make up a type. What `scan`
reads of a type, from its first token to its last, is a phrase (`scan_endsAt`).
-/

namespace EastConst.TypeExtent

/-! ## The tokens of a name -/

/-- The token that takes the reading of a name from one state to another. -/
inductive NameState.Reads : NameState → Token → NameState → Prop
  | global {t : Token} (ht : t.isMark .scope = true) : Reads .start t .component
  | template {state : NameState} {t : Token} (hs : state = .start ∨ state = .component)
    (ht : t.isKeyword "template" = true) : Reads state t .templated
  | identifier {state : NameState} {t : Token}
    (hs : state = .start ∨ state = .component ∨ state = .templated) (ht : t.kind = .identifier) :
    Reads state t .identifier
  | scope {state : NameState} {t : Token} (hs : state = .identifier ∨ state = .argued)
    (ht : t.isMark .scope = true) : Reads state t .component
  | less {t : Token} (ht : t.isMark .less = true) : Reads .identifier t (.arguments { angles := 1 })
  | more {d d' : Depths} {t : Token} (hd : d.after t = .more d') :
    Reads (.arguments d) t (.arguments d')
  | closed {d : Depths} {t : Token} (hd : d.after t = .closed) : Reads (.arguments d) t .argued

/-- The tokens that complete a name from a state on. -/
inductive Completes : NameState → List Token → Prop
  | identifier : Completes .identifier []
  | argued : Completes .argued []
  | step {state state' : NameState} {t : Token} {ts : List Token} (ht : state.Reads t state')
    (hts : Completes state' ts) : Completes state (t :: ts)

/-- The significant tokens of a type. -/
inductive Phrase : List Token → Prop
  | fundamental {ts : List Token} (hne : ts ≠ []) (h : ∀ t ∈ ts, t.isBuiltinType = true) : Phrase ts
  | name {ts : List Token} (h : Completes .start ts) : Phrase ts
  | elaborated {t : Token} {ts : List Token} (ht : t.kind = .keyword)
    (he : Vocabulary.isElaborator t.text = true) (h : Completes .start ts) : Phrase (t :: ts)
  | decltype {t u : Token} {ts : List Token} (ht : t.isKeyword "decltype" = true)
    (hu : u.isMark .parenOpen = true) (h : (Enclosure.operand 1).rest? ts = some []) :
    Phrase (t :: u :: ts)

/-! ## What is read is a phrase -/

/-- Tokens that have a property end at an index, from the start of a list on. -/
def EndsAt (p : List Token → Prop) (last : Nat) (sig : List (Token × Nat)) : Prop :=
  ∃ init t rest, sig = init ++ (t, last) :: rest ∧ p (init.map Prod.fst ++ [t])

section

variable {p q : List Token → Prop} {last i : Nat} {sig : List (Token × Nat)} {t : Token}

theorem EndsAt.here (h : p [t]) (sig : List (Token × Nat)) : EndsAt p i ((t, i) :: sig) :=
  ⟨[], t, sig, rfl, h⟩

/-- A token in front of tokens that end somewhere. -/
theorem EndsAt.cons (h : EndsAt p last sig) (ht : ∀ ts, p ts → q (t :: ts)) (i : Nat) :
    EndsAt q last ((t, i) :: sig) := by
  obtain ⟨init, u, rest, rfl, hp⟩ := h
  exact ⟨(t, i) :: init, u, rest, rfl, ht _ hp⟩

end

/-- A name ends where the components before it ended, or with tokens that complete it. -/
theorem name?_endsAt {budget : Nat} {state : NameState} {last? : Option Nat} {simple : Bool}
    {sig : List (Token × Nat)} {name : Name}
    (h : name? budget state last? simple sig = .ok (some name)) :
    last? = some name.last ∨ EndsAt (Completes state) name.last sig := by
  have hmap {last? : Option Nat} {f : Nat → Name} (hf : ∀ n, (f n).last = n)
      (h : (.ok (last?.map f) : Except Refusal _) = .ok (some name)) : last? = some name.last := by
    obtain ⟨n, hn, rfl⟩ := Option.map_eq_some_iff.1 (Except.ok.inj h)
    rw [hf, hn]
  -- a token that the name cannot end with
  have hstep {q : Prop} {state state' : NameState} {t : Token} {i : Nat} {rest : List (Token × Nat)}
      (ht : state.Reads t state') (h : q ∨ EndsAt (Completes state') name.last rest) :
      q ∨ EndsAt (Completes state) name.last ((t, i) :: rest) :=
    h.imp_right fun h => h.cons (fun _ => .step ht) i
  -- a token that the name now ends with
  have hhere {last? : Option Nat} {state state' : NameState} {t : Token} {i : Nat}
      {rest : List (Token × Nat)} (ht : state.Reads t state') (hend : Completes state' [])
      (h : some i = some name.last ∨ EndsAt (Completes state') name.last rest) :
      last? = some name.last ∨ EndsAt (Completes state) name.last ((t, i) :: rest) := by
    right
    rcases h with hi | h
    · obtain rfl := Option.some.inj hi
      exact .here (.step ht hend) rest
    · exact h.cons (fun _ => .step ht) i
  fun_induction name? budget state last? simple sig
  case case1 | case7 | case9 | case12 | case15 | case18 => cases h
  case case2 | case3 | case4 | case5 | case6 | case11 | case14 | case22 =>
    exact .inl (hmap (fun _ => rfl) h)
  case case8 ht _ ih => exact hstep (.less ht) (ih h)
  case case10 ht _ ih => exact hstep (.scope (.inl rfl) ht) (ih h)
  case case13 ht _ ih => exact hstep (.scope (.inr rfl) ht) (ih h)
  case case16 hd ih => exact hstep (.more hd) (ih h)
  case case17 hd ih => exact hhere (.closed hd) .argued (ih h)
  case case19 hc ih =>
    obtain ⟨rfl, ht⟩ := hc
    exact hstep (.global ht) (ih h)
  case case20 state _ _ _ _ _ hid harg hargs _ hc ih =>
    refine hstep (.template ?_ hc.2) (ih h)
    cases state <;> simp_all
  case case21 state _ _ _ _ _ hid harg hargs _ _ ht ih =>
    refine hhere (.identifier ?_ ht) .identifier (ih h)
    cases state <;> simp_all

/-- A run of fundamental words ends where it has come to, or with more such words. -/
theorem builtinRun_endsAt (last : Nat) (sig : List (Token × Nat)) :
    builtinRun last sig = last ∨
      EndsAt (fun ts => ∀ t ∈ ts, t.isBuiltinType = true) (builtinRun last sig) sig := by
  induction sig generalizing last with
  | nil => exact .inl rfl
  | cons e rest ih =>
    obtain ⟨t, i⟩ := e
    rw [builtinRun]
    split
    · rename_i ht
      right
      rcases ih i with h | h
      · rw [h]
        exact .here (by simpa using ht) rest
      · exact h.cons (fun ts hts => by simpa [ht] using hts) i
    · exact .inl rfl

/-- The end that is found for an operand is where its parenthesis closes. -/
theorem operandEnd_endsAt {budget depth i : Nat} {sig : List (Token × Nat)}
    (h : operandEnd budget depth sig = .ok i) :
    EndsAt (fun ts => (Enclosure.operand depth).rest? ts = some []) i sig := by
  have hstep {e e' : Enclosure} {t : Token} {j : Nat} {rest : List (Token × Nat)}
      (ht : e.after t = .on e') (h : EndsAt (fun ts => e'.rest? ts = some []) i rest) :
      EndsAt (fun ts => e.rest? ts = some []) i ((t, j) :: rest) :=
    h.cons (fun ts hts => (Enclosure.rest?_of_on ht ts).trans hts) j
  fun_induction operandEnd budget depth sig with
  | case1 | case2 | case6 | case7 | case8 => cases h
  | case3 budget depth t j rest hm ih => exact hstep (by simp [Enclosure.after, hm]) (ih h)
  | case4 budget depth t j rest hm hle =>
    cases h
    exact .here (Enclosure.rest?_of_closed (by simp [Enclosure.after, hm, hle]) []) rest
  | case5 budget depth t j rest hm hle ih =>
    exact hstep (by simp [Enclosure.after, hm, hle]) (ih h)
  | case9 budget depth t j rest ho hc hs hb hb' ih =>
    exact hstep (by simp [Enclosure.after, *]) (ih h)

theorem ofName_eq_ok {first : Nat} {name : Except Refusal (Option Name)} {extent : TypeExtent}
    (h : ofName first name = .ok extent) : ∃ n, name = .ok (some n) ∧ extent = ⟨first, n.last⟩ := by
  unfold ofName at h
  split at h
  · exact ⟨_, rfl, (Except.ok.inj h).symm⟩
  · cases h
  · cases h

theorem ofPlainName_eq_ok {first : Nat} {name : Except Refusal (Option Name)} {extent : TypeExtent}
    (h : ofPlainName first name = .ok extent) :
    ∃ n, name = .ok (some n) ∧ extent = ⟨first, n.last⟩ := by
  unfold ofPlainName at h
  split at h
  · split at h
    · cases h
    · exact ⟨_, rfl, (Except.ok.inj h).symm⟩
  · cases h
  · cases h

theorem ofDecltype_eq_ok {first budget : Nat} {sig : List (Token × Nat)} {extent : TypeExtent}
    {t : Token} (ht : t.isKeyword "decltype" = true)
    (h : ofDecltype first budget sig = .ok extent) :
    extent.first = first ∧ EndsAt Phrase extent.last ((t, first) :: sig) := by
  unfold ofDecltype at h
  split at h
  · cases h
  · cases h
  · rename_i budget u i rest
    split at h
    · rename_i hu
      cases hj : operandEnd budget 1 rest with
      | error refusal =>
        rw [hj] at h
        cases h
      | ok j =>
        rw [hj] at h
        obtain rfl := Except.ok.inj h
        have hoperand := (operandEnd_endsAt hj).cons (q := fun ts => Phrase (t :: ts))
          (fun ts hts => Phrase.decltype ht hu hts) i
        exact ⟨rfl, hoperand.cons (fun ts hts => hts) first⟩
    · cases h

/-- What is read of a type, from its first token to its last, is a phrase. -/
theorem scan_endsAt {budget : Nat} {sig : List (Token × Nat)} {extent : TypeExtent}
    (h : scan budget sig = .ok extent) :
    (∃ t rest, sig = (t, extent.first) :: rest) ∧ EndsAt Phrase extent.last sig := by
  unfold scan at h
  split at h
  · cases h
  · cases h
  · rename_i budget t i rest
    split at h
    · rename_i ht
      obtain ⟨n, hn, rfl⟩ := ofName_eq_ok h
      have hname := (name?_endsAt hn).resolve_left (by simp)
      exact ⟨⟨t, rest, rfl⟩, hname.cons (fun ts hts => .elaborated ht.1 ht.2 hts) i⟩
    · split at h
      · rename_i ht
        obtain rfl := Except.ok.inj h
        refine ⟨⟨t, rest, rfl⟩, ?_⟩
        rcases builtinRun_endsAt i rest with hi | hrun
        · change EndsAt Phrase (builtinRun i rest) _
          rw [hi]
          exact .here (.fundamental (by simp) (by simpa using ht)) rest
        · exact hrun.cons (fun ts hts => .fundamental (by simp) (by simpa [ht] using hts)) i
      · split at h
        · rename_i ht
          obtain ⟨hfirst, hend⟩ := ofDecltype_eq_ok ht h
          exact ⟨⟨t, rest, by rw [hfirst]⟩, hend⟩
        · obtain ⟨n, hn, rfl⟩ := ofPlainName_eq_ok h
          obtain ⟨init, u, rest', hsig, hts⟩ := (name?_endsAt hn).resolve_left (by simp)
          exact ⟨⟨t, rest, rfl⟩, init, u, rest', hsig, .name hts⟩

end EastConst.TypeExtent
