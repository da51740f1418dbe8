import EastConst.Proofs.Plan.Noncrossing
import EastConst.Proofs.TypeExtent.Greedy

/-!
# Types among moved qualifiers

Where qualifiers are taken away before a type and put behind another, the tokens that a third type
is read from change with them. A type that has no extent does not get one by that
(`hasExtent_old`): in template arguments and operands qualifiers do nothing, and as many are put
in as are taken away (`Requalified.Fits`); elsewhere in a type none is put in, and one that is taken
away ended the type.
-/

namespace EastConst

/-- A significant token, whether it is taken away, and the qualifiers that are put behind it. -/
structure Requalified where
  token : Token
  gone : Bool
  come : List Token

namespace Requalified

/-- The tokens before the change. -/
def old (cs : List Requalified) : List Token :=
  cs.map Requalified.token

/-- What is left of a token, and what is put behind it. -/
def result (c : Requalified) : List Token :=
  (if c.gone then [] else [c.token]) ++ c.come

/-- The tokens after the change. -/
def new (cs : List Requalified) : List Token :=
  cs.flatMap Requalified.result

/-- Only qualifiers are taken away and put in. They are put behind tokens that may end a type, and
something is left behind one that is taken away. -/
structure Fits (cs : List Requalified) : Prop where
  gone : ∀ c ∈ cs, c.gone = true → (∃ q, Qualifier.ofToken? c.token = some q) ∧ c.come = []
  come : ∀ c ∈ cs, ∀ t ∈ c.come, ∃ q, Qualifier.ofToken? t = some q
  endsType : ∀ c ∈ cs, c.come ≠ [] → c.token.endsType = true
  later : ∀ pre c post, cs = pre ++ c :: post → c.gone = true → new post ≠ []

section

variable {c : Requalified} {cs cs' : List Requalified}

@[simp]
theorem old_nil : old [] = [] := rfl

@[simp]
theorem old_cons : old (c :: cs) = c.token :: old cs := rfl

@[simp]
theorem old_append : old (cs ++ cs') = old cs ++ old cs' :=
  List.map_append

@[simp]
theorem new_nil : new [] = [] := rfl

theorem new_cons : new (c :: cs) = c.result ++ new cs := rfl

@[simp]
theorem new_append : new (cs ++ cs') = new cs ++ new cs' :=
  List.flatMap_append

theorem new_cons_of_kept (h : c.gone = false) : new (c :: cs) = c.token :: (c.come ++ new cs) := by
  rw [new_cons, result, if_neg (by simp [h])]
  rfl

/-- Where nothing goes and nothing comes, nothing changes. -/
theorem new_eq_old (h : ∀ c ∈ cs, c.gone = false ∧ c.come = []) : new cs = old cs := by
  induction cs with
  | nil => rfl
  | cons c cs ih =>
    obtain ⟨hgone, hcome⟩ := h c List.mem_cons_self
    rw [new_cons_of_kept hgone, hcome, List.nil_append, old_cons,
      ih fun d hd => h d (List.mem_cons_of_mem c hd)]

theorem Fits.tail (h : Fits (c :: cs)) : Fits cs where
  gone := fun d hd => h.gone d (List.mem_cons_of_mem c hd)
  come := fun d hd => h.come d (List.mem_cons_of_mem c hd)
  endsType := fun d hd => h.endsType d (List.mem_cons_of_mem c hd)
  later := fun pre d post hcs => h.later (c :: pre) d post (by rw [hcs]; rfl)

/-- Nothing comes in where a token goes. -/
theorem Fits.new_cons_of_gone (h : Fits (c :: cs)) (hc : c.gone = true) :
    new (c :: cs) = new cs := by
  rw [new_cons, result, if_pos hc, (h.gone c List.mem_cons_self hc).2]
  rfl

/-- Nothing comes behind a token that ends no type. -/
theorem Fits.come_eq_nil (h : Fits (c :: cs)) (hc : c.token.endsType = false) : c.come = [] := by
  cases hcome : c.come with
  | nil => rfl
  | cons t ts =>
    rw [h.endsType c List.mem_cons_self (by simp [hcome])] at hc
    cases hc

/-- A token that is no qualifier stays. -/
theorem Fits.kept (h : Fits (c :: cs)) (hc : Qualifier.ofToken? c.token = none) :
    c.gone = false := by
  cases hgone : c.gone with
  | false => rfl
  | true =>
    obtain ⟨⟨q, hq⟩, -⟩ := h.gone c List.mem_cons_self hgone
    rw [hc] at hq
    cases hq

theorem Fits.new_ne_nil (h : Fits (c :: cs)) : new (c :: cs) ≠ [] := by
  cases hc : c.gone with
  | true =>
    rw [h.new_cons_of_gone hc]
    exact h.later [] c cs rfl hc
  | false =>
    rw [new_cons_of_kept hc]
    exact List.cons_ne_nil _ _

end

end Requalified

namespace TypeExtent

open Requalified

section

variable {state state' : NameState} {t : Token} {ts us rest : List Token} {q : Qualifier}
  {c : Requalified} {cs : List Requalified}

/-! ## Tokens that are no qualifiers -/

theorem ofToken?_of_identifier (h : t.kind = .identifier) : Qualifier.ofToken? t = none := by
  rw [Qualifier.ofToken?, if_neg (by simp [h])]

theorem ofToken?_of_isMark {m : Mark} (h : t.isMark m = true) : Qualifier.ofToken? t = none := by
  cases hq : Qualifier.ofToken? t with
  | none => rfl
  | some q =>
    rw [Token.isMark, Token.mark?_of_qualifier hq] at h
    cases h

/-- Whether a token announces a name or an operand, so that no qualifier leads behind it. -/
def opensName (t : Token) : Bool :=
  t.isMark .scope || t.kind == .keyword &&
    (t.text == "template".toList || t.text == "decltype".toList || Vocabulary.isElaborator t.text)

/-- The words that announce a name are in no other list of the vocabulary that a type asks for. -/
theorem word_of_opensName (h : opensName t = true) (hscope : t.isMark .scope = false) :
    t.kind = .keyword ∧ Vocabulary.isBuiltinType t.text = false ∧
      Walk.afterKeyword t.text = .other ∧ Qualifier.ofText? t.text = none := by
  have hwords : ∀ word ∈ "template".toList :: "decltype".toList :: Vocabulary.elaborators,
      Vocabulary.isBuiltinType word = false ∧ Walk.afterKeyword word = .other ∧
        Qualifier.ofText? word = none := by decide
  rw [opensName, hscope, Bool.false_or, Bool.and_eq_true, beq_iff_eq] at h
  refine ⟨h.1, hwords t.text ?_⟩
  simpa [Vocabulary.isElaborator, or_assoc] using h.2

theorem opensName_of_scope (h : t.isMark .scope = true) : opensName t = true := by
  simp [opensName, h]

theorem opensName_of_template (h : t.isKeyword "template" = true) : opensName t = true := by
  rw [Token.isKeyword, Bool.and_eq_true, beq_iff_eq, beq_iff_eq] at h
  simp [opensName, h.1, h.2]

theorem ofToken?_of_opensName (h : opensName t = true) : Qualifier.ofToken? t = none := by
  cases hscope : t.isMark .scope with
  | true => exact ofToken?_of_isMark hscope
  | false =>
    obtain ⟨-, -, -, hq⟩ := word_of_opensName h hscope
    rw [Qualifier.ofToken?, hq, ite_self]

theorem endsType_of_opensName (h : opensName t = true) : t.endsType = false := by
  cases hscope : t.isMark .scope with
  | true =>
    have hword := isWord_of_isMark hscope
    have hk : t.kind ≠ .identifier := fun hk => by simp [Token.isWord, hk] at hword
    rw [Token.isMark, beq_iff_eq] at hscope
    simp [Token.endsType, Token.isBuiltinType, Token.isMark, hscope, hk, hword]
  | false =>
    obtain ⟨hk, hbuiltin, -, -⟩ := word_of_opensName h hscope
    simp [Token.endsType, Token.isBuiltinType, Token.isMark, Token.mark?, hk, hbuiltin]

/-! ## Where a name ends -/

/-- A name goes on behind a qualifier as little as behind a semicolon. -/
theorem not_nameContinues_qualifier (hq : Qualifier.ofToken? t = some q) (last : Token)
    (ts : List Token) : ¬ NameContinues last (t :: ts) := by
  have hmark (m : Mark) : t.isMark m = false := by
    rw [Token.isMark, Token.mark?_of_qualifier hq]
    rfl
  rw [nameContinues_cons (hmark .scope), hmark .less]
  simp

theorem readInVain_qualifier (hq : Qualifier.ofToken? t = some q) (ts : List Token) :
    readInVain (t :: ts) = 0 := by
  rw [readInVain, List.head?_cons, Option.any_some, Token.isMark, Token.mark?_of_qualifier hq]
  rfl

theorem startsComponent_qualifier (hq : Qualifier.ofToken? t = some q) (ts : List Token) :
    startsComponent (t :: ts) = false := by
  have hword : t.isKeyword "template" = false :=
    Token.isKeyword_of_qualifier hq (by cases q <;> decide)
  simp [startsComponent, Token.kind_of_qualifier hq, hword]

/-- What starts with a component starts with one after the change. -/
theorem startsComponent_new (hfits : Fits cs) (h : startsComponent (old cs) = true) :
    startsComponent (new cs) = true := by
  cases cs with
  | nil => cases h
  | cons c cs =>
    rw [old_cons, startsComponent, Bool.or_eq_true, beq_iff_eq, Bool.and_eq_true] at h
    rcases h with hid | ⟨hword, hnext⟩
    · rw [new_cons_of_kept (hfits.kept (ofToken?_of_identifier hid))]
      simp [startsComponent, hid]
    · rw [new_cons_of_kept (hfits.kept (ofToken?_of_opensName (opensName_of_template hword))),
        hfits.come_eq_nil (endsType_of_opensName (opensName_of_template hword)), List.nil_append]
      cases cs with
      | nil => cases hnext
      | cons d cs =>
        have hid : d.token.kind = .identifier := by simpa using hnext
        rw [new_cons_of_kept (hfits.tail.kept (ofToken?_of_identifier hid))]
        simp [startsComponent, hword, hid]

/-- A name that goes on does so after the change. -/
theorem nameContinues_new {last : Token} (hfits : Fits cs) (h : NameContinues last (old cs)) :
    NameContinues last (new cs) := by
  cases cs with
  | nil => exact absurd h (not_nameContinues_nil last)
  | cons c cs =>
    cases hq : Qualifier.ofToken? c.token with
    | some q => exact absurd h (not_nameContinues_qualifier hq last (old cs))
    | none =>
      rw [new_cons_of_kept (hfits.kept hq)]
      cases hscope : c.token.isMark .scope with
      | true =>
        rw [old_cons, nameContinues_scope hscope] at h
        rw [nameContinues_scope hscope,
          hfits.come_eq_nil (endsType_of_opensName (opensName_of_scope hscope)), List.nil_append]
        exact startsComponent_new hfits.tail h
      | false =>
        rw [old_cons, nameContinues_cons hscope] at h
        exact (nameContinues_cons hscope).2 h

/-- As much is read in vain after the change as before it, or more. -/
theorem readInVain_le_new (hfits : Fits cs) : readInVain (old cs) ≤ readInVain (new cs) := by
  cases cs with
  | nil => exact Nat.le_refl _
  | cons c cs =>
    cases hscope : c.token.isMark .scope with
    | false =>
      rw [readInVain, old_cons, List.head?_cons, Option.any_some, hscope]
      exact Nat.zero_le _
    | true =>
      rw [new_cons_of_kept (hfits.kept (ofToken?_of_isMark hscope)),
        hfits.come_eq_nil (endsType_of_opensName (opensName_of_scope hscope)), old_cons,
        List.nil_append, readInVain_cons_of_scope hscope, readInVain_cons_of_scope hscope]
      refine Nat.add_le_add_right ?_ 1
      cases cs with
      | nil => exact Nat.zero_le _
      | cons d cs =>
        have hpos : 1 ≤ (new (d :: cs)).length := List.length_pos_iff.2 hfits.tail.new_ne_nil
        cases hword : d.token.isKeyword "template" with
        | false =>
          rw [old_cons, List.head?_cons, Option.any_some, hword, if_neg (by simp)]
          split <;> omega
        | true =>
          rw [new_cons_of_kept
            (hfits.tail.kept (ofToken?_of_opensName (opensName_of_template hword))),
            hfits.tail.come_eq_nil (endsType_of_opensName (opensName_of_template hword)), old_cons,
            List.nil_append, List.head?_cons, List.head?_cons, Option.any_some, hword]
          cases cs with
          | nil => simp
          | cons e cs =>
            have := List.length_pos_iff.2 hfits.tail.tail.new_ne_nil
            simp only [List.length_cons]
            simp
            omega

/-! ## Names in lock step -/

/-- Whether a name ends behind tokens that are read from a state on. -/
def NameState.Stops (state : NameState) (ts rest : List Token) : Prop :=
  (ts = [] → state.Halts rest) ∧ ∀ last ∈ ts.getLast?, ¬ NameContinues last rest

theorem nameContinues_congr {last last' : Token}
    (h : last.kind = .identifier ↔ last'.kind = .identifier) :
    NameContinues last ts ↔ NameContinues last' ts := by
  rw [NameContinues, NameContinues, h]

theorem NameState.halts_behind : (NameState.behind t).Halts ts ↔ ¬ NameContinues t ts := by
  rw [NameState.behind]
  split
  · rename_i hk
    refine ⟨fun h => h t hk, fun h last hl => ?_⟩
    have hlike : last.kind = .identifier ↔ t.kind = .identifier := by simp [hk, hl]
    rwa [nameContinues_congr hlike]
  · rename_i hk
    refine ⟨fun h => h t hk, fun h last hl => ?_⟩
    have hlike : last.kind = .identifier ↔ t.kind = .identifier := by simp [hk, hl]
    rwa [nameContinues_congr hlike]

/-- The step lemma: where a name ends is not changed by a token that has been read of it. -/
theorem NameState.stops_cons (h : state.Reads t state') (hts : Completes state' ts) :
    state.Stops (t :: ts) rest ↔ state'.Stops ts rest := by
  cases ts with
  | nil =>
    obtain ⟨rfl, -⟩ := h.eq_behind hts
    simp [NameState.Stops, NameState.halts_behind]
  | cons u ts => simp [NameState.Stops]

/-- Whether a component has to follow in a state. -/
def NameState.expects : NameState → Bool
  | .start | .component | .templated => true
  | _ => false

/-- The tokens from a state on to another in which a component still has to follow. -/
inductive NameState.Awaits : NameState → List Token → Prop
  | here {state : NameState} (hs : state.expects = true) : Awaits state []
  | step {state state' : NameState} {t : Token} {ts : List Token} (hs : state.expects = true)
    (ht : state.Reads t state') (hts : Awaits state' ts) : Awaits state (t :: ts)

theorem NameState.Awaits.expects (h : state.Awaits ts) : state.expects = true := by
  cases h with
  | here hs => exact hs
  | step hs _ _ => exact hs

theorem Completes.ne_nil (h : Completes state us) (hs : state.expects = true) : us ≠ [] := by
  cases h with
  | identifier => cases hs
  | argued => cases hs
  | step => exact List.cons_ne_nil _ _

theorem NameState.Reads.opensName (h : state.Reads t state') (hs : state'.expects = true) :
    opensName t = true := by
  cases h with
  | global ht => exact opensName_of_scope ht
  | template _ ht => exact opensName_of_template ht
  | scope _ ht => exact opensName_of_scope ht
  | _ => cases hs

/-- Before the first component of a name, only `::` and the word `template` are read. -/
theorem NameState.Awaits.opensName (h : state.Awaits ts) : ∀ t ∈ ts, opensName t = true := by
  induction h with
  | here => simp
  | step _ ht hts ih =>
    intro u hu
    rcases List.mem_cons.1 hu with rfl | hu
    · exact ht.opensName hts.expects
    · exact ih u hu

/-- Behind `::`, the word `template` may stand before a component. -/
theorem NameState.Awaits.of_component (h : NameState.component.Awaits ts) :
    ts = [] ∨ ∃ t, ts = [t] ∧ t.isKeyword "template" = true := by
  cases h with
  | here => exact .inl rfl
  | step _ ht hts =>
    cases ht with
    | template _ ht =>
      cases hts with
      | here => exact .inr ⟨_, rfl, ht⟩
      | step _ ht' hts' =>
        cases ht' with
        | template hs _ => simp at hs
        | identifier => cases hts'.expects
        | scope hs _ => simp at hs
    | identifier => cases hts.expects
    | scope hs _ => simp at hs

/-- How far a name is read before the change, of which `us` are read after it and `rest` are not. It
is read in full, at no more cost, or a qualifier stands in the place of its first component. -/
inductive Reaches (state : NameState) (cs : List Requalified) (us rest : List Token) : Prop
  | ends (pre post : List Requalified) (hcs : cs = pre ++ post) (h : Completes state (old pre))
    (hstop : state.Stops (old pre) (old post))
    (hcost : (new pre).length + readInVain (old post) ≤ us.length + readInVain rest)
    (hsame : (∀ c ∈ post.head?, c.gone = false ∧ c.token.isMark .scope = false) →
      us = new pre ∧ rest = new post)
  | awaits (pre post : List Requalified) (c : Requalified) (hcs : cs = pre ++ c :: post)
    (hc : c.gone = true) (h : state.Awaits (old pre)) (hcost : pre.length + 1 ≤ us.length)

/-- In template arguments, qualifiers that are put in are read over. -/
theorem Completes.of_qualifiers {d : Depths} {qs us' : List Token}
    (h : Completes (.arguments d) us) (hqs : ∀ t ∈ qs, ∃ q, Qualifier.ofToken? t = some q)
    (hus : us ++ rest = qs ++ us') :
    ∃ vs, us = qs ++ vs ∧ Completes (.arguments d) vs ∧ vs ++ rest = us' := by
  induction qs generalizing us with
  | nil => exact ⟨us, rfl, h, hus⟩
  | cons t qs ih =>
    cases h with
    | step ht hts =>
      rw [List.cons_append, List.cons_append, List.cons.injEq] at hus
      obtain ⟨rfl, hus⟩ := hus
      obtain ⟨q, hq⟩ := hqs _ List.mem_cons_self
      obtain ⟨d', hd, rfl⟩ := ht.of_qualifier hq
      obtain rfl := NameState.arguments.inj hd
      obtain ⟨vs, rfl, hvs, hrest⟩ := ih hts (fun u hu => hqs u (List.mem_cons_of_mem _ hu)) hus
      exact ⟨vs, rfl, hvs, hrest⟩

theorem Completes.ne_nil_of_arguments {d : Depths} (h : Completes (.arguments d) us) : us ≠ [] := by
  cases h with
  | step => exact List.cons_ne_nil _ _

/-- Between arguments a qualifier is read over. -/
theorem NameState.reads_qualifier {d : Depths} (hq : Qualifier.ofToken? t = some q) :
    NameState.Reads (.arguments d) t (.arguments d) := by
  refine .more ?_
  have := Enclosure.after_of_plain (.arguments d) (t := t) (.inl (Token.mark?_of_qualifier hq))
  rw [Enclosure.after] at this
  split at this
  · rename_i d' hd
    cases this
    exact hd
  · cases this
  · cases this

/-- What a token that stays is followed by, where a name is read on over it. -/
theorem Completes.of_kept (hfits : Fits (c :: cs)) (ht : state.Reads c.token state')
    (hend : Completes state [c.token] → c.come = []) (h : Completes state' us)
    (hus : us ++ rest = c.come ++ new cs) :
    ∃ vs, us = c.come ++ vs ∧ Completes state' vs ∧ vs ++ rest = new cs ∧
      (state'.Stops us rest → state'.Stops vs rest) := by
  by_cases hcome : c.come = []
  · rw [hcome, List.nil_append] at hus
    exact ⟨us, by rw [hcome, List.nil_append], h, hus, id⟩
  · have hends := hfits.endsType c List.mem_cons_self hcome
    obtain ⟨d, rfl⟩ : ∃ d, state' = .arguments d := by
      cases hs : state' with
      | arguments d => exact ⟨d, rfl⟩
      | identifier => exact absurd (hend (.step (hs ▸ ht) .identifier)) hcome
      | argued => exact absurd (hend (.step (hs ▸ ht) .argued)) hcome
      | _ =>
        rw [endsType_of_opensName (ht.opensName (by rw [hs]; rfl))] at hends
        cases hends
    obtain ⟨vs, rfl, hvs, hrest⟩ := h.of_qualifiers (hfits.come c List.mem_cons_self) hus
    refine ⟨vs, rfl, hvs, hrest, fun hstop => ⟨fun hnil => absurd hnil hvs.ne_nil_of_arguments, ?_⟩⟩
    intro last hlast
    refine hstop.2 last ?_
    rw [List.getLast?_append, hlast]
    rfl

/-- Where a qualifier stands in the place of a component, the name has ended before the `::`. -/
theorem Reaches.of_scope {pre post : List Requalified} {d : Requalified}
    (hfits : Fits (c :: cs)) (hs : state = .identifier ∨ state = .argued)
    (hscope : c.token.isMark .scope = true) (hcs : cs = pre ++ d :: post) (hd : d.gone = true)
    (h : NameState.component.Awaits (old pre)) (hcost : pre.length + 2 ≤ us.length) :
    Reaches state (c :: cs) us rest := by
  obtain ⟨⟨q, hq⟩, -⟩ := hfits.tail.gone d (by simp [hcs]) hd
  have hstart : startsComponent (old cs) = false ∧
      readInVain (c.token :: old cs) ≤ pre.length + 2 := by
    rw [readInVain_cons_of_scope hscope, hcs]
    rcases h.of_component with hpre | ⟨t, hpre, ht⟩
    · have hnil : pre = [] := List.map_eq_nil_iff.1 hpre
      have hword : d.token.isKeyword "template" = false :=
        Token.isKeyword_of_qualifier hq (by cases q <;> decide)
      subst hnil
      refine ⟨startsComponent_qualifier hq _, ?_⟩
      simp only [List.nil_append, old_cons, List.head?_cons, Option.any_some, hword]
      simp
    · obtain ⟨e, rfl, rfl⟩ := List.map_eq_singleton_iff.1 hpre
      have hk : e.token.kind ≠ .identifier := fun hk => by simp [Token.isKeyword, hk] at ht
      refine ⟨?_, ?_⟩
      · simp [startsComponent, hk, Token.kind_of_qualifier hq]
      · simp only [List.singleton_append, old_cons, List.head?_cons, Option.any_some, ht, if_true,
          List.length_cons, List.length_nil]
        omega
  have hnot (last : Token) : ¬ NameContinues last (old (c :: cs)) := by
    rw [old_cons, nameContinues_scope hscope, hstart.1]
    simp
  refine .ends [] _ rfl ?_ ⟨fun _ => ?_, by simp⟩ ?_ fun hhead => ?_
  · rcases hs with rfl | rfl
    · exact .identifier
    · exact .argued
  · rcases hs with rfl | rfl
    · exact fun last _ => hnot last
    · exact fun last _ => hnot last
  · rw [new_nil, old_cons]
    simp only [List.length_nil]
    omega
  · rw [(hhead c rfl).2] at hscope
    cases hscope

theorem NameState.halts_qualifier (hs : state = .identifier ∨ state = .argued)
    (hq : Qualifier.ofToken? t = some q) (ts : List Token) : state.Halts (t :: ts) := by
  rcases hs with rfl | rfl
  · exact fun last _ => not_nameContinues_qualifier hq last ts
  · exact fun last _ => not_nameContinues_qualifier hq last ts

/-- A name that ends before the changed tokens ends before the old ones. -/
theorem NameState.halts_old (hfits : Fits cs) (hs : state = .identifier ∨ state = .argued)
    (h : state.Halts (new cs)) : state.Halts (old cs) := by
  rcases hs with rfl | rfl
  · exact fun last hl hcont => h last hl (nameContinues_new hfits hcont)
  · exact fun last hl hcont => h last hl (nameContinues_new hfits hcont)

/-- A name that ends here, after the change, ends here before it. -/
theorem Reaches.here (hfits : Fits cs) (hs : state = .identifier ∨ state = .argued)
    (hstop : state.Stops [] (new cs)) : Reaches state cs [] (new cs) := by
  refine .ends [] _ rfl ?_ ⟨fun _ => NameState.halts_old hfits hs (hstop.1 rfl), by simp⟩ ?_
    fun _ => ⟨rfl, rfl⟩
  · rcases hs with rfl | rfl
    · exact .identifier
    · exact .argued
  · simpa using readInVain_le_new hfits

/-- A qualifier that is taken away is read over in template arguments, ends a name, or stands in the
place of a component. -/
theorem Reaches.of_gone (hfits : Fits (c :: cs)) (hc : c.gone = true) (h : Completes state us)
    (ih : ∀ d, state = .arguments d → Reaches state cs us rest) :
    Reaches state (c :: cs) us rest := by
  obtain ⟨⟨q, hq⟩, hcome⟩ := hfits.gone c List.mem_cons_self hc
  have hends (hs : state = .identifier ∨ state = .argued) (hnil : Completes state []) :
      Reaches state (c :: cs) us rest := by
    refine .ends [] _ rfl hnil ⟨fun _ => NameState.halts_qualifier hs hq _, by simp⟩ ?_
      fun hhead => ?_
    · rw [old_cons, readInVain_qualifier hq]
      exact Nat.zero_le _
    · rw [(hhead c rfl).1] at hc
      cases hc
  have hawaits (hs : state.expects = true) : Reaches state (c :: cs) us rest :=
    .awaits [] _ _ rfl hc (.here hs) (List.length_pos_iff.2 (h.ne_nil hs))
  cases hstate : state with
  | start => exact hstate ▸ hawaits (by rw [hstate]; rfl)
  | component => exact hstate ▸ hawaits (by rw [hstate]; rfl)
  | templated => exact hstate ▸ hawaits (by rw [hstate]; rfl)
  | identifier => exact hstate ▸ hends (.inl hstate) (hstate ▸ .identifier)
  | argued => exact hstate ▸ hends (.inr hstate) (hstate ▸ .argued)
  | arguments d =>
    have hreads := NameState.reads_qualifier (d := d) hq
    cases hstate ▸ ih d hstate with
    | ends pre post hcs h' hstop hcost hsame =>
      have hnew : new (c :: pre) = new pre := by simp [new_cons, result, hc, hcome]
      refine .ends (c :: pre) post (by rw [hcs]; rfl) (.step hreads h')
        ((NameState.stops_cons hreads h').2 hstop) ?_ ?_
      · rwa [hnew]
      · rwa [hnew]
    | awaits _ _ _ _ _ h' _ => cases h'.expects

/-- Names are read in lock step before and after the change. -/
theorem reaches (hfits : Fits cs)
    (hend : ∀ pre c post, cs = pre ++ c :: post →
      Completes state (old pre ++ [c.token]) → c.come = [])
    (h : Completes state us) (hus : us ++ rest = new cs) (hstop : state.Stops us rest) :
    Reaches state cs us rest := by
  induction cs generalizing state us with
  | nil =>
    obtain ⟨rfl, rfl⟩ := List.append_eq_nil_iff.1 hus
    exact .ends [] _ rfl h hstop (Nat.le_refl _) fun _ => ⟨rfl, rfl⟩
  | cons c cs ih =>
    cases hc : c.gone with
    | true =>
      rw [hfits.new_cons_of_gone hc] at hus
      refine .of_gone hfits hc h fun d hd => ?_
      obtain ⟨⟨q, hq⟩, -⟩ := hfits.gone c List.mem_cons_self hc
      subst hd
      refine ih hfits.tail (fun pre x post hcs hx => ?_) h hus hstop
      exact hend (c :: pre) x post (by rw [hcs]; rfl) (.step (NameState.reads_qualifier hq) hx)
    | false =>
      have hnew : new (c :: cs) = c.token :: (c.come ++ new cs) := new_cons_of_kept hc
      cases h with
      | identifier =>
        obtain rfl : rest = new (c :: cs) := hus
        exact .here hfits (.inl rfl) hstop
      | argued =>
        obtain rfl : rest = new (c :: cs) := hus
        exact .here hfits (.inr rfl) hstop
      | step ht hts =>
        rename_i state' t us
        rw [hnew, List.cons_append, List.cons.injEq] at hus
        obtain ⟨rfl, hus⟩ := hus
        obtain ⟨vs, rfl, hvs, hrest, hstops⟩ :=
          hts.of_kept hfits ht (hend [] c cs rfl) hus
        have hvstop := hstops ((NameState.stops_cons ht hts).1 hstop)
        cases ih hfits.tail (fun pre x post hcs hx =>
            hend (c :: pre) x post (by rw [hcs]; rfl) (.step ht hx)) hvs hrest hvstop with
        | ends pre post hcs h' hstop' hcost hsame =>
          refine .ends (c :: pre) post (by rw [hcs]; rfl) (.step ht h')
            ((NameState.stops_cons ht h').2 hstop') ?_ fun hhead => ?_
          · rw [new_cons_of_kept hc]
            simp only [List.length_cons, List.length_append]
            omega
          · obtain ⟨rfl, rfl⟩ := hsame hhead
            exact ⟨(new_cons_of_kept hc).symm, rfl⟩
        | awaits pre post d hcs hd h' hcost =>
          cases hs : state.expects with
          | true =>
            refine .awaits (c :: pre) _ _ (by rw [hcs]; rfl) hd (.step hs ht h') ?_
            simp only [List.length_cons, List.length_append]
            omega
          | false =>
            -- the name has been read up to here, and goes on with `::`
            have hlength : pre.length + 2 ≤ (c.token :: (c.come ++ vs)).length := by
              simp only [List.length_cons, List.length_append]
              omega
            cases ht with
            | scope hs' hscope => exact .of_scope hfits hs' hscope hcs hd h' hlength
            | global => cases hs
            | template hs' _ => rcases hs' with rfl | rfl <;> cases hs
            | identifier => cases h'.expects
            | less => cases h'.expects
            | more => cases h'.expects
            | closed => cases h'.expects

/-! ## Operands in lock step -/

/-- In a bracket, qualifiers that are put in are read over. -/
theorem Enclosure.rest?_of_qualifiers {e : Enclosure} {qs us' : List Token}
    (h : e.rest? us = some []) (hqs : ∀ t ∈ qs, ∃ q, Qualifier.ofToken? t = some q)
    (hus : us ++ rest = qs ++ us') :
    ∃ vs, us = qs ++ vs ∧ e.rest? vs = some [] ∧ vs ++ rest = us' := by
  induction qs generalizing us with
  | nil => exact ⟨us, rfl, h, hus⟩
  | cons t qs ih =>
    cases us with
    | nil => cases h
    | cons u us =>
      rw [List.cons_append, List.cons_append, List.cons.injEq] at hus
      obtain ⟨rfl, hus⟩ := hus
      obtain ⟨q, hq⟩ := hqs _ List.mem_cons_self
      rw [e.rest?_of_on (e.after_of_plain (.inl (Token.mark?_of_qualifier hq)))] at h
      obtain ⟨vs, rfl, hvs, hrest⟩ := ih h (fun x hx => hqs x (List.mem_cons_of_mem _ hx)) hus
      exact ⟨vs, rfl, hvs, hrest⟩

/-- A bracket is closed by the same token before and after the change. -/
theorem Enclosure.rest?_old {e : Enclosure} (hfits : Fits cs)
    (hend : ∀ pre c post, cs = pre ++ c :: post → e.rest? (old pre ++ [c.token]) = some [] →
      c.come = [])
    (h : e.rest? us = some []) (hus : us ++ rest = new cs) :
    ∃ pre post, cs = pre ++ post ∧ e.rest? (old pre) = some [] ∧ us = new pre := by
  induction cs generalizing e us with
  | nil =>
    obtain ⟨rfl, -⟩ := List.append_eq_nil_iff.1 hus
    cases h
  | cons c cs ih =>
    cases hc : c.gone with
    | true =>
      obtain ⟨⟨q, hq⟩, hcome⟩ := hfits.gone c List.mem_cons_self hc
      have hon := e.after_of_plain (.inl (Token.mark?_of_qualifier hq))
      rw [hfits.new_cons_of_gone hc] at hus
      obtain ⟨pre, post, rfl, hpre, rfl⟩ := ih hfits.tail (fun pre x post hcs hx =>
        hend (c :: pre) x post (by rw [hcs]; rfl) (by
          rw [old_cons, List.cons_append, rest?_of_on hon, hx])) h hus
      refine ⟨c :: pre, post, rfl, ?_, ?_⟩
      · rw [old_cons, rest?_of_on hon, hpre]
      · simp [new_cons, result, hc, hcome]
    | false =>
      rw [new_cons_of_kept hc] at hus
      cases us with
      | nil => cases h
      | cons u us =>
        rw [List.cons_append, List.cons.injEq] at hus
        obtain ⟨rfl, hus⟩ := hus
        cases hstep : e.after c.token with
        | refused =>
          rw [rest?_of_refused hstep] at h
          cases h
        | closed =>
          rw [rest?_of_closed hstep] at h
          have hcome := hend [] c cs rfl (rest?_of_closed hstep [])
          refine ⟨[c], cs, rfl, rest?_of_closed hstep [], ?_⟩
          rw [new_cons_of_kept hc, hcome, Option.some.inj h]
          rfl
        | on e' =>
          rw [rest?_of_on hstep] at h
          obtain ⟨vs, rfl, hvs, hrest⟩ :=
            rest?_of_qualifiers h (hfits.come c List.mem_cons_self) hus
          obtain ⟨pre, post, rfl, hpre, rfl⟩ := ih hfits.tail (fun pre x post hcs hx =>
            hend (c :: pre) x post (by rw [hcs]; rfl) (by
              rw [old_cons, List.cons_append, rest?_of_on hstep, hx])) hvs hrest
          refine ⟨c :: pre, post, rfl, ?_, (new_cons_of_kept hc).symm⟩
          rw [old_cons, rest?_of_on hstep, hpre]

end

/-! ## Types -/

/-- Whether tokens start with a type that a budget suffices for. -/
def HasExtent (budget : Nat) (ts : List Token) : Prop :=
  ∃ phrase after, ts = phrase ++ after ∧ IsType phrase ∧ ¬ Continues phrase after ∧
    lacksType phrase after = false ∧ spent phrase after ≤ budget

/-- Whether a type is found depends on the tokens alone. -/
theorem exists_scan_iff {budget : Nat} {sig : List (Token × Nat)} :
    (∃ extent, scan budget sig = .ok extent) ↔ HasExtent budget (sig.map Prod.fst) := by
  constructor
  · rintro ⟨extent, h⟩
    obtain ⟨phrase, after, rfl, hspans, hlacks, hspent⟩ := scan_eq_ok_iff.1 h
    exact ⟨_, _, List.map_append, hspans.type, hspans.greedy, hlacks, hspent⟩
  · rintro ⟨ts, us, hsig, htype, hstop, hlacks, hspent⟩
    obtain ⟨phrase, after, rfl, rfl, rfl⟩ := List.map_eq_append_iff.1 hsig
    cases phrase with
    | nil => cases htype
    | cons e phrase =>
      obtain ⟨last, hlast⟩ := List.getLast?_isSome.2 (List.cons_ne_nil e phrase) |>
        Option.isSome_iff_exists.1
      refine ⟨⟨e.2, last.2⟩, scan_eq_ok_iff.2 ⟨e :: phrase, after, rfl, ⟨rfl, ?_, htype, hstop⟩,
        hlacks, hspent⟩⟩
      rw [hlast]
      rfl

end TypeExtent

namespace Requalified

open TypeExtent

/-- What is taken away and put in does not get in the way of the type that the tokens start with: no
qualifier is put at its end, none is taken away before its first name, and in it as many are put in
as are taken away. -/
structure Respects (cs : List Requalified) : Prop extends Fits cs where
  fresh : ∀ pre c post, cs = pre ++ c :: post → c.gone = true → ∃ t ∈ old pre, opensName t = false
  ending : ∀ pre c post, cs = pre ++ c :: post → Phrase (old pre ++ [c.token]) → c.come = []
  count : ∀ pre post, cs = pre ++ post → Phrase (old pre) → pre.length ≤ (new pre).length

section

variable {c : Requalified} {cs : List Requalified} {t : Token} {ts us : List Token} {budget : Nat}

theorem Respects.first (h : Respects (c :: cs)) : c.gone = false := by
  cases hc : c.gone with
  | false => rfl
  | true =>
    obtain ⟨t, ht, -⟩ := h.fresh [] c cs rfl hc
    cases ht

/-- The head of the tokens after the change. -/
theorem Respects.exists_cons (h : Respects cs) (hcs : new cs = t :: ts) :
    ∃ c cs', cs = c :: cs' ∧ c.gone = false ∧ c.token = t ∧ c.come ++ new cs' = ts := by
  cases cs with
  | nil => cases hcs
  | cons c cs =>
    rw [new_cons_of_kept h.first, List.cons.injEq] at hcs
    exact ⟨c, cs, rfl, h.first, hcs.1, hcs.2⟩

/-- No qualifier is taken away before the first name of a type. -/
theorem Respects.kept_of_opensName (h : Respects cs) {pre post : List Requalified}
    (hcs : cs = pre ++ c :: post) (hpre : ∀ t ∈ old pre, opensName t = true) : c.gone = false := by
  cases hc : c.gone with
  | false => rfl
  | true =>
    obtain ⟨t, ht, hnot⟩ := h.fresh pre c post hcs hc
    rw [hpre t ht] at hnot
    cases hnot

theorem stops_of_not_continues (h : ∀ last ∈ ts.getLast?, ¬ NameContinues last us) :
    NameState.start.Stops ts us :=
  ⟨fun _ => trivial, h⟩

theorem hasExtent_elaborated (h : Respects (c :: cs)) (hform : Form.of c.token = .elaborated)
    (hus : ts ++ us = c.come ++ new cs) (htype : IsType (c.token :: ts))
    (hstop : ¬ Continues (c.token :: ts) us) (hspent : spent (c.token :: ts) us ≤ budget) :
    HasExtent budget (old (c :: cs)) := by
  obtain ⟨hk, he⟩ : c.token.kind = .keyword ∧ Vocabulary.isElaborator c.token.text = true := by
    unfold Form.of at hform
    split at hform
    · assumption
    · split at hform
      · cases hform
      · split at hform <;> cases hform
  have hopens : opensName c.token = true := by simp [opensName, hk, he]
  have hphrase {ts : List Token} (hts : Completes .start ts) : Phrase (c.token :: ts) :=
    .elaborated hk he hts
  simp only [IsType, hform] at htype
  simp only [Continues, hform] at hstop
  simp only [spent, hform, List.length_cons] at hspent
  have hne : ts ≠ [] := htype.ne_nil
  rw [h.come_eq_nil (endsType_of_opensName hopens), List.nil_append] at hus
  have hstops : NameState.start.Stops ts us := stops_of_not_continues fun last hlast hcont =>
    hstop ⟨last, by rw [Option.mem_def, List.getLast?_cons_of_ne_nil hne]; exact hlast, hcont⟩
  cases reaches h.toFits.tail (fun pre d post hcs hd =>
      h.ending (c :: pre) d post (by rw [hcs]; rfl) (hphrase hd))
      (completes_start_iff.2 htype) hus hstops with
  | awaits pre post d hcs hd hawaits _ =>
    have hpre : ∀ t ∈ old (c :: pre), opensName t = true :=
      List.forall_mem_cons.2 ⟨hopens, hawaits.opensName⟩
    rw [h.kept_of_opensName (by rw [hcs]; rfl) hpre] at hd
    cases hd
  | ends pre post hcs hpre hstop' hcost _ =>
    have hcount := h.count (c :: pre) post (by rw [hcs]; rfl) (hphrase hpre)
    have hne' : old pre ≠ [] := (completes_start_iff.1 hpre).ne_nil
    rw [new_cons_of_kept h.first, h.come_eq_nil (endsType_of_opensName hopens)] at hcount
    simp only [List.length_cons, List.nil_append] at hcount
    refine ⟨c.token :: old pre, old post, by simp [hcs], ?_, ?_, ?_, ?_⟩
    · simp only [IsType, hform]
      exact completes_start_iff.1 hpre
    · simp only [Continues, hform]
      rintro ⟨last, hlast, hcont⟩
      rw [Option.mem_def, List.getLast?_cons_of_ne_nil hne'] at hlast
      exact hstop'.2 last hlast hcont
    · exact lacksType_cons_of_ne (by simp [hform]) _ _
    · have hlength : (old pre).length = pre.length := List.length_map _
      simp only [spent, hform, List.length_cons]
      omega

/-- A lone identifier stays alone. -/
theorem Respects.new_of_isLone (h : Respects cs) {pre post : List Requalified}
    (hcs : cs = pre ++ post)
    (hpre : Completes .start (old pre)) (hlone : isLone (old pre) = true) : new pre = old pre := by
  subst hcs
  cases pre with
  | nil => rfl
  | cons c pre =>
    cases pre with
    | nil =>
      have hcome := h.ending [] c post rfl (.name hpre)
      rw [new_cons_of_kept h.first, hcome]
      rfl
    | cons d pre =>
      obtain rfl : pre = [] := by
        cases pre with
        | nil => rfl
        | cons e pre => cases hlone
      obtain ⟨hword, hid⟩ : c.token.isKeyword "template" = true ∧ d.token.kind = .identifier := by
        simpa [isLone] using hlone
      have hc := h.come_eq_nil (endsType_of_opensName (opensName_of_template hword))
      have hd : d.gone = false := h.toFits.tail.kept (ofToken?_of_identifier hid)
      have hcome := h.ending [c] d post rfl (.name hpre)
      rw [new_cons_of_kept h.first, hc, List.nil_append, new_cons_of_kept hd, hcome]
      rfl

theorem hasExtent_name (h : Respects (c :: cs)) (hform : Form.of c.token = .name)
    (hus : c.token :: ts ++ us = new (c :: cs)) (htype : IsType (c.token :: ts))
    (hstop : ¬ Continues (c.token :: ts) us) (hlacks : lacksType (c.token :: ts) us = false)
    (hspent : spent (c.token :: ts) us ≤ budget) : HasExtent budget (old (c :: cs)) := by
  simp only [IsType, hform] at htype
  simp only [Continues, hform] at hstop
  simp only [spent, hform] at hspent
  have hstops : NameState.start.Stops (c.token :: ts) us :=
    stops_of_not_continues fun last hlast hcont => hstop ⟨last, hlast, hcont⟩
  cases reaches h.toFits (fun pre d post hcs hd => h.ending pre d post hcs (.name hd))
      (completes_start_iff.2 htype) hus hstops with
  | awaits pre post d hcs hd hawaits _ =>
    rw [h.kept_of_opensName hcs hawaits.opensName] at hd
    cases hd
  | ends pre post hcs hpre hstop' hcost hsame =>
    have hcount := h.count pre post hcs (.name hpre)
    have hlength : (old pre).length = pre.length := List.length_map _
    obtain ⟨pre', rfl⟩ : ∃ pre', pre = c :: pre' := by
      cases pre with
      | nil => exact absurd rfl (completes_start_iff.1 hpre).ne_nil
      | cons d pre' =>
        rw [List.cons_append, List.cons.injEq] at hcs
        exact ⟨pre', by rw [hcs.1]⟩
    refine ⟨old (c :: pre'), old post, by rw [hcs, old_append], ?_, ?_, ?_, ?_⟩
    · simp only [old_cons, IsType, hform]
      exact completes_start_iff.1 hpre
    · simp only [old_cons, Continues, hform]
      rintro ⟨last, hlast, hcont⟩
      exact hstop'.2 last hlast hcont
    · -- a lone identifier before `=` or `;` is there after the change
      refine Bool.eq_false_iff.2 fun hlacks' => ?_
      rw [lacksType, Bool.and_eq_true, Bool.and_eq_true] at hlacks'
      obtain ⟨⟨hname, hlone⟩, hhead⟩ := hlacks'
      cases post with
      | nil => cases hhead
      | cons d post =>
        rw [old_cons, List.head?_cons, Option.any_some, Bool.or_eq_true] at hhead
        obtain ⟨m, hm, hmark⟩ : ∃ m, d.token.isMark m = true ∧ m ≠ .scope := by
          rcases hhead with hm | hm
          · exact ⟨_, hm, by decide⟩
          · exact ⟨_, hm, by decide⟩
        have hgone : d.gone = false := by
          cases hd : d.gone with
          | false => rfl
          | true =>
            obtain ⟨⟨q, hq⟩, -⟩ := h.gone d (by rw [hcs]; simp) hd
            rw [ofToken?_of_isMark hm] at hq
            cases hq
        have hscope : d.token.isMark .scope = false := by
          rw [Token.isMark, beq_iff_eq] at hm
          simpa [Token.isMark, hm] using hmark
        obtain ⟨hts, hus'⟩ := hsame fun e he => by
          obtain rfl := Option.some.inj he
          exact ⟨hgone, hscope⟩
        rw [hts, hus', h.new_of_isLone hcs hpre hlone, new_cons_of_kept hgone, lacksType, hname,
          hlone, List.head?_cons, Option.any_some, Bool.or_eq_true_iff.2 hhead] at hlacks
        cases hlacks
    · simp only [old_cons, spent, hform]
      rw [← old_cons]
      omega

theorem hasExtent_decltype (h : Respects (c :: cs)) (hform : Form.of c.token = .decltype)
    (hus : ts ++ us = c.come ++ new cs) (htype : IsType (c.token :: ts))
    (hspent : spent (c.token :: ts) us ≤ budget) : HasExtent budget (old (c :: cs)) := by
  have hword : c.token.isKeyword "decltype" = true := by
    unfold Form.of at hform
    split at hform
    · cases hform
    · split at hform
      · cases hform
      · split at hform
        · assumption
        · cases hform
  have hopens : opensName c.token = true := by
    rw [Token.isKeyword, Bool.and_eq_true, beq_iff_eq, beq_iff_eq] at hword
    simp [opensName, hword.1, hword.2]
  simp only [IsType, hform] at htype
  simp only [spent, hform, List.length_cons] at hspent
  rw [h.come_eq_nil (endsType_of_opensName hopens), List.nil_append] at hus
  obtain ⟨u, hhead, hparen⟩ := htype.first
  obtain ⟨ts, rfl⟩ := List.head?_eq_some_iff.1 hhead
  cases cs with
  | nil => cases hus
  | cons d cs =>
    have hpre : ∀ t ∈ old [c], opensName t = true := List.forall_mem_cons.2 ⟨hopens, by simp⟩
    have hd : d.gone = false := h.kept_of_opensName rfl hpre
    rw [new_cons_of_kept hd, List.cons_append, List.cons.injEq] at hus
    obtain ⟨rfl, hus⟩ := hus
    have hcome : d.come = [] := by
      refine h.toFits.tail.come_eq_nil ?_
      have hword := isWord_of_isMark hparen
      have hk : d.token.kind ≠ .identifier := fun hk => by simp [Token.isWord, hk] at hword
      rw [Token.isMark, beq_iff_eq] at hparen
      simp [Token.endsType, Token.isBuiltinType, Token.isMark, hparen, hk, hword]
    rw [hcome, List.nil_append] at hus
    have hphrase {ts : List Token} (hts : (Enclosure.operand 1).rest? ts = some []) :
        Phrase (c.token :: d.token :: ts) := .decltype hword hparen hts
    obtain ⟨pre, post, rfl, hpre, rfl⟩ := Enclosure.rest?_old h.toFits.tail.tail
      (fun pre x post hcs hx => h.ending (c :: d :: pre) x post (by rw [hcs]; rfl) (hphrase hx))
      ((isOperand_cons_iff hparen ts).1 htype) hus
    have hcount := h.count (c :: d :: pre) post rfl (hphrase hpre)
    rw [new_cons_of_kept h.first, h.come_eq_nil (endsType_of_opensName hopens), List.nil_append,
      new_cons_of_kept hd, hcome, List.nil_append] at hcount
    have hlength : (old pre).length = pre.length := List.length_map _
    simp only [List.length_cons] at hcount hspent
    refine ⟨c.token :: d.token :: old pre, old post, by simp, ?_, ?_, ?_, ?_⟩
    · simp only [IsType, hform]
      exact (isOperand_cons_iff hparen _).2 hpre
    · simp only [Continues, hform, not_false_eq_true]
    · exact lacksType_cons_of_ne (by simp [hform]) _ _
    · simp only [spent, hform, List.length_cons]
      omega

/-- A type that tokens start with after the change they start with before it, in a way that the
budget suffices for. -/
theorem hasExtent_old (h : Respects cs) (hnew : HasExtent budget (new cs)) :
    HasExtent budget (old cs) := by
  obtain ⟨phrase, us, hcs, htype, hstop, hlacks, hspent⟩ := hnew
  cases phrase with
  | nil => cases htype
  | cons t ts =>
    obtain ⟨c, cs, rfl, -, rfl, hus⟩ := h.exists_cons hcs
    cases hform : Form.of c.token with
    | elaborated => exact hasExtent_elaborated h hform hus.symm htype hstop hspent
    | decltype => exact hasExtent_decltype h hform hus.symm htype hspent
    | name => exact hasExtent_name h hform hcs.symm htype hstop hlacks hspent
    | fundamental =>
      -- the budget plays no part, and what follows only in how far the words go
      have hpos := spent_pos c.token ts us
      obtain ⟨n, rfl⟩ : ∃ n, budget = n + 1 := ⟨budget - 1, by omega⟩
      have hscan : ∃ extent, scan (n + 1) ((c.token, 0) :: (old cs).map (·, 0)) = .ok extent :=
        ⟨_, scan_of_fundamental hform _⟩
      have hmap : ((c.token, 0) :: (old cs).map (·, 0)).map Prod.fst = old (c :: cs) := by
        rw [List.map_cons, List.map_map, old_cons]
        exact congrArg _ (List.map_id _)
      rw [← hmap]
      exact exists_scan_iff.1 hscan

end

end Requalified

end EastConst
