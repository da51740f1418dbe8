import EastConst.Proofs.Plan.Weave
import EastConst.Proofs.Walk

/-!
# Walking the output

The walk over what a plan writes lags behind the walk over the source where a leading qualifier has
gone, and catches up at the type (`Walk.LeadsIn`); it is ahead where a qualifier has come, and waits
for the next token (`Walk.Keeps`). Either way the two agree in their brackets (`Walk.Tracks`). For
that, no qualifier may lead where it is put, and none may come between tokens that are read together
(`Settles`).
-/

namespace EastConst

/-! ## Readers of a source -/

/-- The tokens of a source from an index on, without the end of the input. -/
def tokensFrom (source : List Char) (index : Nat) : List Token :=
  (beforeEnd (tokens source)).drop index

/-- The reader of a source before an index. -/
def readerAt (options : Options) (source : List Char) (index : Nat) : Reader :=
  Reader.run options {} ((beforeEnd (tokens source)).take index)

section

variable {options : Options} {source : List Char} {i k m : Nat} {t : Token} {q : Qualifier}

theorem readerAt_succ (ht : (beforeEnd (tokens source))[i]? = some t) :
    readerAt options source (i + 1) = (readerAt options source i).read options t := by
  rw [readerAt, List.take_add_one, ht, Reader.run_append]
  rfl

theorem tokensFrom_cons (ht : (beforeEnd (tokens source))[i]? = some t) :
    tokensFrom source i = t :: tokensFrom source (i + 1) := by
  obtain ⟨hlt, rfl⟩ := List.getElem?_eq_some_iff.1 ht
  rw [tokensFrom, List.drop_eq_getElem_cons hlt, tokensFrom]

/-- A qualifier of a source is found with the role that the reader before it gives. -/
theorem occurrence_iff {role : Role} :
    (∃ o ∈ occurrences options (tokens source), o.index = i ∧ o.qualifier = q ∧ o.role = role) ↔
      ∃ t w, (beforeEnd (tokens source))[i]? = some t ∧ Qualifier.ofToken? t = some q ∧
        (readerAt options source i).here t = some w ∧ w.role = role := by
  rw [occurrences_eq_found]
  constructor
  · rintro ⟨o, ho, rfl, rfl, rfl⟩
    obtain ⟨pre, t, post, w, hts, hq, hhere, hindex, hrole, -⟩ := Reader.mem_found ho
    rw [Nat.zero_add] at hindex
    refine ⟨t, w, ?_, hq, ?_, hrole.symm⟩
    · rw [hts, hindex]
      simp
    · rw [readerAt, hts, hindex, List.take_left]
      exact hhere
  · rintro ⟨t, w, ht, hq, hhere, rfl⟩
    obtain ⟨hlt, rfl⟩ := List.getElem?_eq_some_iff.1 ht
    have hsplit : (beforeEnd (tokens source)).take i ++
        (beforeEnd (tokens source))[i] :: (beforeEnd (tokens source)).drop (i + 1) =
          beforeEnd (tokens source) := by
      rw [← List.drop_eq_getElem_cons hlt, List.take_append_drop]
    obtain ⟨o, ho, hindex, hoq, hrole⟩ := Reader.exists_mem_found ((tokens source).length - 1) 0
      ((beforeEnd (tokens source)).drop (i + 1)) hq hhere
    rw [hsplit] at ho
    refine ⟨o, ho, ?_, hoq, hrole⟩
    rw [hindex, List.length_take, Nat.min_eq_left (Nat.le_of_lt hlt), Nat.zero_add]

/-- In a directive, types reach to the end of the line. -/
theorem boundary_of_occurrence {o : Occurrence} (ho : o ∈ occurrences options (tokens source)) :
    o.boundary = if (readerAt options source o.index).isOutside then (tokens source).length - 1
      else o.index + ((tokensFrom source o.index).takeWhile (!·.endsLine)).length := by
  rw [occurrences_eq_found] at ho
  obtain ⟨pre, t, post, w, hts, -, -, hindex, -, hboundary⟩ := Reader.mem_found ho
  rw [Nat.zero_add] at hindex
  rw [hboundary, readerAt, tokensFrom, hts, hindex, List.take_left, List.drop_left]

/-- In a directive, no token before the boundary of a qualifier ends the line. -/
theorem onLine_of_occurrence {o : Occurrence} (ho : o ∈ occurrences options (tokens source))
    (hin : (readerAt options source o.index).isOutside = false) (hle : o.index ≤ k)
    (hlt : k < o.boundary) (ht : (beforeEnd (tokens source))[k]? = some t) :
    t.endsLine = false := by
  rw [boundary_of_occurrence ho, hin, if_neg (by simp)] at hlt
  have hget : (tokensFrom source o.index)[k - o.index]? = some t := by
    rw [tokensFrom, List.getElem?_drop, Nat.add_sub_cancel' hle, ht]
  rw [← List.takeWhile_append_dropWhile (p := (!·.endsLine)) (l := tokensFrom source o.index),
    List.getElem?_append_left (by omega)] at hget
  simpa using List.all_eq_true.1 List.all_takeWhile t (List.mem_of_getElem? hget)

/-- The run lemma for what is behind a qualifier: as far as its type can reach, and as long as no
directive starts, one walk comes to every token. What every step keeps holds of that walk. -/
theorem exists_holds_of_occurrence {o : Occurrence} {p : Nat → Walk → Prop}
    (ho : o ∈ occurrences options (tokens source)) (hlt : o.index < k) (hle : k ≤ o.boundary)
    (hhash : ∀ i t, o.index < i → i < k → (tokens source)[i]? = some t → t.isMark .hash = false)
    (hfirst : ∀ w, p (o.index + 1) w)
    (hstep : ∀ i t w, o.index < i → i < k → (tokens source)[i]? = some t → p i w →
      p (i + 1) (w.step options t)) :
    ∃ w, (readerAt options source k).Holds w ∧
      (readerAt options source k).isOutside = (readerAt options source o.index).isOutside ∧
      p k w := by
  obtain ⟨n, rfl⟩ : ∃ n, k = o.index + 1 + n := Nat.exists_eq_add_of_le hlt
  induction n with
  | zero =>
    obtain ⟨t, w, ht, hq, hhere, -⟩ := occurrence_iff.1 ⟨o, ho, rfl, rfl, rfl⟩
    obtain ⟨hholds, hout⟩ :=
      Reader.holds_read options hhere fun _ => Token.endsLine_of_qualifier hq
    rw [← readerAt_succ ht] at hholds hout
    exact ⟨_, hholds, hout, hfirst _⟩
  | succ n ih =>
    obtain ⟨w, hw, hout, hp⟩ := ih (by omega) (by omega)
      (fun i t hi hi' => hhash i t hi (by omega)) fun i t w hi hi' => hstep i t w hi (by omega)
    have hbound := (mem_occurrences_index (tokens_terminated source) ho).2.2
    obtain ⟨t, ht⟩ := exists_getElem?_beforeEnd (i := o.index + 1 + n)
      (Nat.lt_of_lt_of_le hle hbound)
    have ht' := (getElem?_beforeEnd.1 ht).1
    obtain ⟨hholds, hout'⟩ := Reader.holds_read options
      (hw t (hhash (o.index + 1 + n) t (by omega) (by omega) ht')) fun hin =>
        onLine_of_occurrence ho (hout ▸ hin) (by omega) (by omega) ht
    rw [← readerAt_succ ht] at hholds hout'
    exact ⟨_, hholds, hout'.trans hout, hstep (o.index + 1 + n) t w (by omega) (by omega) ht' hp⟩

/-- A qualifier that goes leads in the source, and is to be moved. -/
theorem here_of_removes (hr : (planOf options source).removes m = true)
    (ht : (beforeEnd (tokens source))[m]? = some t) :
    ∃ q w, Qualifier.ofToken? t = some q ∧ (readerAt options source m).here t = some w ∧
      w.role = .leading := by
  obtain ⟨e, -, hmem, he⟩ := exists_group_of_removes hr
  obtain ⟨o, ho, hindex, hrole, -⟩ := he.leading m hmem
  obtain ⟨u, w, hu, hq, hhere, hw⟩ := occurrence_iff.1 ⟨o, ho, hindex, rfl, rfl⟩
  obtain rfl := Option.some.inj (ht.symm.trans hu)
  exact ⟨_, w, hq, hhere, hw.trans hrole⟩

end

/-! ## The next token of a walk -/

namespace Reader

variable {options : Options} {r : Reader} {t : Token} {ts : List Token}

/-- The next significant token that the walk outside directives comes to. -/
def nextOutside (options : Options) : Reader → List Token → Option Token
  | _, [] => none
  | r, t :: ts =>
    if r.isOutside = true ∧ t.isSignificant = true ∧ (r.here t).isSome = true then some t
    else nextOutside options (r.read options t) ts

/-- The next significant token on a line. -/
def nextOnLine (ts : List Token) : Option Token :=
  (ts.takeWhile (!·.endsLine)).find? Token.isSignificant

/-- The next significant token that the walk of a reader comes to. -/
def next? (options : Options) (r : Reader) (ts : List Token) : Option Token :=
  match r.mode with
  | .lineStart | .midLine => nextOutside options r ts
  | .front _ => none
  | .body _ => nextOnLine ts

theorem nextOutside_of_insignificant (h : t.isSignificant = false) :
    nextOutside options r (t :: ts) = nextOutside options (r.read options t) ts := by
  rw [nextOutside, if_neg (by simp [h])]

/-- Tokens of a directive are not met outside it. -/
theorem nextOutside_of_inside (h : r.isOutside = false) :
    nextOutside options r (t :: ts) = nextOutside options (r.read options t) ts := by
  rw [nextOutside, if_neg (by simp [h])]

theorem nextOutside_of_hash (h : r.here t = none) :
    nextOutside options r (t :: ts) = nextOutside options (r.read options t) ts := by
  rw [nextOutside, if_neg (by simp [h])]

theorem nextOutside_of_here (h : r.isOutside = true) (hsig : t.isSignificant = true) {w : Walk}
    (hhere : r.here t = some w) : nextOutside options r (t :: ts) = some t :=
  if_pos ⟨h, hsig, by simp [hhere]⟩

theorem nextOnLine_of_insignificant (h : t.isSignificant = false) (hline : t.endsLine = false) :
    nextOnLine (t :: ts) = nextOnLine ts := by
  rw [nextOnLine, List.takeWhile_cons_of_pos (by simp [hline]),
    List.find?_cons_of_neg (by simp [h])]
  rfl

theorem nextOnLine_of_significant (h : t.isSignificant = true) (hline : t.endsLine = false) :
    nextOnLine (t :: ts) = some t := by
  rw [nextOnLine, List.takeWhile_cons_of_pos (by simp [hline]), List.find?_cons_of_pos h]

end Reader

/-! ## Between a qualifier that goes and its type -/

section

variable {options : Options} {source : List Char} {i k m : Nat} {t : Token} {e : Group × Nat}

/-- Where a token other than the first one leads in to a type, the reader is in no front, and in the
body of a macro the line does not end. -/
theorem InLead.reader (h : InLead options source i) (ht : (beforeEnd (tokens source))[i]? = some t)
    (hk : t.kind = .whitespace) :
    (readerAt options source i).isOutside = true ∨
      t.endsLine = false ∧ ∃ v, (readerAt options source i).mode = .body v := by
  obtain ⟨e, he, m, hm, hmi, hi⟩ := h
  have hmoves := mem_movable (tokens_terminated source) he
  have hstart : e.1.typeStart < e.1.boundary :=
    Nat.lt_of_le_of_lt hmoves.anchored.1 hmoves.anchored.2.1
  have hlt : m < i := by
    refine Nat.lt_of_le_of_ne hmi fun heq => ?_
    obtain ⟨-, u, q, hu, hq⟩ := hmoves.member m hm
    rw [heq, (getElem?_beforeEnd.1 ht).1] at hu
    rw [← Option.some.inj hu] at hq
    rw [Token.kind_of_qualifier hq] at hk
    cases hk
  obtain ⟨o, ho, rfl, -, hboundary, -⟩ := hmoves.leading m hm
  -- the tokens up to the type lead in to it, so no directive starts there
  obtain ⟨w, hw, hout, -⟩ := exists_holds_of_occurrence (p := fun _ _ => True) ho hlt (by omega)
    (fun n u hn hn' hu => Token.isMark_of_isLeadIn
      (hmoves.isLeadIn hm (Nat.le_of_lt hn) (Nat.lt_of_lt_of_le hn' hi) hu) _)
    (fun _ => trivial) fun _ _ _ _ _ _ _ => trivial
  cases hin : (readerAt options source i).isOutside with
  | true => exact .inl rfl
  | false =>
    have hline := onLine_of_occurrence ho (hout ▸ hin) (Nat.le_of_lt hlt) (by omega) ht
    exact .inr ⟨hline, hw.exists_body hin⟩

end

/-! ## Moves that settle -/

/-- Whether a qualifier that is put where a reader stands would lead, or would be taken for a part
of the front of a directive. -/
def Reader.unsettles (r : Reader) : Bool :=
  match r.mode with
  | .lineStart | .midLine => r.walk.role == .leading
  | .front .hash | .front .define | .front .name => true
  | .front _ => false
  | .body v => v.role == .leading

/-- Whether the token at an index is read together with the next one that the walk behind it comes
to. -/
def joinsNext (options : Options) (source : List Char) (index : Nat) : Bool :=
  (tokens source)[index]?.any fun t =>
    ((readerAt options source (index + 1)).next? options (tokensFrom source (index + 1))).any
      t.joins

/-- Every qualifier that moves comes to where it does not lead and is not taken for the front of a
directive. It comes between no two tokens that a walk reads together, and no raw string comes to be
opened. -/
structure Settles (options : Options) (source : List Char) : Prop where
  role : ∀ m ∈ (planOf options source).moves,
    (readerAt options source (m.anchor + 1)).unsettles = false
  apart : ∀ m ∈ (planOf options source).moves, joinsNext options source m.anchor = false
  openings : ∀ k, KeepsOpening options source k

/-! ## Walks -/

section

variable {options : Options} {source : List Char} {i : Nat} {t : Token} {q : Qualifier}
  {w v : Walk} {next : Option Token}

/-- The walks over the source and over the output are the same, or qualifiers have come in the
output that do not lead, and the next token takes no notice of them. -/
inductive Walk.Keeps (next : Option Token) : Walk → Walk → Prop
  | same (w : Walk) : Keeps next w w
  | trailing {w v : Walk} {role : Role} (hagrees : Walk.Agrees w v) (hrole : role ≠ .leading)
    (hv : v.preceding = .qualifier role)
    (hnext : ∀ u, next = some u → Walk.LastAlike w v u) : Keeps next w v

theorem Walk.Keeps.agrees (h : Keeps next w v) : Agrees w v := by
  cases h with
  | same => exact ⟨rfl, rfl⟩
  | trailing hagrees => exact hagrees

/-- Walks that agree in their brackets start a macro's body alike. -/
theorem Walk.Agrees.enterBody (h : Agrees w v) : w.enterBody = v.enterBody := by
  rw [Walk.enterBody, Walk.enterBody, h.nesting]

/-- The brackets that a directive closes are closed for both walks. -/
theorem Walk.Keeps.withNesting (h : Keeps next w v) (n : Nesting) :
    Keeps next { w with nesting := n } { v with nesting := n } := by
  cases h with
  | same => exact .same _
  | trailing hagrees hrole hv hnext =>
    refine .trailing ⟨rfl, hagrees.trailingReturn⟩ hrole hv fun u hu => ?_
    have halike := hnext u hu
    exact ⟨halike.decltype, halike.linkage, halike.square, halike.angle, halike.arrow⟩

theorem Walk.role_ne_of_preceding {role : Role} (h : v.preceding = .qualifier role)
    (hrole : role ≠ .leading) : v.role ≠ .leading := by
  rw [Walk.role, h, Role.decide]
  split
  · simp
  · exact hrole

/-- A leading qualifier has gone, and its type has not been met. -/
structure Walk.LeadsIn (options : Options) (source : List Char) (i : Nat) (w v : Walk) : Prop where
  agrees : Agrees w v
  role : w.role = .leading
  lead : ∃ e ∈ movable options (tokens source), ∃ m ∈ e.1.members, m < i ∧ i ≤ e.1.typeStart

theorem Walk.LeadsIn.inLead (h : LeadsIn options source i w v) : InLead options source i := by
  obtain ⟨e, he, m, hm, hmi, hi⟩ := h.lead
  exact ⟨e, he, m, hm, Nat.le_of_lt hmi, hi⟩

/-- How the walk over the source before an index and the walk over what is written for it
compare. -/
def Walk.Tracks (options : Options) (source : List Char) (i : Nat) (next : Option Token)
    (w v : Walk) : Prop :=
  Keeps next w v ∨ LeadsIn options source i w v

namespace Walk.Tracks

theorem agrees (h : Tracks options source i next w v) : Agrees w v := by
  rcases h with h | h
  · exact h.agrees
  · exact h.agrees

/-- Whitespace and comments leave two walks as they are. -/
theorem insignificant (h : Tracks options source i next w v) (ht : (tokens source)[i]? = some t)
    (hsig : t.isSignificant = false) : Tracks options source (i + 1) next w v := by
  refine h.imp_right fun h => ⟨h.agrees, h.role, ?_⟩
  obtain ⟨e, he, m, hm, hmi, hi⟩ := h.lead
  exact ⟨e, he, m, hm, Nat.lt_succ_of_lt hmi, lt_typeStart he ht hsig hi⟩

/-- A qualifier that goes is walked over in the source only. -/
theorem removed (h : Tracks options source i next w v) (hq : Qualifier.ofToken? t = some q)
    (hw : w.role = .leading) (hr : (planOf options source).removes i = true) :
    LeadsIn options source (i + 1) (w.step options t) v := by
  obtain ⟨e, he, hmem, hmoves⟩ := exists_group_of_removes hr
  exact ⟨(agrees_step_qualifier hq).symm.trans h.agrees, (role_step_qualifier hq).trans hw,
    e, he, i, hmem, Nat.lt_succ_self i, (hmoves.member i hmem).1⟩

/-- A qualifier that stays, and that leads in the output and is to be moved, is met by walks that
are the same. -/
theorem kept (h : Tracks options source i next w v) (ht : (beforeEnd (tokens source))[i]? = some t)
    (hq : Qualifier.ofToken? t = some q) (hhere : (readerAt options source i).here t = some w)
    (hr : (planOf options source).removes i = false) :
    (options.relocates q = true → v.role = .leading → w = v) ∧
      ∀ next', Tracks options source (i + 1) next' (w.step options t) (v.step options t) := by
  rcases h with h | h
  · cases h with
    | same => exact ⟨fun _ _ => rfl, fun _ => .inl (.same _)⟩
    | trailing hagrees hrole hv _ =>
      refine ⟨fun _ hlead => absurd hlead (role_ne_of_preceding hv hrole), fun _ => .inl ?_⟩
      have hstep (x : Walk) :
          x.step options t = { x with preceding := .qualifier x.role, last := some t } :=
        step_qualifier hq
      refine .trailing ?_ (role_ne_of_preceding hv hrole) (by rw [hstep]) fun u _ => .of_eq ?_ u
      · exact (agrees_step_qualifier hq).symm.trans (hagrees.trans (agrees_step_qualifier hq))
      · rw [hstep, hstep]
  · obtain ⟨e, he, m, hm, hmi, hi⟩ := h.lead
    have hmoves := mem_movable (tokens_terminated source) he
    have hi' : i < e.1.typeStart := by
      refine Nat.lt_of_le_of_ne hi fun heq => ?_
      obtain ⟨u, hu, -, hlead⟩ := hmoves.type
      rw [← heq, (getElem?_beforeEnd.1 ht).1] at hu
      obtain rfl := Option.some.inj hu
      simp [Token.isLeadIn, hq] at hlead
    refine ⟨fun hrel _ => ?_,
      fun _ => .inr ⟨?_, (role_step_qualifier hq).trans h.role, e, he, m, hm,
      Nat.lt_succ_of_lt hmi, hi'⟩⟩
    · -- a group has all leading qualifiers that are to be moved, so this one goes with it
      obtain ⟨o, ho, rfl, rfl, hrole⟩ := occurrence_iff.2 ⟨t, w, ht, hq, hhere, h.role⟩
      have hmem := hmoves.complete m hm o ho (Nat.le_of_lt hmi) hi' hrole hrel
      rw [(Plan.ofTokens_removes_iff (tokens_terminated source)).2 ⟨e, he, hmem⟩] at hr
      cases hr
    · exact (agrees_step_qualifier hq).symm.trans (h.agrees.trans (agrees_step_qualifier hq))

/-- The walks are the same after a token that is no qualifier. -/
theorem step_eq (h : Tracks options source i (some t) w v) (ht : (tokens source)[i]? = some t)
    (hsig : t.isSignificant = true) (hq : Qualifier.ofToken? t = none) :
    w.step options t = v.step options t := by
  rcases h with h | h
  · cases h with
    | same => rfl
    | trailing hagrees _ _ hnext => exact step_congr hagrees (hnext t rfl) hsig hq
  · obtain ⟨e, he, m, hm, hmi, hi⟩ := h.lead
    have hmoves := mem_movable (tokens_terminated source) he
    refine step_congr h.agrees (.of_startsType ?_) hsig hq
    rcases Nat.eq_or_lt_of_le hi with rfl | hlt
    · obtain ⟨u, hu, hstart, -⟩ := hmoves.type
      obtain rfl := Option.some.inj (ht.symm.trans hu)
      exact hstart
    · have hlead := hmoves.isLeadIn hm (Nat.le_of_lt hmi) hlt ht
      have htrivia : t.isTrivia = false := by
        rw [Token.isSignificant, Bool.and_eq_true, Bool.not_eq_true'] at hsig
        exact hsig.1
      rw [Token.isLeadIn, htrivia, hq, Bool.false_or, Option.isSome_none, Bool.false_or] at hlead
      cases hk : t.kind <;> simp [Token.isTypePrefix, Token.startsType, Token.isWord, hk] at hlead ⊢

end Walk.Tracks

end

end EastConst
