import EastConst.Proofs.Group

/-!
# What a plan leaves in the gaps

`Plan.Shape` lists the three ways in which a plan changes white space. `Plan.Settled` says what
holds of a plan once the gaps of all qualifiers before an index are closed: where nothing is left of
a gap, the tokens around it stand apart. `ofTokens_settled` is the run lemma: it holds of the whole
plan.
-/

namespace EastConst.Plan

section

variable {tokens : List Token} {p : Plan}

@[simp]
theorem setSpace_moves (k : Nat) (x : List Char) : (p.setSpace k x).moves = p.moves := rfl

@[simp]
theorem setSpace_padded (k : Nat) (x : List Char) : (p.setSpace k x).padded = p.padded := rfl

@[simp]
theorem setSpace_removes (k : Nat) (x : List Char) (m : Nat) :
    (p.setSpace k x).removes m = p.removes m := rfl

theorem setSpace_get? (k : Nat) (x : List Char) (j : Nat) :
    (p.setSpace k x).spaces.get? j = if j = k then some x else p.spaces.get? j :=
  IndexMap.get?_insert _ _ _ _

/-! ## What closing a gap does -/

/-- The ways in which closing the gap of the qualifier at `m` writes a text at an index. -/
inductive Writes (tokens : List Token) (p : Plan) (m : Nat) : Nat → List Char → Prop
  /-- The blanks after the qualifier go. -/
  | drop {t : Token} (ht : tokens[m + 1]? = some t) (hs : t.isHorizontalSpace = true) :
    Writes tokens p m (m + 1) []
  /-- The blanks before the qualifier go, back to the last line break. -/
  | trim {k : Nat} {t u : Token} (hm : m = k + 1) (ht : tokens[k]? = some t)
    (hk : t.kind = .whitespace) (hlen : (throughLastLine t.text).length < t.text.length)
    (hnone : p.spaces.get? k = none) (hu : tokens[m + 1]? = some u) (hku : u.kind = .whitespace)
    (hsu : u.isHorizontalSpace = false) : Writes tokens p m k (throughLastLine t.text)
  /-- A space stays in place of the qualifier. -/
  | keep {t : Token} (ht : tokens[m + 1]? = some t) (hk : t.kind ≠ .whitespace) :
    Writes tokens p m m [' ']

/-- A gap with blanks behind it is closed by dropping them. -/
theorem closeGap_of_horizontalSpace {m : Nat} {t : Token} (ht : tokens[m + 1]? = some t)
    (hs : t.isHorizontalSpace = true) : p.closeGap tokens m = p.dropSpaceAfter tokens m := by
  simp [closeGap, ht, hs]

/-- A gap at the end of a line is closed by trimming the blanks before it. -/
theorem closeGap_of_break {m : Nat} {t : Token} (ht : tokens[m + 1]? = some t)
    (hk : t.kind = .whitespace) (hs : t.isHorizontalSpace = false) :
    p.closeGap tokens m = p.trimSpaceBefore tokens m := by
  simp [closeGap, ht, hk, hs]

/-- A gap with a token right behind it is closed by keeping what comes to touch apart. -/
theorem closeGap_of_solid {m : Nat} {t : Token} (ht : tokens[m + 1]? = some t)
    (hk : t.kind ≠ .whitespace) : p.closeGap tokens m = p.keepApart tokens m := by
  have hs : t.isHorizontalSpace = false := by
    simp [Token.isHorizontalSpace, hk]
  simp [closeGap, ht, hk, hs]

/-- Closing a gap writes at most one text. -/
theorem closeGap_cases (tokens : List Token) (p : Plan) (m : Nat) :
    p.closeGap tokens m = p ∨
      ∃ k x, p.closeGap tokens m = p.setSpace k x ∧ Writes tokens p m k x := by
  cases hnext : tokens[m + 1]? with
  | none => exact .inl (by simp [closeGap, hnext])
  | some next =>
    by_cases hk : next.kind = .whitespace
    · cases hs : next.isHorizontalSpace with
      | true =>
        rw [closeGap_of_horizontalSpace hnext hs, dropSpaceAfter]
        split
        · split
          · exact .inr ⟨_, _, rfl, .drop hnext hs⟩
          · exact .inl rfl
        · exact .inr ⟨_, _, rfl, .drop hnext hs⟩
      | false =>
        rw [closeGap_of_break hnext hk hs]
        unfold trimSpaceBefore
        split
        · exact .inl rfl
        · split
          · exact .inl rfl
          · rename_i t ht
            dsimp only
            split
            · rename_i hc
              obtain ⟨hkt, hcont, hlen⟩ := hc
              rw [IndexMap.contains_eq_isSome_get?] at hcont
              exact .inr ⟨_, _, rfl, .trim rfl ht hkt hlen (by simpa using hcont) hnext hk hs⟩
            · exact .inl rfl
    · rw [closeGap_of_solid hnext hk, keepApart]
      split
      · exact .inl rfl
      · split
        · exact .inl rfl
        · exact .inr ⟨_, _, rfl, .keep hnext hk⟩

/-! ## Survivors -/

theorem isGone_congr {q : Plan} {k : Nat} (hs : q.spaces.get? k = p.spaces.get? k)
    (hr : q.removes k = p.removes k) : q.isGone k = p.isGone k := by
  simp only [isGone, hs, hr]

theorem survivorBefore?_congr {q : Plan} {m : Nat} (h : ∀ k < m, q.isGone k = p.isGone k) :
    q.survivorBefore? m = p.survivorBefore? m := by
  induction m with
  | zero => rfl
  | succ m ih =>
    rw [survivorBefore?, survivorBefore?, h m (Nat.lt_succ_self m),
      ih fun k hk => h k (Nat.lt_succ_of_lt hk)]

/-- What is left before a token is the last one before it that is not gone. -/
theorem survivorBefore?_eq_some_iff {m left : Nat} :
    p.survivorBefore? m = some left ↔
      left < m ∧ p.isGone left = false ∧ ∀ k, left < k → k < m → p.isGone k = true := by
  induction m with
  | zero => simp [survivorBefore?]
  | succ m ih =>
    rw [survivorBefore?]
    cases hm : p.isGone m with
    | true =>
      rw [if_pos rfl, ih]
      constructor
      · rintro ⟨hlt, hg, hall⟩
        refine ⟨by omega, hg, fun k hk hk' => ?_⟩
        by_cases hkm : k = m
        · rw [hkm, hm]
        · exact hall k hk (by omega)
      · rintro ⟨hlt, hg, hall⟩
        have hne : left ≠ m := by rintro rfl; simp [hm] at hg
        exact ⟨by omega, hg, fun k hk hk' => hall k hk (by omega)⟩
    | false =>
      rw [if_neg (by simp), Option.some.injEq]
      constructor
      · rintro rfl
        exact ⟨by omega, hm, fun k hk hk' => by omega⟩
      · rintro ⟨hlt, hg, hall⟩
        refine Decidable.byContradiction fun hne => ?_
        simp [hall m (by omega) (by omega)] at hm

theorem standApart_congr {q : Plan} {left right : Nat}
    (h : q.spaces.get? left = p.spaces.get? left) :
    q.standApart tokens left right = p.standApart tokens left right := by
  simp only [standApart, IndexMap.contains_eq_isSome_get?, h]

/-! ## Plans whose gaps are closed -/

/-- The ways in which a plan changes the text at an index. -/
inductive Shape (tokens : List Token) (p : Plan) : Nat → List Char → Prop
  | drop {m : Nat} {t : Token} (hm : p.removes m = true) (ht : tokens[m + 1]? = some t)
    (hs : t.isHorizontalSpace = true) : Shape tokens p (m + 1) []
  | trim {k : Nat} {t u : Token} (hm : p.removes (k + 1) = true) (ht : tokens[k]? = some t)
    (hk : t.kind = .whitespace) (hlen : (throughLastLine t.text).length < t.text.length)
    (hu : tokens[k + 2]? = some u) (hku : u.kind = .whitespace)
    (hsu : u.isHorizontalSpace = false) : Shape tokens p k (throughLastLine t.text)
  | keep {m : Nat} {t : Token} (hm : p.removes m = true) (ht : tokens[m + 1]? = some t)
    (hk : t.kind ≠ .whitespace) : Shape tokens p m [' ']

/-- What closing a gap writes has one of the shapes of settled whitespace. -/
theorem Writes.shape {m k : Nat} {x : List Char} (h : Writes tokens p m k x)
    (hm : p.removes m = true) : Shape tokens p k x := by
  cases h with
  | drop ht hs => exact .drop hm ht hs
  | trim he ht hk hlen _ hu hku hsu =>
    subst he
    exact .trim hm ht hk hlen hu hku hsu
  | keep ht hk => exact .keep hm ht hk

theorem Shape.mono {q : Plan} {k : Nat} {x : List Char} (h : Shape tokens p k x)
    (hr : ∀ j, p.removes j = true → q.removes j = true) : Shape tokens q k x := by
  cases h with
  | drop hm ht hs => exact .drop (hr _ hm) ht hs
  | trim hm ht hk hlen hu hku hsu => exact .trim (hr _ hm) ht hk hlen hu hku hsu
  | keep hm ht hk => exact .keep (hr _ hm) ht hk

/-- What holds of a plan once the gaps of the qualifiers before the index `n` are closed. -/
structure Settled (tokens : List Token) (p : Plan) (n : Nat) : Prop where
  shape : ∀ k x, p.spaces.get? k = some x → Shape tokens p k x
  /-- Where blanks after a qualifier are dropped, what comes to touch stands apart. -/
  dropped : ∀ m t left, m < n → p.removes m = true → tokens[m + 1]? = some t →
    t.isHorizontalSpace = true → p.spaces.get? (m + 1) = some [] → p.removes (m + 2) = false →
    p.survivorBefore? m = some left → p.standApart tokens left (m + 2) = true
  /-- Where nothing stays in place of a qualifier, what comes to touch stands apart. -/
  joined : ∀ m t left, m < n → p.removes m = true → tokens[m + 1]? = some t →
    t.kind ≠ .whitespace → p.spaces.get? m = none →
    p.survivorBefore? m = some left → p.standApart tokens left (m + 1) = true
  /-- Blanks before a qualifier at the end of its line are gone. -/
  trimmed : ∀ k t u, k + 1 < n → p.removes (k + 1) = true → tokens[k + 2]? = some u →
    u.kind = .whitespace → u.isHorizontalSpace = false → tokens[k]? = some t →
    t.kind = .whitespace → p.spaces.get? k = none →
      ¬ (throughLastLine t.text).length < t.text.length

/-- Closing a gap writes at the qualifier or right beside it. -/
theorem Writes.le {m k : Nat} {x : List Char} (h : Writes tokens p m k x) :
    m ≤ k + 1 ∧ k ≤ m + 1 := by
  cases h with
  | drop => omega
  | trim he => omega
  | keep => omega

theorem Writes.le_of_not_break {m k : Nat} {x : List Char} {t : Token} (h : Writes tokens p m k x)
    (ht : tokens[m + 1]? = some t) (hb : t.kind = .whitespace → t.isHorizontalSpace = true) :
    m ≤ k := by
  cases h with
  | drop => omega
  | trim _ _ _ _ _ hu hku hsu =>
    obtain rfl := Option.some.inj (ht.symm.trans hu)
    simp [hb hku] at hsu
  | keep => omega

/-- Whether nothing is written beyond an index. -/
def WritesUpTo (p : Plan) (n : Nat) : Prop :=
  ∀ k x, p.spaces.get? k = some x → k ≤ n

section Step

variable {n left : Nat} {t : Token}

/-- A text that is written at `k` or beyond changes no survivor before `k`. -/
theorem survivorBefore?_setSpace {m k : Nat} (x : List Char) (h : m ≤ k) :
    (p.setSpace k x).survivorBefore? m = p.survivorBefore? m := by
  refine survivorBefore?_congr fun j hj => isGone_congr ?_ rfl
  rw [setSpace_get?, if_neg (by omega)]

theorem standApart_setSpace {k left right : Nat} (x : List Char) (h : left ≠ k) :
    (p.setSpace k x).standApart tokens left right = p.standApart tokens left right := by
  refine standApart_congr ?_
  rw [setSpace_get?, if_neg h]

theorem get?_of_setSpace_eq_none {k j : Nat} {x : List Char}
    (h : (p.setSpace k x).spaces.get? j = none) : p.spaces.get? j = none := by
  rw [setSpace_get?] at h
  split at h
  · cases h
  · exact h

/-- What is written in the gap at `n` leaves the gaps before it settled. -/
theorem Settled.of_writes {k : Nat} {x : List Char} (h : Settled tokens p n)
    (hn : p.removes n = true) (hw : Writes tokens p n k x) : Settled tokens (p.setSpace k x) n := by
  have hle := hw.le
  refine ⟨fun j y hy => ?_, fun m t left hm hr ht hs hd hr2 hleft => ?_,
    fun m t left hm hr ht hk hnone hleft => ?_, fun j t u hj hr hu hku hsu ht hk hnone => ?_⟩
  · rw [setSpace_get?] at hy
    split at hy
    · rename_i hjk
      obtain rfl := Option.some.inj hy
      subst hjk
      exact (hw.shape hn).mono fun _ => id
    · exact (h.shape j y hy).mono fun _ => id
  · rw [survivorBefore?_setSpace x (by omega)] at hleft
    have hlt := (survivorBefore?_eq_some_iff.1 hleft).1
    rw [standApart_setSpace x (by omega)]
    refine h.dropped m t left hm hr ht hs ?_ hr2 hleft
    rw [setSpace_get?] at hd
    split at hd
    · -- what is written at `m + 1` now is not the text that was dropped there
      rename_i hmk
      cases hw with
      | drop => omega
      | trim he =>
        obtain rfl : n = m + 2 := by omega
        exact absurd hn (by simpa using hr2)
      | keep => simp at hd
    · exact hd
  · rw [survivorBefore?_setSpace x (by omega)] at hleft
    have hlt := (survivorBefore?_eq_some_iff.1 hleft).1
    rw [standApart_setSpace x (by omega)]
    exact h.joined m t left hm hr ht hk (get?_of_setSpace_eq_none hnone) hleft
  · exact h.trimmed j t u hj hr hu hku hsu ht hk (get?_of_setSpace_eq_none hnone)

theorem survivorAfter?_self {start : Nat} (hb : p.WritesUpTo n) (hn : n < start)
    (hr : p.removes start = false) (hp : p.removes (start - 1) = false)
    (ht : tokens[start]? = some t) : p.survivorAfter? tokens start = some start := by
  obtain ⟨hlt, rfl⟩ := List.getElem?_eq_some_iff.1 ht
  have hget : p.spaces.get? start = none := by
    cases hx : p.spaces.get? start with
    | none => rfl
    | some x => have := hb _ _ hx; omega
  rw [survivorAfter?, List.drop_eq_getElem_cons hlt, survivorFrom?]
  simp [isGone, isPending, hget, hr, hp]

/-- Where blanks are dropped, what comes to touch may do so. -/
theorem standApart_of_dropped (hb : p.WritesUpTo n) (ht : tokens[n + 1]? = some t)
    (hs : t.isHorizontalSpace = true) (hr : p.removes (n + 1) = false)
    (hd : (p.closeGap tokens n).spaces.get? (n + 1) = some []) (hr2 : p.removes (n + 2) = false)
    (hleft : p.survivorBefore? n = some left) : p.standApart tokens left (n + 2) = true := by
  cases hright : tokens[n + 2]? with
  | none => simp [standApart, hright]
  | some u =>
    have hafter := survivorAfter?_self hb (by omega : n < n + 2) hr2 hr hright
    have hget : p.spaces.get? (n + 1) ≠ some [] := fun hx => by have := hb _ _ hx; omega
    rw [closeGap_of_horizontalSpace ht hs] at hd
    simp only [dropSpaceAfter, hleft, hafter] at hd
    split at hd
    · assumption
    · exact absurd hd hget

/-- Where nothing is written for a qualifier, what comes to touch may do so. -/
theorem standApart_of_joined (ht : tokens[n + 1]? = some t) (hk : t.kind ≠ .whitespace)
    (hnone : (p.closeGap tokens n).spaces.get? n = none) (hleft : p.survivorBefore? n = some left) :
    p.standApart tokens left (n + 1) = true := by
  rw [closeGap_of_solid ht hk] at hnone
  simp only [keepApart, hleft] at hnone
  split at hnone
  · assumption
  · simp [setSpace_get?] at hnone

theorem not_length_lt_of_trimmed {k : Nat} {u : Token} (hu : tokens[k + 2]? = some u)
    (hku : u.kind = .whitespace) (hsu : u.isHorizontalSpace = false) (ht : tokens[k]? = some t)
    (hk : t.kind = .whitespace) (hnone : (p.closeGap tokens (k + 1)).spaces.get? k = none) :
    ¬ (throughLastLine t.text).length < t.text.length := by
  intro hlen
  rw [closeGap_of_break hu hku hsu] at hnone
  simp only [trimSpaceBefore, ht, hk, hlen, true_and, and_true] at hnone
  split at hnone
  · simp [setSpace_get?] at hnone
  · rename_i hcont
    simp [IndexMap.contains_eq_isSome_get?, hnone] at hcont

/-- The step lemma: closing a gap settles it. -/
theorem Settled.closeGap (h : Settled tokens p n) (hb : p.WritesUpTo n)
    (hq : ∀ m t, p.removes m = true → tokens[m]? = some t → t.kind ≠ .whitespace)
    (hn : p.removes n = true) :
    Settled tokens (p.closeGap tokens n) (n + 1) ∧ (p.closeGap tokens n).WritesUpTo (n + 1) := by
  have hold : Settled tokens (p.closeGap tokens n) n ∧ (p.closeGap tokens n).WritesUpTo (n + 1) ∧
      (∀ m, (p.closeGap tokens n).removes m = p.removes m) := by
    rcases closeGap_cases tokens p n with he | ⟨k, x, he, hw⟩
    · rw [he]
      exact ⟨h, fun k x hx => Nat.le_succ_of_le (hb k x hx), fun _ => rfl⟩
    · rw [he]
      refine ⟨h.of_writes hn hw, fun j y hy => ?_, fun _ => rfl⟩
      rw [setSpace_get?] at hy
      split at hy
      · have := hw.le
        omega
      · exact Nat.le_succ_of_le (hb j y hy)
  -- where no line break follows, the survivor before the gap is what it was
  have hleft {t : Token} (ht : tokens[n + 1]? = some t)
      (hbr : t.kind = .whitespace → t.isHorizontalSpace = true) {left right : Nat}
      (hl : (p.closeGap tokens n).survivorBefore? n = some left) :
      p.survivorBefore? n = some left ∧
        (p.closeGap tokens n).standApart tokens left right = p.standApart tokens left right := by
    rcases closeGap_cases tokens p n with he | ⟨k, x, he, hw⟩
    · rw [he] at hl ⊢
      exact ⟨hl, rfl⟩
    · have hk := hw.le_of_not_break ht hbr
      rw [he] at hl ⊢
      rw [survivorBefore?_setSpace x hk] at hl
      have := (survivorBefore?_eq_some_iff.1 hl).1
      exact ⟨hl, standApart_setSpace x (by omega)⟩
  obtain ⟨hset, hup, hrem⟩ := hold
  refine ⟨⟨hset.shape, fun m t left hm hr ht hs hd hr2 hl => ?_,
    fun m t left hm hr ht hk hnone hl => ?_, fun k t u hk' hr hu hku hsu ht hk hnone => ?_⟩, hup⟩
  · by_cases hmn : m < n
    · exact hset.dropped m t left hmn hr ht hs hd hr2 hl
    · obtain rfl : m = n := by omega
      obtain ⟨hl', heq⟩ := hleft ht (fun _ => hs) hl
      rw [heq]
      have hr1 : p.removes (m + 1) = false := Bool.eq_false_iff.2 fun hr1 =>
        hq _ t hr1 ht (Token.kind_of_isHorizontalSpace hs)
      exact standApart_of_dropped hb ht hs hr1 hd (hrem _ ▸ hr2) hl'
  · by_cases hmn : m < n
    · exact hset.joined m t left hmn hr ht hk hnone hl
    · obtain rfl : m = n := by omega
      obtain ⟨hl', heq⟩ := hleft ht (fun hk' => absurd hk' hk) hl
      rw [heq]
      exact standApart_of_joined ht hk hnone hl'
  · by_cases hkn : k + 1 < n
    · exact hset.trimmed k t u hkn hr hu hku hsu ht hk hnone
    · obtain rfl : n = k + 1 := by omega
      exact not_length_lt_of_trimmed hu hku hsu ht hk hnone

/-- Moves from `n` on change nothing about the gaps before `n`. -/
theorem Settled.mono {q : Plan} (h : Settled tokens p n) (hs : q.spaces = p.spaces)
    (hr : ∀ k < n, q.removes k = p.removes k)
    (hr' : ∀ k, p.removes k = true → q.removes k = true) : Settled tokens q n := by
  have hfalse {k : Nat} (h : q.removes k = false) : p.removes k = false :=
    Bool.eq_false_iff.2 fun hk => by simp [hr' k hk] at h
  have hbefore {m : Nat} (hm : m < n) : q.survivorBefore? m = p.survivorBefore? m :=
    survivorBefore?_congr fun k hk => isGone_congr (by rw [hs]) (hr k (by omega))
  have hapart {left right : Nat} :
      q.standApart tokens left right = p.standApart tokens left right :=
    standApart_congr (by rw [hs])
  refine ⟨fun k x hx => ?_, fun m t left hm hrm ht hst hd hr2 hl => ?_,
    fun m t left hm hrm ht hk hnone hl => ?_, fun k t u hk' hrm hu hku hsu ht hk hnone => ?_⟩
  · rw [hs] at hx
    exact (h.shape k x hx).mono hr'
  · rw [hs] at hd
    rw [hapart]
    exact h.dropped m t left hm (hr m hm ▸ hrm) ht hst hd (hfalse hr2) (hbefore hm ▸ hl)
  · rw [hs] at hnone
    rw [hapart]
    exact h.joined m t left hm (hr m hm ▸ hrm) ht hk hnone (hbefore hm ▸ hl)
  · rw [hs] at hnone
    exact h.trimmed k t u hk' (hr _ hk' ▸ hrm) hu hku hsu ht hk hnone

/-- Where no qualifier is taken away, there is nothing to settle. -/
theorem Settled.advance {stop : Nat} (h : Settled tokens p n)
    (hr : ∀ k, n ≤ k → p.removes k = true → stop ≤ k) : Settled tokens p stop := by
  have hlt {m : Nat} (hm : m < stop) (hrm : p.removes m = true) : m < n :=
    Nat.lt_of_not_le fun hle => by have := hr m hle hrm; omega
  exact ⟨h.shape, fun m t left hm hrm => h.dropped m t left (hlt hm hrm) hrm,
    fun m t left hm hrm => h.joined m t left (hlt hm hrm) hrm,
    fun k t u hk hrm => h.trimmed k t u (hlt hk hrm) hrm⟩

theorem closeGap_moves (m : Nat) : (p.closeGap tokens m).moves = p.moves := by
  rcases closeGap_cases tokens p m with he | ⟨k, x, he, -⟩ <;> rw [he]
  rfl

theorem closeGap_padded (m : Nat) : (p.closeGap tokens m).padded = p.padded := by
  rcases closeGap_cases tokens p m with he | ⟨k, x, he, -⟩ <;> rw [he]
  rfl

theorem closeGap_removes (m k : Nat) : (p.closeGap tokens m).removes k = p.removes k := by
  simp only [removes, closeGap_moves]

/-- Closing the gaps of a group's members, one after another, settles the plan up to its type. -/
theorem Settled.foldl_closeGap {ms : List Nat} {stop : Nat} (h : Settled tokens p n)
    (hb : p.WritesUpTo n)
    (hq : ∀ m t, p.removes m = true → tokens[m]? = some t → t.kind ≠ .whitespace)
    (hasc : ms.Pairwise (· < ·)) (hms : ∀ m ∈ ms, n ≤ m ∧ m < stop) (hle : n ≤ stop)
    (hmem : ∀ k, n ≤ k → (p.removes k = true ↔ k ∈ ms)) :
    Settled tokens (ms.foldl (fun p m => p.closeGap tokens m) p) stop ∧
      (ms.foldl (fun p m => p.closeGap tokens m) p).WritesUpTo stop := by
  induction ms generalizing p n with
  | nil =>
    refine ⟨h.advance fun k hk hr => ?_, fun k x hx => Nat.le_trans (hb k x hx) hle⟩
    exact absurd ((hmem k hk).1 hr) (by simp)
  | cons m ms ih =>
    obtain ⟨hlater, hasc⟩ := List.pairwise_cons.1 hasc
    obtain ⟨hnm, hmstop⟩ := hms m List.mem_cons_self
    have hrm : p.removes m = true := (hmem m hnm).2 List.mem_cons_self
    have hreach : Settled tokens p m := h.advance fun k hk hr => by
      rcases List.mem_cons.1 ((hmem k hk).1 hr) with rfl | hk'
      · exact Nat.le_refl _
      · exact Nat.le_of_lt (hlater k hk')
    obtain ⟨hset, hup⟩ :=
      hreach.closeGap (fun k x hx => Nat.le_trans (hb k x hx) hnm) hq hrm
    refine ih hset hup (fun k t hr => hq k t (closeGap_removes m k ▸ hr)) hasc
      (fun k hk => ⟨hlater k hk, (hms k (List.mem_cons_of_mem _ hk)).2⟩) hmstop fun k hk => ?_
    rw [closeGap_removes, hmem k (by omega), List.mem_cons, or_iff_right (by omega)]

end Step

end

/-! ## The plan of all groups -/

section

variable {options : Options} {tokens : List Token} {p : Plan}

/-- The moves of a group: its members that are qualifiers, to one anchor. -/
theorem mem_movesTo {anchor : Nat} {members : List Nat} {m : Move} :
    m ∈ movesTo tokens anchor members ↔
      m.index ∈ members ∧ m.anchor = anchor ∧
        tokens[m.index]?.bind Qualifier.ofToken? = some m.qualifier := by
  unfold movesTo
  rw [List.mem_filterMap]
  constructor
  · rintro ⟨k, hk, he⟩
    obtain ⟨q, hq, rfl⟩ := Option.map_eq_some_iff.1 he
    exact ⟨hk, rfl, hq⟩
  · rintro ⟨hk, rfl, hq⟩
    exact ⟨m.index, hk, by rw [hq]; rfl⟩

theorem removes_iff {k : Nat} : p.removes k = true ↔ ∃ m ∈ p.moves, m.index = k := by
  simp [removes]

theorem filter_index_eq_nil {k : Nat} (h : p.removes k = false) :
    p.moves.filter (·.index == k) = [] := by
  refine List.filter_eq_nil_iff.2 fun m hm hkey => Bool.eq_false_iff.1 h ?_
  exact removes_iff.2 ⟨m, hm, beq_iff_eq.1 hkey⟩

theorem removes_append {q : Plan} {ms : List Move} {k : Nat} (h : q.moves = p.moves ++ ms) :
    q.removes k = true ↔ p.removes k = true ∨ ∃ m ∈ ms, m.index = k := by
  simp [removes, h]

/-- The moves of qualifiers take away these and no other. -/
theorem removes_movesTo {anchor k : Nat} {members : List Nat}
    (h : ∀ m ∈ members, ∃ t q, tokens[m]? = some t ∧ Qualifier.ofToken? t = some q) :
    (∃ m ∈ movesTo tokens anchor members, m.index = k) ↔ k ∈ members := by
  constructor
  · rintro ⟨m, hm, rfl⟩
    exact (mem_movesTo.1 hm).1
  · intro hk
    obtain ⟨t, q, ht, hq⟩ := h k hk
    exact ⟨⟨k, anchor, q⟩, mem_movesTo.2 ⟨hk, rfl, by rw [ht]; exact hq⟩, rfl⟩

theorem foldl_closeGap_moves (ms : List Nat) :
    (ms.foldl (fun p m => p.closeGap tokens m) p).moves = p.moves := by
  induction ms generalizing p with
  | nil => rfl
  | cons m ms ih => rw [List.foldl_cons, ih, closeGap_moves]

theorem foldl_closeGap_padded (ms : List Nat) :
    (ms.foldl (fun p m => p.closeGap tokens m) p).padded = p.padded := by
  induction ms generalizing p with
  | nil => rfl
  | cons m ms ih => rw [List.foldl_cons, ih, closeGap_padded]

theorem addMoves_moves (options : Options) (tokens : List Token) (p : Plan) (ms : List Nat)
    (anchor : Nat) :
    (p.addMoves options tokens ms anchor).moves = p.moves ++ movesTo tokens anchor ms := by
  unfold addMoves
  dsimp only
  split <;> simp only [foldl_closeGap_moves]

theorem addMoves_padded (options : Options) (tokens : List Token) (p : Plan) (ms : List Nat)
    (anchor : Nat) :
    (p.addMoves options tokens ms anchor).padded =
      if needsPadding options.spacing tokens anchor then
        p.padded.insert anchor () else p.padded := by
  unfold addMoves
  dsimp only
  split <;> simp only [foldl_closeGap_padded]

/-- Of the whitespace, adding a group closes the gaps that its members leave. -/
theorem addMoves_spaces (options : Options) (tokens : List Token) (p : Plan) (ms : List Nat)
    (anchor : Nat) :
    (p.addMoves options tokens ms anchor).spaces =
      (ms.foldl (fun (p : Plan) m => p.closeGap tokens m)
        { p with moves := p.moves ++ movesTo tokens anchor ms }).spaces := by
  unfold addMoves
  dsimp only
  split <;> rfl

theorem foldl_addMoves_moves (es : List (Group × Nat)) :
    (es.foldl (fun p e => p.addMoves options tokens e.1.members e.2) p).moves =
      p.moves ++ es.flatMap fun e => movesTo tokens e.2 e.1.members := by
  induction es generalizing p with
  | nil => simp
  | cons e es ih => rw [List.foldl_cons, ih, addMoves_moves, List.flatMap_cons, List.append_assoc]

/-- The moves of a plan are those of the groups that move, in order. -/
theorem ofTokens_moves (options : Options) (tokens : List Token) :
    (ofTokens options tokens).moves =
      (movable options tokens).flatMap fun e => movesTo tokens e.2 e.1.members := by
  rw [ofTokens_eq_foldl, foldl_addMoves_moves]
  rfl

/-- The run lemma: moving groups that come one after another keeps a plan settled. -/
theorem Settled.foldl_addMoves {es : List (Group × Nat)} {n : Nat} (h : Settled tokens p n)
    (hb : p.WritesUpTo n) (hrem : ∀ k, p.removes k = true → k < n)
    (hq : ∀ m t, p.removes m = true → tokens[m]? = some t → t.kind ≠ .whitespace)
    (hes : ∀ e ∈ es, e.1.Moves options tokens e.2)
    (hpair : es.Pairwise fun e e' => ∀ m ∈ e'.1.members, e.1.typeStart ≤ m)
    (hn : ∀ e ∈ es, ∀ m ∈ e.1.members, n ≤ m) :
    ∃ n', Settled tokens (es.foldl (fun p e => p.addMoves options tokens e.1.members e.2) p) n' ∧
      ∀ k, (es.foldl (fun p e => p.addMoves options tokens e.1.members e.2) p).removes k = true →
        k < n' := by
  induction es generalizing p n with
  | nil => exact ⟨n, h, hrem⟩
  | cons e es ih =>
    obtain ⟨hlater, hpair⟩ := List.pairwise_cons.1 hpair
    have he := hes e List.mem_cons_self
    have hne := hn e List.mem_cons_self
    have hrem' {q : Plan} (hq : q.moves = p.moves ++ movesTo tokens e.2 e.1.members) (k : Nat) :
        q.removes k = true ↔ p.removes k = true ∨ k ∈ e.1.members := by
      rw [removes_append hq, removes_movesTo fun m hm => (he.member m hm).2]
    have hle : n ≤ e.1.typeStart := by
      obtain ⟨m, hm⟩ := List.exists_mem_of_ne_nil _ he.nonempty
      exact Nat.le_trans (hne m hm) (Nat.le_of_lt (he.member m hm).1)
    -- first the moves are added, then the gaps are closed
    have hmoved :
        Settled tokens { p with moves := p.moves ++ movesTo tokens e.2 e.1.members } n := by
      refine h.mono rfl (fun k hk => ?_) fun k hk => (hrem' rfl k).2 (.inl hk)
      rw [Bool.eq_iff_iff, hrem' rfl, or_iff_left]
      exact fun hm => absurd (hne k hm) (by omega)
    have hkind (m : Nat) (t : Token)
        (hr :
          ({ p with moves := p.moves ++ movesTo tokens e.2 e.1.members } : Plan).removes m = true)
        (ht : tokens[m]? = some t) : t.kind ≠ .whitespace := by
      rcases (hrem' rfl m).1 hr with hr | hm
      · exact hq m t hr ht
      · obtain ⟨u, q, hu, huq⟩ := (he.member m hm).2
        obtain rfl := Option.some.inj (ht.symm.trans hu)
        simp [Token.kind_of_qualifier huq]
    obtain ⟨hset, hup⟩ := hmoved.foldl_closeGap hb hkind he.ascending
      (fun m hm => ⟨hne m hm, (he.member m hm).1⟩) hle fun k hk => by
        rw [hrem' rfl, or_iff_right fun hr => absurd (hrem k hr) (by omega)]
    have hadd := addMoves_moves options tokens p e.1.members e.2
    have hspaces := addMoves_spaces options tokens p e.1.members e.2
    have hsame (k : Nat) : (p.addMoves options tokens e.1.members e.2).removes k =
        (e.1.members.foldl (fun (p : Plan) m => p.closeGap tokens m)
          { p with moves := p.moves ++ movesTo tokens e.2 e.1.members }).removes k := by
      simp only [removes, hadd, foldl_closeGap_moves]
    rw [List.foldl_cons]
    refine ih (n := e.1.typeStart) (hset.mono hspaces (fun k _ => hsame k) fun k hk => hsame k ▸ hk)
      (fun k x hx => hup k x (hspaces ▸ hx)) (fun k hk => ?_) (fun m t hr => hkind m t ?_)
      (fun e' he' => hes e' (List.mem_cons_of_mem _ he')) hpair hlater
    · rcases (hrem' hadd k).1 hk with hr | hm
      · exact Nat.lt_of_lt_of_le (hrem k hr) hle
      · exact (he.member k hm).1
    · exact (hrem' rfl m).2 ((hrem' hadd m).1 hr)

/-- The gaps of a whole plan are closed. -/
theorem ofTokens_settled (hts : Terminated tokens) (n : Nat) :
    Settled tokens (ofTokens options tokens) n := by
  have hstart : Settled tokens {} 0 := by
    refine ⟨fun k x hx => ?_, ?_, ?_, ?_⟩
    · cases hx
    · exact fun m t left hm => absurd hm (by omega)
    · exact fun m t left hm => absurd hm (by omega)
    · exact fun k t u hk => absurd hk (by omega)
  have hes : ∀ e ∈ movable options tokens, e.1.Moves options tokens e.2 :=
    fun e he => mem_movable hts he
  obtain ⟨n', hset, hlt⟩ := hstart.foldl_addMoves (fun k x hx => by cases hx)
    (fun k hk => by cases hk) (fun m t hr => by cases hr) hes (movable_pairwise hts)
    fun e he m hm => Nat.zero_le m
  rw [← ofTokens_eq_foldl] at hset hlt
  have hfar : Settled tokens (ofTokens options tokens) (max n n') :=
    hset.advance fun k hk hr => absurd (hlt k hr) (by omega)
  exact ⟨hfar.shape, fun m t left hm => hfar.dropped m t left (by omega),
    fun m t left hm => hfar.joined m t left (by omega),
    fun k t u hk => hfar.trimmed k t u (by omega)⟩

/-- What goes are the members of the groups that move. -/
theorem ofTokens_removes_iff (hts : Terminated tokens) {k : Nat} :
    (ofTokens options tokens).removes k = true ↔ ∃ e ∈ movable options tokens, k ∈ e.1.members := by
  rw [removes_iff, ofTokens_moves]
  simp only [List.mem_flatMap]
  constructor
  · rintro ⟨m, ⟨e, he, hm⟩, rfl⟩
    exact ⟨e, he, (mem_movesTo.1 hm).1⟩
  · rintro ⟨e, he, hk⟩
    obtain ⟨m, hm, rfl⟩ := (removes_movesTo fun m hm => ((mem_movable hts he).member m hm).2).2 hk
    exact ⟨m, ⟨e, he, hm⟩, rfl⟩

/-- Where keys ascend, a key picks one. -/
theorem filter_key_eq {α : Type} {xs : List α} {key : α → Nat} {x : α}
    (h : xs.Pairwise (key · < key ·)) (hx : x ∈ xs) : xs.filter (key · == key x) = [x] := by
  induction xs with
  | nil => cases hx
  | cons y xs ih =>
    rw [List.pairwise_cons] at h
    rcases List.mem_cons.1 hx with rfl | hx
    · have hnone : xs.filter (key · == key x) = [] :=
        List.filter_eq_nil_iff.2 fun z hz hkey => by
          have := h.1 z hz
          rw [beq_iff_eq] at hkey
          omega
      rw [List.filter_cons_of_pos (by simp), hnone]
    · have hlt := h.1 x hx
      rw [List.filter_cons_of_neg (by simp; omega), ih h.2 hx]

/-- The moves of a plan are in the order of what they take away. -/
theorem ofTokens_moves_pairwise (hts : Terminated tokens) :
    (ofTokens options tokens).moves.Pairwise (·.index < ·.index) := by
  rw [ofTokens_moves, List.pairwise_flatMap]
  refine ⟨fun e he => ?_, ?_⟩
  · rw [movesTo, List.pairwise_filterMap]
    refine (mem_movable hts he).ascending.imp fun {k k'} hlt m hm m' hm' => ?_
    obtain ⟨q, -, rfl⟩ := Option.map_eq_some_iff.1 hm
    obtain ⟨q', -, rfl⟩ := Option.map_eq_some_iff.1 hm'
    exact hlt
  · refine (movable_pairwise hts).imp_of_mem fun {e e'} he _ hle m hm m' hm' => ?_
    have hlt := ((mem_movable hts he).member _ (mem_movesTo.1 hm).1).1
    have hge := hle _ (mem_movesTo.1 hm').1
    omega

theorem foldl_addMoves_padded (es : List (Group × Nat)) (a : Nat) :
    (es.foldl (fun p e => p.addMoves options tokens e.1.members e.2) p).padded.contains a = true ↔
      p.padded.contains a = true ∨
        ∃ e ∈ es, e.2 = a ∧ needsPadding options.spacing tokens a = true := by
  induction es generalizing p with
  | nil => simp
  | cons e es ih =>
    have hadd : (p.addMoves options tokens e.1.members e.2).padded.contains a = true ↔
        p.padded.contains a = true ∨ e.2 = a ∧ needsPadding options.spacing tokens a = true := by
      rw [addMoves_padded]
      split
      · rename_i hpad
        rw [IndexMap.contains_eq_isSome_get?, IndexMap.get?_insert]
        split
        · rename_i hae
          subst hae
          simp [hpad]
        · rename_i hae
          rw [← IndexMap.contains_eq_isSome_get?, or_iff_left]
          exact fun h => hae h.1.symm
      · rename_i hpad
        rw [or_iff_left]
        rintro ⟨rfl, h⟩
        exact hpad h
    rw [List.foldl_cons, ih, hadd, or_assoc]
    simp

/-- The padded anchors are those that need it. -/
theorem ofTokens_padded_iff {a : Nat} :
    (ofTokens options tokens).padded.contains a = true ↔
      (∃ e ∈ movable options tokens, e.2 = a) ∧ needsPadding options.spacing tokens a = true := by
  rw [ofTokens_eq_foldl, foldl_addMoves_padded]
  constructor
  · rintro (h | ⟨e, he, ha, hpad⟩)
    · cases h
    · exact ⟨⟨e, he, ha⟩, hpad⟩
  · rintro ⟨⟨e, he, ha⟩, hpad⟩
    exact .inr ⟨e, he, ha, hpad⟩

end

end EastConst.Plan
