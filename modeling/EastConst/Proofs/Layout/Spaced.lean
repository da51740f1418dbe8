import EastConst.Proofs.Walk

/-!
# Tokens with fillers between them

Comments and white space on one line may be put before any token. `Spaced` is a token with the
fillers put before it: `original` leaves the fillers out, `widened` puts them in, and `position`
says where the tokens come to stand. The qualifiers that are found are the same, at their new places
and with the same roles (`occurrences_widened`), as long as nothing comes between the name of a
macro and the parenthesis that touches it.
-/

namespace EastConst

/-- Whether a token is a comment or white space on one line. -/
def Token.isFiller (t : Token) : Bool :=
  t.kind == .comment || t.isHorizontalSpace

namespace Token

variable {t : Token}

theorem kind_of_isFiller (h : t.isFiller = true) : t.kind = .comment ∨ t.kind = .whitespace := by
  rw [isFiller, Bool.or_eq_true, beq_iff_eq] at h
  exact h.imp_right kind_of_isHorizontalSpace

theorem isTrivia_of_isFiller (h : t.isFiller = true) : t.isTrivia = true := by
  rcases kind_of_isFiller h with hk | hk <;> simp [isTrivia, hk]

theorem isSignificant_of_isFiller (h : t.isFiller = true) : t.isSignificant = false := by
  simp [isSignificant, isTrivia_of_isFiller h]

theorem endsLine_of_isFiller (h : t.isFiller = true) : t.endsLine = false := by
  rw [isFiller, Bool.or_eq_true, beq_iff_eq] at h
  rcases h with hk | hspace
  · simp [Token.endsLine, hk]
  · exact endsLine_of_isHorizontalSpace hspace

theorem mark?_of_isFiller (h : t.isFiller = true) : t.mark? = none := by
  rcases kind_of_isFiller h with hk | hk <;> simp [mark?, hk]

theorem isMark_of_isFiller (h : t.isFiller = true) (m : Mark) : t.isMark m = false := by
  simp [isMark, mark?_of_isFiller h]

theorem ofToken?_of_isFiller (h : t.isFiller = true) : Qualifier.ofToken? t = none := by
  rcases kind_of_isFiller h with hk | hk <;> simp [Qualifier.ofToken?, hk]

theorem kind_ne_of_isFiller (h : t.isFiller = true) : t.kind ≠ .endOfInput := by
  rcases kind_of_isFiller h with hk | hk <;> simp [hk]

end Token

/-- A token with fillers put before it. -/
structure Spaced where
  gap : List Token
  token : Token
  isFiller : ∀ t ∈ gap, t.isFiller = true := by decide

namespace Spaced

/-- The tokens without the fillers. -/
def original (ss : List Spaced) : List Token :=
  ss.map token

/-- The tokens with the fillers. -/
def widened (ss : List Spaced) : List Token :=
  ss.flatMap fun s => s.gap ++ [s.token]

/-- Where the fillers put the token at an index. -/
def position : List Spaced → Nat → Nat
  | [], i => i
  | s :: _, 0 => s.gap.length
  | s :: ss, i + 1 => s.gap.length + 1 + position ss i

@[simp]
theorem original_nil : original [] = [] := rfl

@[simp]
theorem original_cons (s : Spaced) (ss : List Spaced) :
    original (s :: ss) = s.token :: original ss := rfl

@[simp]
theorem original_append (ss ss' : List Spaced) :
    original (ss ++ ss') = original ss ++ original ss' :=
  List.map_append

@[simp]
theorem length_original (ss : List Spaced) : (original ss).length = ss.length :=
  List.length_map _

@[simp]
theorem widened_nil : widened [] = [] := rfl

@[simp]
theorem widened_cons (s : Spaced) (ss : List Spaced) :
    widened (s :: ss) = s.gap ++ s.token :: widened ss := by
  simp [widened]

@[simp]
theorem widened_append (ss ss' : List Spaced) : widened (ss ++ ss') = widened ss ++ widened ss' :=
  List.flatMap_append

theorem position_lt {ss : List Spaced} {i j : Nat} (h : i < j) : position ss i < position ss j := by
  induction ss generalizing i j with
  | nil => exact h
  | cons s ss ih =>
    cases j with
    | zero => omega
    | succ j =>
      cases i with
      | zero =>
        rw [position, position]
        omega
      | succ i =>
        have := ih (Nat.lt_of_succ_lt_succ h)
        rw [position, position]
        omega

/-- Positions keep the order of the tokens. -/
theorem position_le_iff {ss : List Spaced} {i j : Nat} : position ss i ≤ position ss j ↔ i ≤ j := by
  constructor
  · intro h
    refine Nat.le_of_not_lt fun hlt => ?_
    have hlt' : position ss j < position ss i := position_lt hlt
    omega
  · intro h
    rcases Nat.eq_or_lt_of_le h with rfl | hlt
    · exact Nat.le_refl _
    · exact Nat.le_of_lt (position_lt hlt)

/-- A token of the original list stands at its position in the widened one. -/
theorem getElem?_position (ss : List Spaced) (i : Nat) :
    (widened ss)[position ss i]? = (original ss)[i]? := by
  induction ss generalizing i with
  | nil => rfl
  | cons s ss ih =>
    rw [widened_cons, original_cons]
    cases i with
    | zero => simp [position]
    | succ i =>
      rw [position, List.getElem?_cons_succ, ← ih, List.getElem?_append_right (by omega),
        show s.gap.length + 1 + position ss i - s.gap.length = position ss i + 1 by omega,
        List.getElem?_cons_succ]

/-- Indices from `i` on, where some tokens start, are sent to where the fillers put the tokens if
they start at `i'`. -/
def Relabels (φ : Nat → Nat) (i i' : Nat) (ss : List Spaced) : Prop :=
  ∀ j, φ (i + j) = i' + position ss j

section

variable {φ : Nat → Nat} {i i' : Nat} {s : Spaced} {ss : List Spaced}

/-- Positions count the fillers before each token. -/
theorem relabels_position (ss : List Spaced) : Relabels (position ss) 0 0 ss := by
  intro j
  rw [Nat.zero_add, Nat.zero_add]

theorem Relabels.head (h : Relabels φ i i' (s :: ss)) : φ i = i' + s.gap.length :=
  h 0

theorem Relabels.tail (h : Relabels φ i i' (s :: ss)) :
    Relabels φ (i + 1) (i' + s.gap.length + 1) ss := by
  intro j
  have := h (j + 1)
  rw [position] at this
  rw [show i + 1 + j = i + (j + 1) by omega, this]
  omega

theorem Relabels.drop {pre : List Spaced} (h : Relabels φ i i' (pre ++ ss)) :
    Relabels φ (i + pre.length) (i' + (widened pre).length) ss := by
  induction pre generalizing i i' with
  | nil => exact h
  | cons s pre ih =>
    have := ih (Relabels.tail h)
    rw [widened_cons, List.length_append, List.length_cons, List.length_cons]
    rwa [show i + (pre.length + 1) = i + 1 + pre.length by omega,
      show i' + (s.gap.length + ((widened pre).length + 1)) =
        i' + s.gap.length + 1 + (widened pre).length by omega]

end

end Spaced

/-! ## Macros -/

/-- The first token that is no trivia, and what follows it. -/
def nextToken? (ts : List Token) : Option (Token × List Token) :=
  match ts.dropWhile Token.isTrivia with
  | [] => none
  | t :: rest => some (t, rest)

/-- What follows the name of the macro that a directive defines. -/
def afterName? (directive : List Token) : Option (List Token) :=
  (nextToken? (directive.drop 1)).bind fun word =>
    if word.1.text = "define".toList then (nextToken? word.2).map Prod.snd else none

/-- The body of a macro is what follows its name and its parameters. -/
theorem macroBody?_eq (d : List Token) : macroBody? d = (afterName? d).map afterParameters := by
  rw [macroBody?, afterName?, nextToken?]
  cases (d.drop 1).dropWhile Token.isTrivia with
  | nil => rfl
  | cons word rest =>
    dsimp only [Option.bind_some]
    split
    · rw [nextToken?]
      cases rest.dropWhile Token.isTrivia <;> rfl
    · rfl

theorem nextToken?_trivia {t : Token} (h : t.isTrivia = true) (ts : List Token) :
    nextToken? (t :: ts) = nextToken? ts := by
  rw [nextToken?, nextToken?, List.dropWhile_cons_of_pos h]

theorem nextToken?_of_not_trivia {t : Token} (h : t.isTrivia = false) (ts : List Token) :
    nextToken? (t :: ts) = some (t, ts) := by
  rw [nextToken?, List.dropWhile_cons_of_neg (by simp [h])]

section

variable {g : List Token}

/-- The next token that is no trivia is found behind fillers. -/
theorem nextToken?_fillers (hg : ∀ t ∈ g, t.isFiller = true) (ts : List Token) :
    nextToken? (g ++ ts) = nextToken? ts := by
  induction g with
  | nil => rfl
  | cons t g ih =>
    rw [List.forall_mem_cons] at hg
    rw [List.cons_append, nextToken?_trivia (Token.isTrivia_of_isFiller hg.1), ih hg.2]

/-- Fillers neither open nor close a parenthesis. -/
theorem afterParens_fillers (hg : ∀ t ∈ g, t.isFiller = true) (depth : Nat) (ts : List Token) :
    afterParens depth (g ++ ts) = afterParens depth ts := by
  induction g with
  | nil => rfl
  | cons t g ih =>
    rw [List.forall_mem_cons] at hg
    rw [List.cons_append, afterParens, Token.mark?_of_isFiller hg.1]
    exact ih hg.2

theorem afterParameters_of_not_paren {ts : List Token}
    (h : ∀ t ∈ ts.head?, t.isMark .parenOpen = false) :
    afterParameters ts = ts := by
  cases ts with
  | nil => rfl
  | cons t ts => rw [afterParameters, h t rfl]; rfl

namespace Spaced

/-- The first token that is no trivia is the same, and so is what follows it, up to fillers. -/
theorem nextToken?_widened (hg : ∀ t ∈ g, t.isFiller = true) (ss : List Spaced) :
    (nextToken? (original ss) = none ∧ nextToken? (widened ss ++ g) = none) ∨
      ∃ pre s post, ss = pre ++ s :: post ∧
        (∀ ts, nextToken? (original pre ++ s.token :: ts) = some (s.token, ts)) ∧
        nextToken? (widened ss ++ g) = some (s.token, widened post ++ g) := by
  induction ss with
  | nil =>
    have := nextToken?_fillers hg []
    rw [List.append_nil] at this
    exact .inl ⟨rfl, this⟩
  | cons s ss ih =>
    rw [original_cons, widened_cons, List.append_assoc, nextToken?_fillers s.isFiller,
      List.cons_append]
    cases ht : s.token.isTrivia with
    | true =>
      rw [nextToken?_trivia ht, nextToken?_trivia ht]
      rcases ih with hnone | ⟨pre, u, post, rfl, horiginal, hwidened⟩
      · exact .inl hnone
      · refine .inr ⟨s :: pre, u, post, rfl, fun ts => ?_, hwidened⟩
        rw [original_cons, List.cons_append, nextToken?_trivia ht, horiginal]
    | false =>
      exact .inr ⟨[], s, ss, rfl, nextToken?_of_not_trivia ht, nextToken?_of_not_trivia ht _⟩

/-- What follows a macro's name is the same up to fillers. -/
theorem afterName?_widened (hg : ∀ t ∈ g, t.isFiller = true) {s : Spaced} (hs : s.gap = [])
    (ss : List Spaced) :
    (afterName? (original (s :: ss)) = none ∧ afterName? (widened (s :: ss) ++ g) = none) ∨
      ∃ pre post, s :: ss = pre ++ post ∧
        (∀ ts, afterName? (original pre ++ ts) = some ts) ∧
        afterName? (widened (s :: ss) ++ g) = some (widened post ++ g) := by
  have hdrop : (widened (s :: ss) ++ g).drop 1 = widened ss ++ g := by
    rw [widened_cons, hs]
    rfl
  rw [afterName?, afterName?, hdrop, original_cons, List.drop_one, List.tail_cons]
  rcases nextToken?_widened hg ss with ⟨horiginal, hwidened⟩ |
    ⟨lead, word, rest, rfl, hword, hwidened⟩
  · rw [horiginal, hwidened]
    exact .inl ⟨rfl, rfl⟩
  rw [original_append, original_cons, hword, hwidened, Option.bind_some, Option.bind_some]
  dsimp only
  by_cases hdefine : word.token.text = "define".toList
  · rw [if_pos hdefine, if_pos hdefine]
    rcases nextToken?_widened hg rest with ⟨horiginal, hwidened⟩ |
      ⟨mid, name, post, rfl, hname, hwidened⟩
    · rw [horiginal, hwidened]
      exact .inl ⟨rfl, rfl⟩
    · refine .inr ⟨s :: lead ++ word :: mid ++ [name], post, by simp, fun ts => ?_, ?_⟩
      · have hfront : original (s :: lead ++ word :: mid ++ [name]) ++ ts =
            s.token :: (original lead ++ word.token ::
              (original mid ++ name.token :: ts)) := by simp
        rw [afterName?, hfront, List.drop_one, List.tail_cons, hword, Option.bind_some]
        dsimp only
        rw [if_pos hdefine, hname]
        rfl
      · rw [hwidened]
        rfl
  · rw [if_neg hdefine, if_neg hdefine]
    exact .inl ⟨rfl, rfl⟩

/-- What follows the parenthesis that closes some is the same up to fillers. -/
theorem afterParens_widened (hg : ∀ t ∈ g, t.isFiller = true) (depth : Nat) (ss : List Spaced) :
    (afterParens depth (original ss) = [] ∧ afterParens depth (widened ss ++ g) = []) ∨
      ∃ pre post, ss = pre ++ post ∧ afterParens depth (original ss) = original post ∧
        afterParens depth (widened ss ++ g) = widened post ++ g := by
  induction ss generalizing depth with
  | nil =>
    have := afterParens_fillers hg depth []
    rw [List.append_nil] at this
    exact .inl ⟨rfl, this⟩
  | cons s ss ih =>
    -- wherever the parenthesis is not this one, it is one of those that follow
    have hlater (depth : Nat) :
        (afterParens depth (original ss) = [] ∧ afterParens depth (widened ss ++ g) = []) ∨
          ∃ pre post, s :: ss = pre ++ post ∧ afterParens depth (original ss) = original post ∧
            afterParens depth (widened ss ++ g) = widened post ++ g :=
      (ih depth).imp_right fun ⟨pre, post, hss, h⟩ => ⟨s :: pre, post, congrArg (s :: ·) hss, h⟩
    rw [original_cons, widened_cons, List.append_assoc, afterParens_fillers s.isFiller,
      List.cons_append, afterParens, afterParens]
    split
    · exact hlater (depth + 1)
    · split
      · exact .inr ⟨[s], ss, rfl, rfl, rfl⟩
      · exact hlater (depth - 1)
    · exact hlater depth

/-- What follows the parameters of a macro is the same up to fillers: these are no parenthesis, so
there are parameters only if there were some. -/
theorem afterParameters_widened (hg : ∀ t ∈ g, t.isFiller = true) {ss : List Spaced}
    (hss : ∀ s ∈ ss.head?, s.token.isMark .parenOpen = true → s.gap = []) :
    (afterParameters (original ss) = [] ∧ afterParameters (widened ss ++ g) = []) ∨
      ∃ pre post, ss = pre ++ post ∧ afterParameters (original ss) = original post ∧
        afterParameters (widened ss ++ g) = widened post ++ g := by
  cases ss with
  | nil =>
    refine .inr ⟨[], [], rfl, rfl, afterParameters_of_not_paren fun t ht => ?_⟩
    exact Token.isMark_of_isFiller (hg t (List.mem_of_mem_head? ht)) _
  | cons s ss =>
    rw [original_cons, widened_cons]
    cases hparen : s.token.isMark .parenOpen with
    | true =>
      rw [hss s rfl hparen, List.nil_append, List.cons_append, afterParameters, afterParameters,
        if_pos hparen, if_pos hparen]
      refine (afterParens_widened hg 1 ss).imp_right ?_
      rintro ⟨pre, post, rfl, h⟩
      exact ⟨s :: pre, post, rfl, h⟩
    | false =>
      refine .inr ⟨[], s :: ss, rfl, afterParameters_of_not_paren (by simpa using hparen), ?_⟩
      rw [widened_cons]
      apply afterParameters_of_not_paren
      intro t ht
      cases hgap : s.gap with
      | nil =>
        rw [hgap] at ht
        obtain rfl := Option.some.inj ht
        exact hparen
      | cons u gap =>
        rw [hgap] at ht
        obtain rfl := Option.some.inj ht
        exact Token.isMark_of_isFiller (s.isFiller u (hgap ▸ List.mem_cons_self)) _

/-- No filler stands between a macro's name and a parenthesis that touches it, in the tokens of a
directive. -/
def Intact (ss : List Spaced) : Prop :=
  ∀ pre s post, ss = pre ++ s :: post → s.token.isMark .parenOpen = true →
    afterName? (original pre) = some [] → s.gap = []

/-- A token can be added to a directive unless it is a parenthesis that has to touch the macro's
name. -/
theorem Intact.concat {ss : List Spaced} {s : Spaced} (h : Intact ss)
    (hs : s.token.isMark .parenOpen = true → afterName? (original ss) = some [] → s.gap = []) :
    Intact (ss ++ [s]) := by
  intro pre u post heq hparen hname
  rcases post.eq_nil_or_concat with rfl | ⟨post', v, rfl⟩
  · obtain ⟨rfl, hsu⟩ := List.append_inj' heq rfl
    obtain ⟨rfl, -⟩ := List.cons.inj hsu
    exact hs hparen hname
  · rw [List.concat_eq_append, ← List.cons_append, ← List.append_assoc] at heq
    obtain ⟨hss, -⟩ := List.append_inj' heq rfl
    exact h pre u post' hss hparen hname

/-- The body of a macro is the same up to fillers. -/
theorem macroBody?_widened (hg : ∀ t ∈ g, t.isFiller = true) {s : Spaced} (hs : s.gap = [])
    {ss : List Spaced} (hintact : Intact (s :: ss)) :
    (macroBody? (original (s :: ss)) = none ∧ macroBody? (widened (s :: ss) ++ g) = none) ∨
      (macroBody? (original (s :: ss)) = some [] ∧ macroBody? (widened (s :: ss) ++ g) = some []) ∨
      ∃ pre post, s :: ss = pre ++ post ∧ macroBody? (original (s :: ss)) = some (original post) ∧
        macroBody? (widened (s :: ss) ++ g) = some (widened post ++ g) := by
  rw [macroBody?_eq, macroBody?_eq]
  rcases afterName?_widened hg hs ss with ⟨horiginal, hwidened⟩ | ⟨pre, post, hss, hname, hwidened⟩
  · rw [horiginal, hwidened]
    exact .inl ⟨rfl, rfl⟩
  have hnil := hname []
  rw [List.append_nil] at hnil
  have htouch : ∀ u ∈ post.head?, u.token.isMark .parenOpen = true → u.gap = [] := by
    intro u hu hparen
    obtain ⟨post', rfl⟩ := List.head?_eq_some_iff.1 hu
    exact hintact pre u post' hss hparen hnil
  rw [hwidened, hss, original_append, hname, Option.map_some, Option.map_some]
  rcases afterParameters_widened hg htouch with ⟨horiginal, hwidened⟩ |
    ⟨mid, post', rfl, horiginal, hwidened⟩
  · rw [horiginal, hwidened]
    exact .inr (.inl ⟨rfl, rfl⟩)
  · rw [horiginal, hwidened]
    exact .inr (.inr ⟨pre ++ mid, post', by rw [List.append_assoc], rfl, rfl⟩)

end Spaced

end

end EastConst
