import EastConst.Proofs.Directive.Line

/-!
# Finding qualifiers token by token

To find qualifiers, a token sequence is cut into segments first, and the segments are walked then. A
`Reader` does both at once: it goes from token to token, and of a directive it knows how far the
front has been read and, in the body of a macro, the walk there. It finds the same qualifiers with
the same roles and boundaries (`occurrences_eq_found`), so that two sequences can be compared in
step.
-/

namespace EastConst

theorem Nesting.truncate_depth (n : Nesting) : n.truncate n.depth = n := by
  simp [Nesting.truncate, Nesting.popMany]

theorem afterParens_cons (depth : Nat) (t : Token) (ts : List Token) :
    afterParens depth (t :: ts) =
      if t.isMark .parenOpen then afterParens (depth + 1) ts
      else if t.isMark .parenClose then if depth ≤ 1 then ts else afterParens (depth - 1) ts
      else afterParens depth ts := by
  rw [afterParens, Token.isMark, Token.isMark]
  split <;> simp_all

/-! ## The front of a directive -/

/-- How far a directive has been read, before the body of its macro. -/
inductive Front where
  /-- Behind the `#`. -/
  | hash
  /-- Behind the word `define`. -/
  | define
  /-- Right behind the name of the macro. -/
  | name
  /-- Among the parameters, in a number of open parentheses. -/
  | parameters (depth : Nat)
  /-- In a directive that defines no macro. -/
  | other
  deriving DecidableEq, Repr

namespace Front

/-- How far a directive has been read after one more token, unless the body starts behind it. -/
def after : Front → Token → Option Front
  | .hash, t =>
    some (if t.isTrivia then .hash else if t.text = "define".toList then .define else .other)
  | .define, t => some (if t.isTrivia then .define else .name)
  | .name, _ => some (.parameters 1)
  | .parameters depth, t =>
    match t.mark? with
    | some .parenOpen => some (.parameters (depth + 1))
    | some .parenClose => if depth ≤ 1 then none else some (.parameters (depth - 1))
    | _ => some (.parameters depth)
  | .other, _ => some .other

/-- The body of the macro in what follows of a directive. -/
def body? : Front → List Token → Option (List Token)
  | .hash, ts =>
    match ts.dropWhile Token.isTrivia with
    | [] => none
    | word :: rest =>
      if word.text = "define".toList then
        match rest.dropWhile Token.isTrivia with
        | [] => none
        | _ :: afterName => some (afterParameters afterName)
      else none
  | .define, ts =>
    match ts.dropWhile Token.isTrivia with
    | [] => none
    | _ :: afterName => some (afterParameters afterName)
  | .name, ts => some (afterParameters ts)
  | .parameters depth, ts => some (afterParens depth ts)
  | .other, _ => none

/-- The body of a directive is found by the front that has read its `#`. -/
theorem macroBody?_cons (t : Token) (ts : List Token) : macroBody? (t :: ts) = hash.body? ts := rfl

variable {f f' : Front} {t : Token} {ts : List Token}

/-- The body starts with the token behind the name, if that is no parenthesis. -/
theorem body?_name (h : t.isMark .parenOpen = false) : name.body? (t :: ts) = some (t :: ts) := by
  rw [body?, afterParameters, if_neg (by simp [h])]

theorem after_parameters (depth : Nat) (t : Token) :
    (parameters depth).after t =
      if t.isMark .parenOpen then some (parameters (depth + 1))
      else if t.isMark .parenClose then if depth ≤ 1 then none else some (parameters (depth - 1))
      else some (parameters depth) := by
  rw [after, Token.isMark, Token.isMark]
  split <;> simp_all

/-- The step lemma: a token before the body plays its part in the front. -/
theorem body?_of_after (h : f.after t = some f')
    (hname : f = .name → t.isMark .parenOpen = true) : f.body? (t :: ts) = f'.body? ts := by
  cases f with
  | hash =>
    obtain rfl := Option.some.inj h
    cases ht : t.isTrivia with
    | true => simp [body?, ht]
    | false =>
      have hdrop : (t :: ts).dropWhile Token.isTrivia = t :: ts :=
        List.dropWhile_cons_of_neg (by simp [ht])
      by_cases hd : t.text = "define".toList
      · simp only [body?, hdrop, Bool.false_eq_true, if_false, if_pos hd]
      · simp only [body?, hdrop, Bool.false_eq_true, if_false, if_neg hd]
  | define =>
    obtain rfl := Option.some.inj h
    cases ht : t.isTrivia <;> simp [body?, ht]
  | name =>
    obtain rfl := Option.some.inj h
    rw [body?, body?, afterParameters, if_pos (hname rfl)]
  | parameters depth =>
    rw [after_parameters] at h
    rw [body?, afterParens_cons]
    by_cases hopen : t.isMark .parenOpen = true
    · rw [if_pos hopen] at h ⊢
      obtain rfl := Option.some.inj h
      rfl
    · rw [if_neg hopen] at h ⊢
      by_cases hclose : t.isMark .parenClose = true
      · rw [if_pos hclose] at h ⊢
        by_cases hdepth : depth ≤ 1
        · rw [if_pos hdepth] at h
          cases h
        · rw [if_neg hdepth] at h ⊢
          obtain rfl := Option.some.inj h
          rfl
      · rw [if_neg hclose] at h ⊢
        obtain rfl := Option.some.inj h
        rfl
  | other =>
    obtain rfl := Option.some.inj h
    rfl

/-- The body starts behind the parenthesis that closes the parameters. -/
theorem body?_of_after_eq_none (h : f.after t = none) : f.body? (t :: ts) = some ts := by
  cases f with
  | parameters depth =>
    rw [after_parameters] at h
    rw [body?, afterParens_cons]
    by_cases hopen : t.isMark .parenOpen = true
    · rw [if_pos hopen] at h
      cases h
    · rw [if_neg hopen] at h ⊢
      by_cases hclose : t.isMark .parenClose = true
      · rw [if_pos hclose] at h ⊢
        by_cases hdepth : depth ≤ 1
        · rw [if_pos hdepth]
        · rw [if_neg hdepth] at h
          cases h
      · rw [if_neg hclose] at h
        cases h
  | _ => cases h

/-- At the end of a directive there is no body, or an empty one. -/
theorem body?_nil (f : Front) : f.body? [] = none ∨ f.body? [] = some [] := by
  cases f with
  | hash => exact .inl rfl
  | define => exact .inl rfl
  | name => exact .inr rfl
  | parameters depth => exact .inr (by rw [body?, afterParens])
  | other => exact .inl rfl

end Front

/-! ## Readers -/

/-- Where a reader stands. -/
inductive Mode where
  /-- No significant token has been met on the line. -/
  | lineStart
  /-- A significant token has been met on the line. -/
  | midLine
  /-- In a directive, before the body of a macro. -/
  | front (f : Front)
  /-- In the body of a macro, with the walk there. -/
  | body (v : Walk)
  deriving DecidableEq, Repr

/-- What is remembered from token to token. -/
structure Reader where
  mode : Mode := .lineStart
  /-- The walk outside directives. -/
  walk : Walk := {}
  deriving DecidableEq, Repr

namespace Reader

/-- Behind the name of a macro, any token but a parenthesis is in the body. -/
def enter (r : Reader) (t : Token) : Reader :=
  if r.mode = .front .name ∧ t.isMark .parenOpen = false then ⟨.body r.walk.enterBody, r.walk⟩
  else r

/-- The reader after a token that does not end the line. -/
def take (options : Options) (r : Reader) (t : Token) : Reader :=
  match (r.enter t).mode with
  | .lineStart =>
    if t.isMark .hash then ⟨.front .hash, r.walk⟩
    else ⟨if t.isTrivia then .lineStart else .midLine, r.walk.step options t⟩
  | .midLine => ⟨.midLine, r.walk.step options t⟩
  | .front f => ⟨((f.after t).map .front).getD (.body r.walk.enterBody), r.walk⟩
  | .body v => ⟨.body (v.step options t), r.walk⟩

/-- The walk outside directives once the line has ended. -/
def leave (r : Reader) : Walk :=
  match r.mode with
  | .body v => { r.walk with nesting := v.nesting.truncate r.walk.nesting.depth }
  | _ => r.walk

/-- The reader after a token. -/
def read (options : Options) (r : Reader) (t : Token) : Reader :=
  if t.endsLine then ⟨.lineStart, r.leave⟩ else r.take options t

/-- The reader after tokens. -/
def run (options : Options) (r : Reader) (ts : List Token) : Reader :=
  ts.foldl (read options) r

/-- The walk that comes to a token next, if one does. -/
def here (r : Reader) (t : Token) : Option Walk :=
  match (r.enter t).mode with
  | .lineStart => if t.isMark .hash then none else some r.walk
  | .midLine => some r.walk
  | .front _ => none
  | .body v => some v

/-- Whether a reader is outside directives. -/
def isOutside (r : Reader) : Bool :=
  match r.mode with
  | .lineStart | .midLine => true
  | _ => false

/-- The qualifiers that a reader finds, the first token having an index. Outside directives their
types reach to `boundary`, in a directive to the end of its line. -/
def found (options : Options) (boundary : Nat) :
    (r : Reader) → (index : Nat) → List Token → List Occurrence
  | _, _, [] => []
  | r, index, t :: rest =>
    let later := found options boundary (r.read options t) (index + 1) rest
    match r.here t, Qualifier.ofToken? t with
    | some w, some qualifier =>
      ⟨index, qualifier, w.role, if r.isOutside then boundary
        else index + ((t :: rest).takeWhile (!·.endsLine)).length⟩ :: later
    | _, _ => later

section

variable {options : Options} {boundary index : Nat} {r : Reader} {w v : Walk} {t : Token}
  {ts line after : List Token}

@[simp]
theorem run_nil : r.run options [] = r := rfl

@[simp]
theorem run_cons : r.run options (t :: ts) = (r.read options t).run options ts := rfl

theorem run_append (ts ts' : List Token) :
    r.run options (ts ++ ts') = (r.run options ts).run options ts' :=
  List.foldl_append

/-- A token that ends the line ends a directive, and the reader goes on at the start of the next
line. -/
theorem read_of_endsLine (h : t.endsLine = true) : r.read options t = ⟨.lineStart, r.leave⟩ :=
  if_pos h

theorem read_of_onLine (h : t.endsLine = false) : r.read options t = r.take options t :=
  if_neg (by simp [h])

theorem enter_of_ne (h : r.mode ≠ .front .name) : r.enter t = r :=
  if_neg fun hr => h hr.1

/-- A token that is no parenthesis, behind a macro's name, starts the body. -/
theorem enter_name (h : t.isMark .parenOpen = false) :
    enter ⟨.front .name, w⟩ t = ⟨.body w.enterBody, w⟩ :=
  if_pos ⟨rfl, h⟩

theorem enter_enter : (r.enter t).enter t = r.enter t := by
  by_cases h : r.mode = .front .name ∧ t.isMark .parenOpen = false
  · have henter : r.enter t = ⟨.body r.walk.enterBody, r.walk⟩ := if_pos h
    rw [henter, enter_of_ne (by simp)]
  · have henter : r.enter t = r := if_neg h
    rw [henter, henter]

theorem walk_enter : (r.enter t).walk = r.walk := by
  unfold enter
  split <;> rfl

theorem isOutside_enter : (r.enter t).isOutside = r.isOutside := by
  unfold enter
  split
  · rename_i h
    simp [isOutside, h.1]
  · rfl

/-- Nothing but the walk that is told of depends on entering a body early. -/
theorem take_enter : (r.enter t).take options t = r.take options t := by
  rw [take, take, enter_enter, walk_enter]

theorem here_enter : (r.enter t).here t = r.here t := by
  rw [here, here, enter_enter, walk_enter]

/-- A reader finds a qualifier where it has a walk for it. -/
theorem found_cons (t : Token) (ts : List Token) :
    found options boundary r index (t :: ts) =
      (match r.here t, Qualifier.ofToken? t with
        | some w, some qualifier =>
          [⟨index, qualifier, w.role, if r.isOutside then boundary
            else index + ((t :: ts).takeWhile (!·.endsLine)).length⟩]
        | _, _ => []) ++ found options boundary (r.read options t) (index + 1) ts := by
  rw [found]
  split <;> rfl

/-- In the front of a directive nothing is found. -/
theorem found_of_not_here (h : r.here t = none) (ts : List Token) :
    found options boundary r index (t :: ts) =
      found options boundary (r.read options t) (index + 1) ts := by
  rw [found_cons, h]
  rfl

theorem found_of_not_qualifier (h : Qualifier.ofToken? t = none) (ts : List Token) :
    found options boundary r index (t :: ts) =
      found options boundary (r.read options t) (index + 1) ts := by
  rw [found_cons, h]
  cases r.here t <;> rfl

theorem ofToken?_of_endsLine (h : t.endsLine = true) : Qualifier.ofToken? t = none := by
  cases hq : Qualifier.ofToken? t with
  | none => rfl
  | some q =>
    rw [Token.endsLine_of_qualifier hq] at h
    cases h

/-- Where the line ends, all that is left of a reader is the walk outside directives. -/
theorem found_of_endsLine (hstop : ∀ t ∈ ts.head?, t.endsLine = true) :
    found options boundary r index ts = found options boundary ⟨.lineStart, r.leave⟩ index ts := by
  cases ts with
  | nil => rfl
  | cons t ts =>
    have ht := hstop t rfl
    have hq := ofToken?_of_endsLine ht
    rw [found_of_not_qualifier hq, found_of_not_qualifier hq, read_of_endsLine ht,
      read_of_endsLine ht]
    rfl

theorem takeWhile_line (hline : ∀ t ∈ line, t.endsLine = false)
    (hstop : ∀ t ∈ after.head?, t.endsLine = true) :
    (line ++ after).takeWhile (!·.endsLine) = line := by
  rw [List.takeWhile_append_of_pos (by simpa using hline)]
  cases after with
  | nil => simp
  | cons t after => simp [hstop t rfl]

/-- In the body of a macro, a reader walks over the body. -/
theorem run_body (hline : ∀ t ∈ line, t.endsLine = false) :
    run options ⟨.body v, w⟩ line = ⟨.body (v.run options line), w⟩ := by
  induction line generalizing v with
  | nil => rfl
  | cons t line ih =>
    rw [run_cons, read_of_onLine (hline t List.mem_cons_self)]
    exact ih fun u hu => hline u (List.mem_cons_of_mem t hu)

/-- In the body of a macro, a reader finds what the walk over the body finds. -/
theorem found_body (hline : ∀ t ∈ line, t.endsLine = false)
    (hstop : ∀ t ∈ after.head?, t.endsLine = true) :
    found options boundary ⟨.body v, w⟩ index (line ++ after) =
      occurrencesIn options (index + line.length) v index line ++
        found options boundary ⟨.body (v.run options line), w⟩ (index + line.length) after := by
  induction line generalizing v index with
  | nil => rfl
  | cons t line ih =>
    have hread : read options ⟨.body v, w⟩ t = ⟨.body (v.step options t), w⟩ := by
      rw [read_of_onLine (hline t List.mem_cons_self)]
      rfl
    have hhere : here ⟨.body v, w⟩ t = some v := rfl
    have htake : (t :: line ++ after).takeWhile (!·.endsLine) = t :: line :=
      takeWhile_line hline hstop
    rw [List.cons_append] at htake ⊢
    rw [found_cons, hread, hhere, htake,
      ih fun u hu => hline u (List.mem_cons_of_mem _ hu), occurrencesIn,
      show index + 1 + line.length = index + (t :: line).length by simp; omega]
    cases Qualifier.ofToken? t <;> rfl

/-- Before the body of a macro, a reader finds what the walk over the body finds later. -/
theorem found_front {f : Front} (hline : ∀ t ∈ line, t.endsLine = false)
    (hstop : ∀ t ∈ after.head?, t.endsLine = true) :
    found options boundary ⟨.front f, w⟩ index (line ++ after) =
      ((f.body? line).elim [] fun body => occurrencesIn options (index + line.length) w.enterBody
        (index + line.length - body.length) body) ++
        found options boundary (run options ⟨.front f, w⟩ line) (index + line.length) after := by
  induction line generalizing f index with
  | nil => rcases f.body?_nil with h | h <;> simp [h, occurrencesIn]
  | cons t line ih =>
    have ht := hline t List.mem_cons_self
    have hline' := fun u hu => hline u (List.mem_cons_of_mem t hu)
    have hlength : index + 1 + line.length = index + (t :: line).length := by simp; omega
    by_cases hname : f = .name ∧ t.isMark .parenOpen = false
    · -- the body starts with this token
      obtain ⟨rfl, hparen⟩ := hname
      have hread : read options ⟨.front .name, w⟩ t = read options ⟨.body w.enterBody, w⟩ t := by
        rw [read_of_onLine ht, read_of_onLine ht, ← take_enter, enter_name hparen]
      have hfound : found options boundary ⟨.front .name, w⟩ index (t :: line ++ after) =
          found options boundary ⟨.body w.enterBody, w⟩ index (t :: line ++ after) := by
        rw [List.cons_append, found_cons, found_cons, hread, ← here_enter, enter_name hparen]
        rfl
      rw [hfound, found_body hline hstop, Front.body?_name hparen, run_cons, hread]
      rw [← run_cons, run_body hline, Option.elim_some, Nat.add_sub_cancel]
    · have henter : enter ⟨.front f, w⟩ t = ⟨.front f, w⟩ :=
        if_neg fun h => hname ⟨Mode.front.inj h.1, h.2⟩
      have hhere : here ⟨.front f, w⟩ t = none := by rw [here, henter]
      have hparen : f = .name → t.isMark .parenOpen = true := fun hf => by
        simpa using fun h => hname ⟨hf, h⟩
      rw [List.cons_append, found_of_not_here hhere, read_of_onLine ht, run_cons,
        read_of_onLine ht, take, henter, ← hlength]
      dsimp only
      cases hafter : f.after t with
      | some f' =>
        rw [Front.body?_of_after hafter hparen]
        exact ih hline'
      | none =>
        rw [Front.body?_of_after_eq_none hafter]
        refine (found_body hline' hstop).trans ?_
        rw [Option.elim_some, Nat.add_sub_cancel]
        exact congrArg _ (congrArg (found options boundary · _ after) (run_body hline').symm)

/-- Behind a directive, the walk goes on in the brackets that the body of its macro has left. -/
theorem leave_run_front {f : Front} (hline : ∀ t ∈ line, t.endsLine = false) :
    (run options ⟨.front f, w⟩ line).leave =
      (f.body? line).elim w fun body =>
        { w with nesting := (w.enterBody.run options body).nesting.truncate w.nesting.depth } := by
  induction line generalizing f with
  | nil =>
    rcases f.body?_nil with h | h
    · rw [h]
      rfl
    · rw [h]
      have hnesting : (w.enterBody.run options []).nesting.truncate w.nesting.depth = w.nesting :=
        Nesting.truncate_depth w.nesting
      rw [Option.elim_some, hnesting]
      rfl
  | cons t line ih =>
    have ht := hline t List.mem_cons_self
    have hline' := fun u hu => hline u (List.mem_cons_of_mem t hu)
    by_cases hname : f = .name ∧ t.isMark .parenOpen = false
    · obtain ⟨rfl, hparen⟩ := hname
      rw [run_cons, read_of_onLine ht, ← take_enter, enter_name hparen, ← read_of_onLine ht,
        ← run_cons, run_body hline, Front.body?_name hparen]
      rfl
    · have henter : enter ⟨.front f, w⟩ t = ⟨.front f, w⟩ :=
        if_neg fun h => hname ⟨Mode.front.inj h.1, h.2⟩
      have hparen : f = .name → t.isMark .parenOpen = true := fun hf => by
        simpa using fun h => hname ⟨hf, h⟩
      rw [run_cons, read_of_onLine ht, take, henter]
      dsimp only
      cases hafter : f.after t with
      | some f' =>
        rw [Front.body?_of_after hafter hparen]
        exact ih hline'
      | none =>
        rw [Front.body?_of_after_eq_none hafter]
        exact congrArg leave (run_body hline')

/-- At the `#` of a directive, a reader finds what is found in the directive. -/
theorem found_hash (ht : t.isMark .hash = true) (hline : ∀ t ∈ line, t.endsLine = false)
    (hstop : ∀ t ∈ after.head?, t.endsLine = true) :
    found options boundary ⟨.lineStart, w⟩ index (t :: (line ++ after)) =
      occurrencesInDirective options w index (t :: line) ++
        found options boundary ⟨.lineStart, w.directive options (t :: line)⟩
          (index + (t :: line).length) after := by
  have hends : t.endsLine = false := Token.endsLine_of_isMark ht
  have hhere : here ⟨.lineStart, w⟩ t = none := if_pos ht
  have hread : read options ⟨.lineStart, w⟩ t = ⟨.front .hash, w⟩ := by
    rw [read_of_onLine hends]
    exact if_pos ht
  have hlength : index + 1 + line.length = index + (t :: line).length := by simp; omega
  rw [found_of_not_here hhere, hread, found_front hline hstop, found_of_endsLine hstop,
    leave_run_front hline, hlength, occurrencesInDirective, Walk.directive,
    Front.macroBody?_cons]
  cases Front.hash.body? line <;> rfl

theorem step_of_endsLine (h : t.endsLine = true) : w.step options t = w :=
  Walk.step_insignificant (by simp [Token.isSignificant, Token.isTrivia_of_endsLine h])

/-- Outside directives, a reader finds a qualifier where it stands. -/
theorem found_token {mode : Mode} (hhere : r.here t = some r.walk) (houtside : r.isOutside = true)
    (hread : r.read options t = ⟨mode, r.walk.step options t⟩) :
    found options boundary r index (t :: ts) =
      occurrencesIn options boundary r.walk index [t] ++
        found options boundary ⟨mode, r.walk.step options t⟩ (index + 1) ts := by
  rw [found_cons, hhere, hread, houtside]
  cases h : Qualifier.ofToken? t <;> simp [occurrencesIn, h]

/-- Within a line a reader finds what the walk finds. -/
theorem found_midLine (t : Token) (ts : List Token) :
    found options boundary ⟨.midLine, w⟩ index (t :: ts) =
      occurrencesIn options boundary w index [t] ++
        found options boundary ⟨if t.endsLine then .lineStart else .midLine, w.step options t⟩
          (index + 1) ts := by
  refine found_token rfl rfl ?_
  cases h : t.endsLine with
  | true => exact (read_of_endsLine h).trans (by rw [step_of_endsLine h]; rfl)
  | false => exact read_of_onLine h

theorem found_lineStart (ht : t.isMark .hash = false) (ts : List Token) :
    found options boundary ⟨.lineStart, w⟩ index (t :: ts) =
      occurrencesIn options boundary w index [t] ++
        found options boundary ⟨if t.isTrivia then .lineStart else .midLine, w.step options t⟩
          (index + 1) ts := by
  have hne : ¬ t.isMark .hash = true := by simp [ht]
  refine found_token (if_neg hne) rfl ?_
  cases h : t.endsLine with
  | true =>
    rw [read_of_endsLine h, Token.isTrivia_of_endsLine h, step_of_endsLine h]
    rfl
  | false =>
    rw [read_of_onLine h]
    exact if_neg hne

/-- Outside directives, a reader finds what is found in the segments. -/
theorem found_eq_occurrencesInSegments (n : Nat) (hn : ts.length ≤ n) :
    found options boundary ⟨.lineStart, w⟩ index ts =
        occurrencesInSegments options boundary w index (segmentsFrom .lineStart ts) ∧
      found options boundary ⟨.midLine, w⟩ index ts =
        occurrencesInSegments options boundary w index (segmentsFrom .midLine ts) := by
  -- a directive is taken in one step, so the induction is on a bound of the number of tokens
  induction n generalizing ts w index with
  | zero =>
    obtain rfl := List.length_eq_zero_iff.mp (Nat.le_zero.mp hn)
    exact ⟨rfl, rfl⟩
  | succ n ih =>
    cases ts with
    | nil => exact ⟨rfl, rfl⟩
    | cons t ts =>
      have hts : ts.length ≤ n := Nat.le_of_succ_le_succ hn
      constructor
      · cases ht : t.isMark .hash with
        | true =>
          have hsplit : ts.takeWhile (!·.endsLine) ++ ts.dropWhile (!·.endsLine) = ts :=
            List.takeWhile_append_dropWhile
          have hline : ∀ u ∈ ts.takeWhile (!·.endsLine), u.endsLine = false := fun u hu => by
            simpa using List.all_eq_true.1 List.all_takeWhile u hu
          have hstop : ∀ u ∈ (ts.dropWhile (!·.endsLine)).head?, u.endsLine = true := fun u hu => by
            have hnot := List.head?_dropWhile_not (!·.endsLine) ts
            rw [hu] at hnot
            simpa using hnot
          have hlength : (ts.dropWhile (!·.endsLine)).length ≤ n :=
            Nat.le_trans (List.dropWhile_sublist _).length_le hts
          rw [← hsplit, found_hash ht hline hstop, (ih hlength).1, segmentsFrom_cons,
            Place.completes, Place.after, if_pos ht, if_pos ht, List.nil_append,
            segmentsFrom_onLine hline hstop]
          rfl
        | false =>
          have hne : ¬ t.isMark .hash = true := by simp [ht]
          rw [found_lineStart ht, segmentsFrom_cons, Place.completes, Place.after, if_neg hne,
            if_neg hne]
          cases t.isTrivia with
          | true => exact congrArg _ (ih hts).1
          | false => exact congrArg _ (ih hts).2
      · rw [found_midLine, segmentsFrom_cons, Place.completes, Place.after]
        cases t.endsLine with
        | true => exact congrArg _ (ih hts).1
        | false => exact congrArg _ (ih hts).2

end

end Reader

/-- The qualifiers of a token sequence are those that a reader finds. -/
theorem occurrences_eq_found (options : Options) (ts : List Token) :
    occurrences options ts = Reader.found options (ts.length - 1) {} 0 (beforeEnd ts) :=
  (Reader.found_eq_occurrencesInSegments _ (Nat.le_refl _)).1.symm

end EastConst
