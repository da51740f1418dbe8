import EastConst.Proofs.Plan.Rereading

/-!
# Reading a relocated source again

`Plan.carryOut` is what a plan does to a token sequence without whitespace. The tokens of the output
are those of the source with the plan carried out, as far as no opening of a raw string that opens
none in the source comes to open one (`tokens_take`); in a source whose raw strings are all closed
there is no such opening.
-/

namespace EastConst

/-- What a plan leaves of the token at an index, whitespace apart. -/
def Plan.kept (plan : Plan) (t : Token) (index : Nat) : List Token :=
  if plan.removes index || t.kind == .whitespace then [] else [t]

/-- What a plan makes of the token at an index: what it leaves of it, and then the qualifiers that
are moved behind it, in the order of the moves. -/
def Plan.carry (plan : Plan) (t : Token) (index : Nat) : List Token :=
  plan.kept t index ++
    (plan.moves.filter (·.anchor == index)).map fun m => ⟨.keyword, m.qualifier.text⟩

/-- The tokens without whitespace that a plan makes of tokens. -/
def Plan.carryOut (plan : Plan) (tokens : List Token) : List Token :=
  tokens.zipIdx.flatMap fun (t, index) => plan.carry t index

/-- The tokens of a source without whitespace. -/
def solidTokens (source : List Char) : List Token :=
  (tokens source).filter (·.kind != .whitespace)

theorem solidTokens_eq (source : List Char) :
    solidTokens source = (Lexeme.solid source).map Token.ofLexeme ++ [Token.endOfInput] := by
  have hkind : ∀ l : Lexeme,
      ((Token.ofLexeme l).kind != .whitespace) = (l.kind != .whitespace) := by
    intro l
    rw [Bool.eq_iff_iff, bne_iff_ne, bne_iff_ne]
    exact not_congr Token.kindOf_eq_whitespace
  rw [solidTokens, tokens, List.filter_append, List.filter_map, Lexeme.solid]
  congr 2
  exact List.filter_congr fun l _ => hkind l

/-- A relocated source is what its plan writes. -/
theorem output_of_relocate {options : Options} {source : List Char} {r : Relocated}
    (h : relocate options source = .ok r) : r.output = outFrom options source 0 := by
  simp only [relocate, Plan.apply] at h
  split at h
  · cases h
  · cases h
    rfl

theorem relocate_of_plan {options : Options} {source : List Char} {plan : Plan}
    (hplan : Plan.ofTokens options (tokens source) = plan)
    (hfault : plan.fault? (tokens source) = none) :
    relocate options source = .ok ⟨plan.render (tokens source), diagnostics options source⟩ := by
  simp only [relocate, Plan.apply, hplan, hfault]
  rfl

/-- A source for which an output can be had is relocated to it. -/
theorem exists_relocated {options : Options} {source output : List Char}
    (h : (relocate options source).toOption.map Relocated.output = some output) :
    ∃ r, relocate options source = .ok r ∧ r.output = output := by
  cases hrel : relocate options source with
  | error failure =>
    rw [hrel] at h
    cases h
  | ok r =>
    rw [hrel] at h
    exact ⟨r, rfl, Option.some.inj h⟩

section

variable {options : Options} {source : List Char} {i n : Nat} {t : Token}

/-- Whether the lexeme at an index, if it is the opening of a raw string that opens none in the
source, opens none in what the plan writes either. -/
def KeepsOpening (options : Options) (source : List Char) (index : Nat) : Prop :=
  ∀ l, (Lexeme.lexemes source)[index]? = some l → l.isBareOpening = true →
    Lexeme.Raw.bodyLength (outFrom options source (index + 1)) = (0, false)

/-- For whitespace and qualifiers that go nothing is carried over. -/
theorem carry_of_gone (ht : (tokens source)[i]? = some t)
    (h : (planOf options source).removes i = true ∨ t.kind = .whitespace) :
    (planOf options source).carry t i = [] := by
  have he : t.endsType = false := by
    rcases h with hr | hk
    · exact (kind_of_removes hr ht).2
    · exact endsType_of_whitespace hk
  rw [Plan.carry, Plan.kept, filter_anchor_eq_nil ht he, if_pos (by simpa using h)]
  rfl

/-- A token that stays is carried over with the qualifiers that are put in behind it. -/
theorem carry_of_kept {plan : Plan} (hr : plan.removes i = false) (hk : t.kind ≠ .whitespace) :
    plan.carry t i =
      t :: (plan.moves.filter (·.anchor == i)).map fun m => ⟨.keyword, m.qualifier.text⟩ := by
  rw [Plan.carry, Plan.kept, if_neg (by simp [hr, hk]), List.singleton_append]

/-- The tokens that the output has from an index of the source on, each with the whitespace before
it. -/
def written (options : Options) (source gap : List Char) (index : Nat) : List (List Char × Token) :=
  (Lexeme.gapped gap (outFrom options source index)).map (Prod.map id Token.ofLexeme)

theorem map_written (gap : List Char) (index : Nat) :
    (written options source gap index).map Prod.snd =
      (Lexeme.solid (outFrom options source index)).map Token.ofLexeme := by
  rw [written, Lexeme.solid_eq gap, List.map_map, List.map_map]
  rfl

/-- What goes leaves its piece in the gap. -/
theorem written_of_gone (ht : (tokens source)[i]? = some t)
    (h : (planOf options source).removes i = true ∨ t.kind = .whitespace) (gap : List Char) :
    written options source gap i =
      written options source (gap ++ (planOf options source).piece t i) (i + 1) := by
  rcases h with hr | hk
  · rw [written, gapped_of_removes ht hr]
    rfl
  · rw [written, gapped_of_whitespace ht hk]
    rfl

/-- What stays is written after the gap, and the qualifiers that are moved behind it are written
then. -/
theorem written_of_kept (ht : (tokens source)[i]? = some t) (hend : t.kind ≠ .endOfInput)
    (hk : t.kind ≠ .whitespace) (hr : (planOf options source).removes i = false)
    (hraw : KeepsOpening options source i) (gap : List Char) :
    written options source gap i =
      (gap, t) :: ((planOf options source).moves.filter (·.anchor == i)).map
          (fun m => ([' '], ⟨.keyword, m.qualifier.text⟩)) ++
        written options source ((planOf options source).padding i) (i + 1) := by
  obtain ⟨l, hl, rfl, hreads⟩ := exists_lexeme ht hend
  have hkl : l.kind ≠ .whitespace := fun h => hk (Token.kindOf_eq_whitespace.2 h)
  have hkept := reads_of_kept ht hreads hkl hr (hraw l hl)
  have hword : ∀ q : Qualifier, Token.ofLexeme ⟨.word, q.text, true⟩ = ⟨.keyword, q.text⟩ := by
    intro q
    cases q <;> decide
  rw [written, outFrom_cons ht, piece_of_solid ht hk hr, List.append_assoc, Token.ofLexeme_text,
    hkept.gapped hkl, gapped_insertion hr, written]
  simp [hword]

/-- One token of the source gives the tokens that the plan makes of it. -/
theorem solid_outFrom (ht : (tokens source)[i]? = some t) (hend : t.kind ≠ .endOfInput)
    (hraw : KeepsOpening options source i) :
    (Lexeme.solid (outFrom options source i)).map Token.ofLexeme =
      (planOf options source).carry t i ++
        (Lexeme.solid (outFrom options source (i + 1))).map Token.ofLexeme := by
  rw [← map_written []]
  by_cases h : (planOf options source).removes i = true ∨ t.kind = .whitespace
  · rw [written_of_gone ht h, map_written, carry_of_gone ht h, List.nil_append]
  · obtain ⟨hr, hk⟩ := not_or.1 h
    rw [written_of_kept ht hend hk (by simpa using hr) hraw, List.map_append, map_written,
      carry_of_kept (by simpa using hr) hk]
    simp

/-- As far as the openings are kept, the tokens of the output are those of the source with the plan
carried out. -/
theorem tokens_take (hn : n ≤ (tokens source).length - 1)
    (hraw : ∀ k < n, KeepsOpening options source k) :
    (Lexeme.solid (outFrom options source 0)).map Token.ofLexeme =
      (((tokens source).zipIdx.take n).flatMap fun (t, k) => (planOf options source).carry t k) ++
        (Lexeme.solid (outFrom options source n)).map Token.ofLexeme := by
  induction n with
  | zero => simp
  | succ n ih =>
    have hlt : n < (tokens source).length - 1 := by omega
    obtain ⟨t, ht, hend⟩ := exists_token hlt
    have htake : (tokens source).zipIdx.take (n + 1) =
        (tokens source).zipIdx.take n ++ [(t, n)] := by
      rw [List.take_add_one, List.getElem?_zipIdx, ht]
      simp
    rw [ih (by omega) fun k hk => hraw k (by omega),
      solid_outFrom ht hend (hraw n (by omega)), htake]
    simp

/-- The tokens of the output are those of the source with the plan carried out, if the openings are
kept. -/
theorem solidTokens_output (hraw : ∀ k, KeepsOpening options source k) :
    solidTokens (outFrom options source 0) = (planOf options source).carryOut (tokens source) := by
  have hne : (tokens source).length ≠ 0 := by simp [tokens]
  have hlast : (tokens source).zipIdx =
      (tokens source).zipIdx.take ((tokens source).length - 1) ++
        [(Token.endOfInput, (tokens source).length - 1)] := by
    have hlen : (tokens source).zipIdx.take ((tokens source).length - 1 + 1) =
        (tokens source).zipIdx :=
      List.take_of_length_le (by rw [List.length_zipIdx]; omega)
    rw [← hlen, List.take_add_one, List.getElem?_zipIdx, getElem?_end]
    simp
  have hend : (planOf options source).carry Token.endOfInput ((tokens source).length - 1) =
      [Token.endOfInput] := by
    rw [carry_of_kept (removes_end options source) (by decide),
      filter_anchor_eq_nil (getElem?_end source) rfl, List.map_nil]
  rw [solidTokens_eq, tokens_take (Nat.le_refl _) fun k _ => hraw k, outFrom_of_end (Nat.le_refl _),
    Plan.carryOut, hlast, List.flatMap_append]
  simp [hend]

end

/-! ## Sources without open raw strings -/

/-- A lexeme that is not closed has a diagnostic with the code of its construct. -/
theorem exists_diagnostic {ls : List Lexeme} {l : Lexeme} {code name : String} {offset : Nat}
    (h : l ∈ ls) (hopen : l.closed = false) (hk : l.kind.construct? = some (code, name)) :
    ∃ d ∈ lexicalDiagnosticsFrom offset ls, d.code = some code := by
  induction ls generalizing offset with
  | nil => cases h
  | cons l' ls ih =>
    rw [lexicalDiagnosticsFrom]
    rcases List.mem_cons.1 h with rfl | h
    · have hd : l.diagnostic? offset =
          some (.warning offset code ("Unterminated " ++ name ++ ", closed implicitly")) := by
        simp [Lexeme.diagnostic?, hopen, hk]
      exact ⟨_, List.mem_append_left _ (Option.mem_toList.2 hd), rfl⟩
    · obtain ⟨d, hd, hcode⟩ := ih h
      exact ⟨d, List.mem_append_right _ hd, hcode⟩

/-- The opening of a raw string that opens none is not closed. -/
theorem closed_of_isBareOpening {l : Lexeme} {r : List Char}
    (h : Lexeme.Reads l.text r l.kind l.closed) (hl : l.isBareOpening = true) :
    l.kind = .rawString ∧ l.closed = false := by
  rw [Lexeme.isBareOpening, Bool.and_eq_true, beq_iff_eq, List.any_eq_true] at hl
  obtain ⟨hk, word, hw, htext⟩ := hl
  rw [beq_iff_eq] at htext
  have hbare : Lexeme.Reads l.text [] .rawString false :=
    Lexeme.reads_rawString_iff.2 ⟨word, hw, [], by simp [htext], rfl⟩
  exact ⟨hk, (hbare.unique h).2⟩

/-- Where every raw string is closed, there is no bare opening to keep. -/
theorem keepsOpening_of_closed {options : Options} {source : List Char}
    (h : ∀ d ∈ lexicalDiagnostics source, d.code ≠ some "unterminated-raw-string") (k : Nat) :
    KeepsOpening options source k := by
  intro l hl hbare
  have hmem := List.mem_of_getElem? hl
  obtain ⟨pre, post, hsplit⟩ := List.append_of_mem hmem
  obtain ⟨hk, hopen⟩ := closed_of_isBareOpening (Lexeme.reads_of_lexemes hsplit) hbare
  have hcode : l.kind.construct? = some ("unterminated-raw-string", "raw string literal") := by
    rw [hk]
    rfl
  obtain ⟨d, hd, hdcode⟩ : ∃ d ∈ lexicalDiagnostics source,
      d.code = some "unterminated-raw-string" :=
    exists_diagnostic hmem hopen hcode
  exact absurd hdcode (h d hd)

/-- If the raw strings of a source are closed, the tokens of its relocation are its own tokens,
without the qualifiers that go and with each of them after its anchor, in the order of the moves. -/
theorem solidTokens_relocated {options : Options} {source : List Char} {r : Relocated}
    (hrel : relocate options source = .ok r)
    (hraw : ∀ d ∈ lexicalDiagnostics source, d.code ≠ some "unterminated-raw-string") :
    solidTokens r.output = (Plan.ofTokens options (tokens source)).carryOut (tokens source) := by
  rw [output_of_relocate hrel]
  exact solidTokens_output (keepsOpening_of_closed hraw)

/-- A qualifier in the arguments of a type behind which another one moves. -/
theorem solidTokens_nested :
    ∃ r, relocate {} "const A<const int>/*p*/x;".toList = .ok r ∧
      (∀ d ∈ lexicalDiagnostics "const A<const int>/*p*/x;".toList,
        d.code ≠ some "unterminated-raw-string") ∧
      solidTokens r.output =
        (Plan.ofTokens {} (tokens "const A<const int>/*p*/x;".toList)).carryOut
          (tokens "const A<const int>/*p*/x;".toList) := by
  have hout : (relocate {} "const A<const int>/*p*/x;".toList).toOption.map Relocated.output =
      some "A<int const> const /*p*/x;".toList := by decide +kernel
  have hraw : ∀ d ∈ lexicalDiagnostics "const A<const int>/*p*/x;".toList,
      d.code ≠ some "unterminated-raw-string" := by decide +kernel
  obtain ⟨r, hrel, -⟩ := exists_relocated hout
  exact ⟨r, hrel, hraw, solidTokens_relocated hrel hraw⟩

end EastConst
