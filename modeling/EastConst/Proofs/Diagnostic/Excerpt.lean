import EastConst.Proofs.Diagnostic.Exact
import EastConst.Proofs.Text.Lines

/-!
# What an excerpt shows

An excerpt shows the lines around an offset, as `lines` cuts them, and marks the one with the number
that the line feeds before the offset count (`showsAround_shownRows`). If no line had that number,
there would be no mark. There is one wherever a character stands at the offset, and this line has
the character (`showsPlace_excerpt`). A diagnostic stands at one always: a lexeme starts there that
is no white space (`exists_char_of_mem`).
-/

namespace EastConst

/-! ## The rows of an excerpt -/

/-- One line of an excerpt. -/
structure ExcerptRow where
  marked : Bool
  /-- The number of the line, from one. -/
  number : Nat
  text : List Char
  deriving DecidableEq, Repr

/-- A row in print. -/
def ExcerptRow.print (row : ExcerptRow) : String :=
  (if row.marked then ">>" else "  ") ++ " " ++ lineNumber row.number ++ " | " ++
    String.ofList row.text ++ "\n"

/-- The rows that are shown around the line with a number. -/
def shownRows (source : List Char) (line : Nat) : List ExcerptRow :=
  (((lines source).zipIdx.take (line + 3)).drop (line - 2)).map fun p => ⟨p.2 == line, p.2 + 1, p.1⟩

/-- Whether rows are the lines of a source from two before to two after the one with a number, in
order, and that line alone has a mark. -/
structure ShowsAround (source : List Char) (line : Nat) (rows : List ExcerptRow) : Prop where
  consecutive : rows.map (·.number) = List.range' (line - 2 + 1) rows.length
  mem_iff : ∀ row, row ∈ rows ↔ ∃ k,
    row.number = k + 1 ∧ IsLine source k row.text ∧ line ≤ k + 2 ∧ k ≤ line + 2 ∧
    row.marked = decide (k = line)
  /-- Each row is one line in print. -/
  unbroken : ∀ row ∈ rows, '\n' ∉ row.text

theorem excerpt_eq (source : List Char) (offset : Nat) :
    excerpt source offset =
      String.join ((shownRows source (lineColumn source offset).1).map (·.print)) := by
  rw [shownRows, List.map_map]
  rfl

theorem mem_window {α : Type} {xs : List α} {x : α} {k start stop : Nat} :
    (x, k) ∈ (xs.zipIdx.take stop).drop start ↔ xs[k]? = some x ∧ start ≤ k ∧ k < stop := by
  rw [List.mem_iff_getElem?]
  constructor
  · rintro ⟨i, hi⟩
    rw [List.getElem?_drop, List.getElem?_take, List.getElem?_zipIdx] at hi
    split at hi
    · obtain ⟨y, hy, heq⟩ := Option.map_eq_some_iff.1 hi
      obtain ⟨rfl, rfl⟩ := Prod.mk.inj heq
      rw [Nat.zero_add]
      exact ⟨hy, Nat.le_add_right _ _, ‹_›⟩
    · cases hi
  · rintro ⟨hx, hstart, hstop⟩
    refine ⟨k - start, ?_⟩
    rw [List.getElem?_drop, Nat.add_sub_cancel' hstart, List.getElem?_take, if_pos hstop,
      List.getElem?_zipIdx, hx, Nat.zero_add]
    rfl

/-- The rows are the lines at most two away from the one that is shown, which alone is marked. -/
theorem mem_shownRows {source : List Char} {line : Nat} {row : ExcerptRow} :
    row ∈ shownRows source line ↔
    ∃ k, row.number = k + 1 ∧ IsLine source k row.text ∧ line ≤ k + 2 ∧ k ≤ line + 2 ∧
      row.marked = decide (k = line) := by
  rw [shownRows, List.mem_map]
  constructor
  · rintro ⟨⟨text, k⟩, hmem, rfl⟩
    obtain ⟨hline, hstart, hstop⟩ := mem_window.1 hmem
    exact ⟨k, rfl, getElem?_lines_iff.1 hline, by omega, by omega, beq_eq_decide k line⟩
  · rintro ⟨k, hnumber, hline, hstart, hstop, hmarked⟩
    refine ⟨(row.text, k), mem_window.2 ⟨getElem?_lines_iff.2 hline, by omega, by omega⟩, ?_⟩
    rw [beq_eq_decide, ← hmarked, ← hnumber]

theorem showsAround_shownRows (source : List Char) (line : Nat) :
    ShowsAround source line (shownRows source line) := by
  refine ⟨?_, fun row => mem_shownRows, fun row hrow => ?_⟩
  · apply List.ext_getElem
    · rw [List.length_map, List.length_range']
    · intro i _ _
      simp [shownRows]
      omega
  · obtain ⟨k, -, hline, -⟩ := mem_shownRows.1 hrow
    exact hline.not_mem_lf

namespace ShowsAround

variable {source text : List Char} {line : Nat} {rows : List ExcerptRow}

/-- The rows stand in the order of the lines. -/
theorem pairwise (h : ShowsAround source line rows) : rows.Pairwise (·.number < ·.number) := by
  have hnumbers : (rows.map (·.number)).Pairwise (· < ·) := by
    rw [h.consecutive]
    exact List.pairwise_lt_range'
  exact List.pairwise_map.1 hnumbers

theorem eq_of_marked (h : ShowsAround source line rows) (hline : IsLine source line text)
    {row : ExcerptRow} (hrow : row ∈ rows.filter (·.marked)) : row = ⟨true, line + 1, text⟩ := by
  obtain ⟨hmem, hmarked⟩ := List.mem_filter.1 hrow
  obtain ⟨k, hnumber, hk, -, -, hmark⟩ := (h.mem_iff row).1 hmem
  obtain rfl : k = line := by simpa [hmarked] using hmark
  obtain ⟨marked, number, text'⟩ := row
  obtain rfl : marked = true := hmarked
  obtain rfl : number = k + 1 := hnumber
  obtain rfl : text' = text := hk.unique hline
  rfl

/-- If there is a line with the number, its row has the mark and no other has. -/
theorem filter_marked (h : ShowsAround source line rows) (hline : IsLine source line text) :
    rows.filter (·.marked) = [⟨true, line + 1, text⟩] := by
  have hmem : (⟨true, line + 1, text⟩ : ExcerptRow) ∈ rows.filter (·.marked) :=
    List.mem_filter.2 ⟨(h.mem_iff _).2 ⟨line, rfl, hline, by omega, by omega, by simp⟩, rfl⟩
  have hall : ∀ row ∈ rows.filter (·.marked), row = ⟨true, line + 1, text⟩ :=
    fun row => h.eq_of_marked hline
  have hpairwise := h.pairwise.filter (·.marked)
  generalize rows.filter (·.marked) = marked at hmem hall hpairwise
  cases marked with
  | nil => cases hmem
  | cons row rest =>
    obtain rfl := hall row List.mem_cons_self
    cases rest with
    | nil => rfl
    | cons row' rest =>
      -- two rows with the mark would have one number
      have hlt := List.rel_of_pairwise_cons hpairwise List.mem_cons_self
      rw [hall row' (by simp)] at hlt
      exact absurd hlt (Nat.lt_irrefl _)

end ShowsAround

/-! ## The character at an offset -/

/-- A diagnostic stands at a character that is no white space. -/
theorem exists_char_of_mem {options : Options} {source : List Char} {d : Diagnostic}
    (h : d ∈ diagnostics options source) :
    ∃ before c after, source = before ++ c :: after ∧ Utf8.byteLength before = d.offset ∧
      Lexeme.Space.isSpace c = false := by
  obtain ⟨i, t, ht, hend, hspace, hoffset⟩ : ∃ i t,
      (tokens source)[i]? = some t ∧ t.kind ≠ .endOfInput ∧
      t.kind ≠ .whitespace ∧ d.offset = offsetAt (tokens source) i := by
    rcases List.mem_append.1 ((Diagnostic.merge_perm _ _).mem_iff.1 h) with hd | hd
    · obtain ⟨i, l, hl, hdiag⟩ := mem_lexicalDiagnostics hd
      obtain ⟨hoffset, -, hconstruct⟩ := Lexeme.diagnostic?_eq_some hdiag
      refine ⟨i, _, (getElem?_of_lexemes hl).1, Token.kindOf_ne_endOfInput l, ?_, hoffset⟩
      intro hk
      rw [Token.kindOf_eq_whitespace.1 hk] at hconstruct
      cases hconstruct
    · obtain ⟨refused, hmem, rfl⟩ := List.mem_map.1 hd
      obtain ⟨first, hfirst, -, hoffset⟩ := exists_first_of_refused hmem
      obtain ⟨t, ht, hk⟩ := exists_keyword_of_refused hmem hfirst
      exact ⟨first, t, ht, by simp [hk], by simp [hk], hoffset⟩
  obtain ⟨c, rest, htext, hc, -⟩ := head_of_solid ht hend hspace
  have hplaced : (placed (tokens source))[i]? = some ⟨t, offsetAt (tokens source) i⟩ := by
    rw [placed, placedFrom_getElem?, ht, Nat.zero_add]
    rfl
  obtain ⟨before, after, hsource, hbefore⟩ := source_eq_of_placed hplaced
  refine ⟨before, c, rest ++ after, ?_, hbefore.trans hoffset.symm, hc⟩
  conv => lhs; rw [hsource, htext, List.append_assoc]
  rfl

/-- Whether a text shows the place of an offset of a source: it has the lines around it, one of
which has the mark. That line has the number of the offset's line, it is what stands between the
line feeds around the offset, and the character at the offset is in it, in the offset's column. -/
def ShowsPlace (source : List Char) (offset : Nat) (shown : String) : Prop :=
  ∃ before c after rows row, source = before ++ c :: after ∧ Utf8.byteLength before = offset ∧
    shown = String.join (rows.map (·.print)) ∧
    ShowsAround source (lineColumn source offset).1 rows ∧
    rows.filter (·.marked) = [row] ∧ row.number = (lineColumn source offset).1 + 1 ∧
    row.text = lineAround before (c :: after) ∧ row.text[(lineColumn source offset).2]? = some c

/-- The excerpt at the offset of a character marks its line and points at its column. -/
theorem showsPlace_excerpt (before after : List Char) {c : Char} (hc : c ≠ '\n') (hcr : c ≠ '\r') :
    ShowsPlace (before ++ c :: after) (Utf8.byteLength before)
      (excerpt (before ++ c :: after) (Utf8.byteLength before)) := by
  have hposition : lineColumn (before ++ c :: after) (Utf8.byteLength before) =
      endPosition before := by
    rw [lineColumn_eq, charsBefore_append]
  have hshows := showsAround_shownRows (before ++ c :: after) (endPosition before).1
  refine ⟨before, c, after, shownRows (before ++ c :: after) (endPosition before).1,
    ⟨true, (endPosition before).1 + 1, lineAround before (c :: after)⟩, rfl, rfl, ?_⟩
  rw [excerpt_eq, hposition]
  exact ⟨rfl, hshows, hshows.filter_marked (isLine_lineAround before c after), rfl, rfl,
    getElem?_lineAround before after hc hcr⟩

/-- The excerpt at a diagnostic of a relocated source shows its place. -/
theorem excerpt_shows_diagnostic {options : Options} {source : List Char} {r : Relocated}
    {d : Diagnostic} (h : relocate options source = .ok r) (hd : d ∈ r.diagnostics) :
    ShowsPlace source d.offset (excerpt source d.offset) := by
  rw [diagnostics_of_relocate h] at hd
  obtain ⟨before, c, after, rfl, hoffset, hspace⟩ := exists_char_of_mem hd
  have hc : c ≠ '\n' ∧ c ≠ '\r' := by
    constructor <;> rintro rfl <;> cases hspace
  rw [← hoffset]
  exact showsPlace_excerpt before after hc.1 hc.2

/-- A literal without an end, in a line between two line breaks. -/
theorem excerpt_shows_diagnostic_literal :
    lineColumn "\r\n'a\r\n".toList 2 = (1, 0) ∧
      ShowsPlace "\r\n'a\r\n".toList 2 "     1 | \n>>   2 | 'a\n" := by
  have hrelocate : relocate {} "\r\n'a\r\n".toList =
      .ok ⟨"\r\n'a\r\n".toList, diagnostics {} "\r\n'a\r\n".toList⟩ := by
    decide +kernel
  obtain ⟨d, hd, hoffset⟩ : ∃ d ∈ diagnostics {} "\r\n'a\r\n".toList, d.offset = 2 := by
    decide +kernel
  have hshows := excerpt_shows_diagnostic hrelocate hd
  have hexcerpt : excerpt "\r\n'a\r\n".toList 2 = "     1 | \n>>   2 | 'a\n" := by
    decide +kernel
  rw [hoffset, hexcerpt] at hshows
  exact ⟨by decide +kernel, hshows⟩

end EastConst
