import Mathlib.Data.Prod.Lex
import Mathlib.Order.Bounds.Basic
import EastConst.Proofs.Text.Boundary
import EastConst.Text.Position

/-!
# Lines and columns keep the order of offsets

Line and column of an offset are those of the end of a beginning of the text, the longest that the
offset has room for (`prefix_charsBefore_iff`). A longer beginning has a greater end: it has more
line feeds, or as many and a longer last line (`endPosition_lt`). And the end gives the beginning
back: so many lines, and so many characters more (`take_linesBefore`).
-/

namespace EastConst

/-- Line and column of the end of a text. -/
def endPosition (text : List Char) : Nat × Nat :=
  (text.count '\n', (lastLine text).length)

theorem lineColumn_eq (source : List Char) (offset : Nat) :
    lineColumn source offset = endPosition (charsBefore offset source) := rfl

/-! ## The beginning before an offset -/

section

variable {source before : List Char} {offset : Nat}

theorem charsBefore_begins (offset : Nat) (source : List Char) :
    charsBefore offset source <+: source := by
  fun_induction charsBefore offset source with
  | case1 => exact List.nil_prefix
  | case2 offset c text _ ih => exact List.cons_prefix_cons.2 ⟨rfl, ih⟩
  | case3 => exact List.nil_prefix

theorem byteLength_charsBefore_le (offset : Nat) (source : List Char) :
    Utf8.byteLength (charsBefore offset source) ≤ offset := by
  fun_induction charsBefore offset source with
  | case1 => exact Nat.zero_le _
  | case2 offset c text hle ih =>
    rw [Utf8.byteLength_cons]
    omega
  | case3 => exact Nat.zero_le _

/-- The characters before the end of a beginning are that beginning. -/
theorem charsBefore_append (before after : List Char) :
    charsBefore (Utf8.byteLength before) (before ++ after) = before := by
  induction before with
  | nil =>
    cases after with
    | nil => rfl
    | cons c after =>
      have hpos := Char.utf8Size_pos c
      rw [List.nil_append, charsBefore, if_neg (by simp; omega)]
  | cons c before ih =>
    rw [List.cons_append, charsBefore, Utf8.byteLength_cons, if_pos (by omega),
      Nat.add_sub_cancel_left, ih]

/-- A beginning is before an offset if the offset has room for it. -/
theorem prefix_charsBefore_iff (hbefore : before <+: source) :
    before <+: charsBefore offset source ↔ Utf8.byteLength before ≤ offset := by
  constructor
  · rintro ⟨rest, hrest⟩
    have hle := byteLength_charsBefore_le offset source
    rw [← hrest, Utf8.byteLength_append] at hle
    omega
  · intro hle
    induction before generalizing source offset with
    | nil => exact List.nil_prefix
    | cons c before ih =>
      obtain ⟨tail, rfl⟩ := hbefore
      rw [Utf8.byteLength_cons] at hle
      rw [List.cons_append, charsBefore, if_pos (by omega)]
      exact List.cons_prefix_cons.2 ⟨rfl, ih (List.prefix_append before tail) (by omega)⟩

/-- The characters before an offset are a beginning of those before a later one. -/
theorem charsBefore_mono {a b : Nat} (h : a ≤ b) (source : List Char) :
    charsBefore a source <+: charsBefore b source :=
  (prefix_charsBefore_iff (charsBefore_begins a source)).2
    (Nat.le_trans (byteLength_charsBefore_le a source) h)

/-- The beginning before a boundary has the length of the offset. -/
theorem byteLength_charsBefore (h : Utf8.IsBoundary (Utf8.encode source) offset) :
    Utf8.byteLength (charsBefore offset source) = offset := by
  obtain ⟨before, hbefore, rfl⟩ := Utf8.isBoundary_encode_iff.1 h
  obtain ⟨rest, hrest⟩ := (prefix_charsBefore_iff hbefore).2 (Nat.le_refl _)
  apply Nat.le_antisymm (byteLength_charsBefore_le _ source)
  rw [← hrest, Utf8.byteLength_append]
  exact Nat.le_add_right _ _

/-- The beginning before an offset ends at the last boundary that is not after it. -/
theorem isGreatest_charsBefore (source : List Char) (offset : Nat) :
    IsGreatest {n | Utf8.IsBoundary (Utf8.encode source) n ∧
      n ≤ min offset (Utf8.byteLength source)}
      (Utf8.byteLength (charsBefore offset source)) := by
  refine ⟨⟨Utf8.isBoundary_encode_iff.2 ⟨_, charsBefore_begins offset source, rfl⟩, ?_⟩, ?_⟩
  · obtain ⟨rest, hrest⟩ := charsBefore_begins offset source
    have hsource := congrArg Utf8.byteLength hrest
    rw [Utf8.byteLength_append] at hsource
    have := byteLength_charsBefore_le offset source
    omega
  · rintro n ⟨hn, hle⟩
    obtain ⟨before, hbefore, rfl⟩ := Utf8.isBoundary_encode_iff.1 hn
    have hroom : Utf8.byteLength before ≤ offset := by omega
    obtain ⟨rest, hrest⟩ := (prefix_charsBefore_iff hbefore).2 hroom
    rw [← hrest, Utf8.byteLength_append]
    exact Nat.le_add_right _ _

end

/-! ## The end of a text -/

section

variable {before text : List Char}

theorem lastLine_append (h : '\n' ∉ text) :
    lastLine (before ++ text) = lastLine before ++ text := by
  have hall : ∀ c ∈ text.reverse, (c != '\n') = true := fun c hc =>
    bne_iff_ne.2 fun he => h (he ▸ List.mem_reverse.1 hc)
  rw [lastLine, List.reverse_append, List.takeWhile_append_of_pos hall, List.reverse_append,
    List.reverse_reverse]
  rfl

/-- A text is the lines before its last one, each with its line feed, and the last one. -/
theorem exists_lines_append_lastLine (text : List Char) :
    ∃ lines, text = lines ++ lastLine text ∧ (∀ c ∈ lines.getLast?, c = '\n') ∧
      '\n' ∉ lastLine text := by
  refine ⟨(text.reverse.dropWhile (· != '\n')).reverse, ?_, ?_, ?_⟩
  · rw [lastLine, ← List.reverse_append, List.takeWhile_append_dropWhile, List.reverse_reverse]
  · intro c hc
    have hhead := List.head?_dropWhile_not (· != '\n') text.reverse
    rw [List.getLast?_reverse] at hc
    rw [show _ = some c from hc] at hhead
    simpa using hhead
  · intro hmem
    have hne := List.all_eq_true.1 List.all_takeWhile _ (List.mem_reverse.1 hmem)
    simp at hne

/-- The end of a text is before the end of a longer one. -/
theorem endPosition_lt (before : List Char) (h : text ≠ []) :
    toLex (endPosition before) < toLex (endPosition (before ++ text)) := by
  rw [Prod.Lex.toLex_lt_toLex]
  by_cases hlf : '\n' ∈ text
  · left
    have := List.count_pos_iff.2 hlf
    simp only [endPosition, List.count_append]
    omega
  · right
    have := List.length_pos_iff.2 h
    simp only [endPosition, List.count_append, List.count_eq_zero_of_not_mem hlf,
      lastLine_append hlf, List.length_append]
    omega

end

/-! ## From lines and columns to offsets -/

/-- The lines of a text before the one with a number, counted from zero, with their line feeds. -/
def linesBefore : (number : Nat) → List Char → List Char
  | 0, _ => []
  | _ + 1, [] => []
  | number + 1, c :: text => c :: linesBefore (if c = '\n' then number else number + 1) text

/-- The byte offset of a line and a column: so many characters after the start of the line. -/
def offsetOf (source : List Char) (position : Nat × Nat) : Nat :=
  Utf8.byteLength (source.take ((linesBefore position.1 source).length + position.2))

theorem linesBefore_append {lines : List Char} (hlast : ∀ c ∈ lines.getLast?, c = '\n')
    (text : List Char) :
    linesBefore (lines.count '\n') (lines ++ text) = lines := by
  induction lines with
  | nil => rw [List.count_nil, linesBefore]
  | cons c lines ih =>
    by_cases hnil : lines = []
    · subst hnil
      obtain rfl := hlast c rfl
      simp [linesBefore]
    have hlast' : ∀ c ∈ lines.getLast?, c = '\n' := by
      rwa [List.getLast?_cons_of_ne_nil hnil] at hlast
    by_cases hc : c = '\n'
    · subst hc
      rw [List.count_cons_self, List.cons_append, linesBefore, if_pos rfl, ih hlast']
    · -- a line that has begun ends within the lines
      obtain ⟨d, hd⟩ : ∃ d, lines.getLast? = some d := ⟨_, List.getLast?_eq_some_getLast hnil⟩
      obtain rfl := hlast' d hd
      obtain ⟨k, hk⟩ := Nat.exists_eq_succ_of_ne_zero
        (Nat.ne_of_gt (List.count_pos_iff.2 (List.mem_of_getLast? hd)))
      rw [List.count_cons_of_ne hc, hk, List.cons_append, linesBefore,
        if_neg hc, ← Nat.succ_eq_add_one, ← hk, ih hlast']

/-- Line and column of the end of a beginning lead back to it. -/
theorem take_linesBefore {source before : List Char} (h : before <+: source) :
    source.take ((linesBefore (endPosition before).1 source).length + (endPosition before).2) =
      before := by
  obtain ⟨rest, rfl⟩ := h
  obtain ⟨lines, hlines, hlast, hlf⟩ := exists_lines_append_lastLine before
  have hcount : before.count '\n' = lines.count '\n' := by
    rw [hlines, List.count_append, List.count_eq_zero_of_not_mem hlf, Nat.add_zero]
  have hstart : linesBefore (before.count '\n') (before ++ rest) = lines := by
    rw [hcount, hlines, List.append_assoc]
    exact linesBefore_append hlast _
  have hlength := congrArg List.length hlines
  rw [List.length_append] at hlength
  rw [endPosition, hstart, ← hlength, List.take_left]

/-- Line and column of an offset embed the order of the offsets, the order of line and column being
lexicographic: they never go back, they tell the boundaries apart, and they lead back to the last
boundary that is not after the offset. -/
theorem lineColumn_embeds_order (source : List Char) :
    (∀ a b, a ≤ b → toLex (lineColumn source a) ≤ toLex (lineColumn source b)) ∧
      (∀ a b, Utf8.IsBoundary (Utf8.encode source) a →
        Utf8.IsBoundary (Utf8.encode source) b → a < b →
        toLex (lineColumn source a) < toLex (lineColumn source b)) ∧
      ∀ offset, IsGreatest
        {n | Utf8.IsBoundary (Utf8.encode source) n ∧ n ≤ min offset (Utf8.byteLength source)}
        (offsetOf source (lineColumn source offset)) := by
  refine ⟨fun a b h => ?_, fun a b ha hb h => ?_, fun offset => ?_⟩
  · obtain ⟨rest, hrest⟩ := charsBefore_mono h source
    rw [lineColumn_eq, lineColumn_eq, ← hrest]
    by_cases hnil : rest = []
    · rw [hnil, List.append_nil]
    · exact le_of_lt (endPosition_lt _ hnil)
  · obtain ⟨rest, hrest⟩ := charsBefore_mono (Nat.le_of_lt h) source
    have hlength := congrArg Utf8.byteLength hrest
    rw [Utf8.byteLength_append, byteLength_charsBefore ha, byteLength_charsBefore hb] at hlength
    have hnil : rest ≠ [] := by
      rintro rfl
      rw [Utf8.byteLength_nil] at hlength
      omega
    rw [lineColumn_eq, lineColumn_eq, ← hrest]
    exact endPosition_lt _ hnil
  · rw [offsetOf, lineColumn_eq, take_linesBefore (charsBefore_begins offset source)]
    exact isGreatest_charsBefore source offset

/-- An offset within a character of two bytes, and the boundaries around the line feed after it. -/
theorem lineColumn_embeds_order_accent :
    lineColumn ['é', '\n', 'x'] 1 = (0, 0) ∧ offsetOf ['é', '\n', 'x'] (0, 0) = 0 ∧
      lineColumn ['é', '\n', 'x'] 2 = (0, 1) ∧ lineColumn ['é', '\n', 'x'] 3 = (1, 0) ∧
      toLex (lineColumn ['é', '\n', 'x'] 2) < toLex (lineColumn ['é', '\n', 'x'] 3) := by
  have hbefore : Utf8.IsBoundary (Utf8.encode ['é', '\n', 'x']) 2 :=
    Utf8.isBoundary_encode_iff.2 ⟨['é'], by decide, by decide⟩
  have hafter : Utf8.IsBoundary (Utf8.encode ['é', '\n', 'x']) 3 :=
    Utf8.isBoundary_encode_iff.2 ⟨['é', '\n'], by decide, by decide⟩
  refine ⟨by decide, by decide, by decide, by decide, ?_⟩
  exact (lineColumn_embeds_order ['é', '\n', 'x']).2.1 2 3 hbefore hafter (by decide)

end EastConst
