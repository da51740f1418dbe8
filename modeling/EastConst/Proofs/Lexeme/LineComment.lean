import EastConst.Proofs.Text.Lines

/-!
# Where line comments end

A line comment goes over the line breaks that a backslash continues, and ends before the first other
one (`EndsAtBreak`). That settles where it ends (`EndsAtBreak.unique`), and `Comment.lineLength`
finds the place (`endsAtBreak_take`), one line after another (`lineLength_of_line`).

`look` searches the bytes of the text for the next line feed and then looks back, past a carriage
return, for a backslash. It may look back before the place where it started, but finds a line feed
there. So its rounds go from line to line and end where the comment ends (`searches_encode`).
-/

namespace EastConst.Lexeme.Comment

open Quoted (dropReturn dropReturn_append dropReturn_begins dropReturn_cons take_dropReturn)

/-! ## The first line break that is not continued -/

/-- Whether the line feed after a text, with the carriage return at the end of the text, comes right
after a backslash. -/
def Continues (upto : List Char) : Prop :=
  (dropReturn upto).getLast? = some '\\'

instance (upto : List Char) : Decidable (Continues upto) :=
  inferInstanceAs (Decidable (_ = _))

/-- Whether a comment ends where it should, `text` being all that follows its `//`. -/
structure EndsAtBreak (text body : List Char) : Prop where
  /-- Every line break in it is continued. -/
  inside : ∀ upto after, text = upto ++ '\n' :: after → upto.length < body.length → Continues upto
  /-- It ends before a line break that is not, or with the text. -/
  stop : (∃ upto after, text = upto ++ '\n' :: after ∧ ¬ Continues upto ∧ body = dropReturn upto) ∨
    body = text

theorem eq_of_dropReturn_eq_nil {line : List Char} (h : dropReturn line = []) :
    line = [] ∨ line = ['\r'] := by
  unfold dropReturn at h
  split at h
  · rename_i hlast
    obtain ⟨rest, rfl⟩ := List.getLast?_eq_some_iff.1 hlast
    rw [List.dropLast_concat] at h
    rw [h]
    exact .inr rfl
  · exact .inl h

section

variable {before : List Char} (h : EndsLines before)

include h

theorem dropReturn_of_endsLines (upto : List Char) :
    dropReturn (before ++ upto) = before ++ dropReturn upto := by
  refine dropReturn_append before upto fun _ hlast => ?_
  have hlf := h _ hlast
  cases hlf

/-- Whether a line break is continued does not depend on the lines before it. -/
theorem continues_append (upto : List Char) : Continues (before ++ upto) ↔ Continues upto := by
  rw [Continues, Continues, dropReturn_of_endsLines h, List.getLast?_append]
  cases (dropReturn upto).getLast? with
  | some c => rfl
  | none =>
    rw [Option.none_or]
    refine iff_of_false (fun hlast => ?_) (by simp)
    have hlf := h _ hlast
    cases hlf

end

theorem endsLines_lf (line : List Char) : EndsLines (line ++ ['\n']) :=
  endsLines_append.2 endsLines_nil

theorem dropReturn_cons_lf (line upto : List Char) :
    dropReturn (line ++ '\n' :: upto) = line ++ '\n' :: dropReturn upto := by
  rw [List.append_cons, dropReturn_of_endsLines (endsLines_lf line), ← List.append_cons]

/-- Whether a line is continued is seen from the characters after the line break before it. -/
theorem continues_cons_lf (line upto : List Char) :
    Continues (line ++ '\n' :: upto) ↔ Continues upto := by
  rw [List.append_cons]
  exact continues_append (endsLines_lf line) upto

/-- A line break comes after all those before it. -/
theorem lt_length_dropReturn (line upto : List Char) :
    line.length < (dropReturn (line ++ '\n' :: upto)).length := by
  rw [dropReturn_cons_lf, List.length_append, List.length_cons]
  omega

/-- Of two line feeds of a text one comes first, unless they are the same. -/
theorem break_trichotomy {upto after upto' after' : List Char}
    (h : upto ++ '\n' :: after = upto' ++ '\n' :: after') :
    upto = upto' ∨ (∃ mid, upto' = upto ++ '\n' :: mid) ∨ ∃ mid, upto = upto' ++ '\n' :: mid := by
  rcases List.append_eq_append_iff.1 h with ⟨mid, rfl, hmid⟩ | ⟨mid, rfl, hmid⟩ <;> cases mid with
  | nil => exact .inl (by rw [List.append_nil])
  | cons c mid =>
    obtain ⟨rfl, -⟩ := List.cons.inj hmid
    simp

namespace EndsAtBreak

variable {text body body' : List Char}

theorem eq_of_text (h : EndsAtBreak text text) (h' : EndsAtBreak text body) : body = text := by
  rcases h'.stop with ⟨upto, after, htext, hbreak, -⟩ | hbody
  · refine absurd (h.inside upto after htext ?_) hbreak
    rw [htext, List.length_append, List.length_cons]
    omega
  · exact hbody

/-- There is one place where a comment should end. -/
theorem unique (h : EndsAtBreak text body) (h' : EndsAtBreak text body') : body = body' := by
  rcases h.stop with ⟨upto, after, htext, hbreak, rfl⟩ | rfl
  · rcases h'.stop with ⟨upto', after', htext', hbreak', rfl⟩ | rfl
    · rcases break_trichotomy (htext.symm.trans htext') with rfl | ⟨mid, rfl⟩ | ⟨mid, rfl⟩
      · rfl
      · exact absurd (h'.inside upto after htext (lt_length_dropReturn upto mid)) hbreak
      · exact absurd (h.inside upto' after' htext' (lt_length_dropReturn upto' mid)) hbreak'
    · exact h'.eq_of_text h
  · exact (h.eq_of_text h').symm

/-- A comment goes on after a line break that is continued. -/
theorem cons_line {line after : List Char} (hline : '\n' ∉ line) (hcontinues : Continues line)
    (h : EndsAtBreak after body) : EndsAtBreak (line ++ '\n' :: after) (line ++ '\n' :: body) := by
  constructor
  · intro upto rest htext hlt
    rcases break_cases hline htext with ⟨rfl, -⟩ | ⟨upto, rfl, hafter⟩
    · exact hcontinues
    · rw [continues_cons_lf]
      refine h.inside upto rest hafter ?_
      simp only [List.length_append, List.length_cons] at hlt
      omega
  · rcases h.stop with ⟨upto, rest, hafter, hbreak, rfl⟩ | rfl
    · refine .inl ⟨line ++ '\n' :: upto, rest, ?_, mt (continues_cons_lf line upto).1 hbreak, ?_⟩
      · rw [hafter, List.append_assoc]
        rfl
      · exact (dropReturn_cons_lf line upto).symm
    · exact .inr rfl

/-- A comment ends before a line break that is not continued. -/
theorem of_line {line : List Char} (hline : '\n' ∉ line) (hbreak : ¬ Continues line)
    (after : List Char) :
    EndsAtBreak (line ++ '\n' :: after) (dropReturn line) := by
  refine ⟨fun upto rest htext hlt => ?_, .inl ⟨line, after, rfl, hbreak, rfl⟩⟩
  have hle := (dropReturn_begins line).length_le
  rcases break_cases hline htext with ⟨rfl, -⟩ | ⟨upto, rfl, -⟩
  · omega
  · rw [List.length_append] at hlt
    omega

/-- A comment on a last line runs to its end. -/
theorem of_last {line : List Char} (hline : '\n' ∉ line) : EndsAtBreak line line := by
  refine ⟨fun upto after htext _ => ?_, .inr rfl⟩
  rw [htext] at hline
  simp at hline

end EndsAtBreak

/-! ## The length of a comment, line by line -/

section

variable {line : List Char}

theorem lineLength_of_last (h : '\n' ∉ line) : lineLength line = line.length := by
  induction line with
  | nil => rfl
  | cons c line ih =>
    rw [List.mem_cons, not_or] at h
    have hnext (rest : List Char) : line ≠ '\n' :: rest := by
      rintro rfl
      exact h.2 List.mem_cons_self
    have hnext' (rest : List Char) : line ≠ '\r' :: '\n' :: rest := by
      rintro rfl
      exact h.2 (by simp)
    rw [lineLength.eq_5 c line (fun rest _ => hnext rest) (fun rest _ => hnext' rest)
      (fun rest _ => hnext rest)
      (Ne.symm h.1), ih h.2, List.length_cons]

/-- A line is read as a whole: the comment goes on after it, or ends with it. -/
theorem lineLength_of_line (h : '\n' ∉ line) (after : List Char) :
    lineLength (line ++ '\n' :: after) =
    if Continues line then line.length + 1 + lineLength after else (dropReturn line).length := by
  induction line with
  | nil => simp [lineLength, Continues, dropReturn]
  | cons c line ih =>
    rw [List.mem_cons, not_or] at h
    have hnext {rest : List Char} (htext : line ++ '\n' :: after = '\n' :: rest) : line = [] := by
      rcases break_cases h.2 (htext.trans (List.nil_append _).symm) with ⟨hnil, -⟩ |
        ⟨upto, hupto, -⟩
      · exact hnil.symm
      · simp at hupto
    have hnext' {rest : List Char} (htext : line ++ '\n' :: after = '\r' :: '\n' :: rest) :
        line = ['\r'] := by
      have htext : line ++ '\n' :: after = ['\r'] ++ '\n' :: rest := htext
      rcases break_cases h.2 htext with ⟨hline, -⟩ | ⟨upto, hupto, -⟩
      · exact hline.symm
      · cases line <;> simp at hupto
    -- what the end of the line decides, and a character that decides nothing
    by_cases hreturn : c = '\r' ∧ line = []
    · obtain ⟨rfl, rfl⟩ := hreturn
      simp [lineLength, Continues, dropReturn]
    by_cases hslash : c = '\\' ∧ line = []
    · obtain ⟨rfl, rfl⟩ := hslash
      simp [lineLength, Continues, dropReturn]
      omega
    by_cases hslash' : c = '\\' ∧ line = ['\r']
    · obtain ⟨rfl, rfl⟩ := hslash'
      simp [lineLength, Continues, dropReturn]
      omega
    have hdrop : dropReturn (c :: line) = c :: dropReturn line :=
      dropReturn_cons fun hnil hcr => hreturn ⟨hcr, hnil⟩
    have hcontinues : Continues (c :: line) ↔ Continues line := by
      rw [Continues, Continues, hdrop]
      by_cases hnil : dropReturn line = []
      · rw [hnil]
        rcases eq_of_dropReturn_eq_nil hnil with hline | hline
        · simpa using fun hc => hslash ⟨hc, hline⟩
        · simpa using fun hc => hslash' ⟨hc, hline⟩
      · rw [List.getLast?_cons_of_ne_nil hnil]
    rw [List.cons_append, lineLength.eq_5 c _ (fun rest hc htext => hslash ⟨hc, hnext htext⟩)
      (fun rest hc htext => hslash' ⟨hc, hnext' htext⟩)
        (fun rest hc htext => hreturn ⟨hc, hnext htext⟩)
      (Ne.symm h.1), ih h.2, hdrop]
    simp only [hcontinues, List.length_cons]
    split <;> omega

end

theorem take_through_line (line after : List Char) (n : Nat) :
    (line ++ '\n' :: after).take (line.length + 1 + n) = line ++ '\n' :: after.take n := by
  rw [Nat.add_assoc, List.take_length_add_append, Nat.add_comm, List.take_succ_cons]

/-- A line comment ends where it should. -/
theorem endsAtBreak_take (text : List Char) : EndsAtBreak text (text.take (lineLength text)) := by
  induction text using lines_induction with
  | last line hline =>
    rw [lineLength_of_last hline, List.take_length]
    exact .of_last hline
  | line line after hline ih =>
    rw [lineLength_of_line hline]
    split
    · rename_i hcontinues
      rw [take_through_line]
      exact ih.cons_line hline hcontinues
    · rename_i hbreak
      rw [take_dropReturn]
      exact .of_line hline hbreak after

/-! ## The search in the bytes -/

/-- Whether a byte stands right before a position. -/
def Follows (bytes : List UInt8) (b : UInt8) (pos : Nat) : Prop :=
  0 < pos ∧ bytes[pos - 1]? = some b

instance (bytes : List UInt8) (b : UInt8) (pos : Nat) : Decidable (Follows bytes b pos) :=
  inferInstanceAs (Decidable (_ ∧ _))

/-- One round of the search for the end of a line comment, from a position of the bytes after its
`//`: where to go on (`inl`), or where the comment ends (`inr`). -/
def look (bytes : List UInt8) (pos : Nat) : Nat ⊕ Nat :=
  match (bytes.drop pos).findIdx? (· == 0x0A) with
  | none => .inr bytes.length
  | some offset =>
    let newline := pos + offset
    let stop := if Follows bytes 0x0D newline then newline - 1 else newline
    if Follows bytes 0x5C stop then .inl (newline + 1) else .inr stop

/-- `Searches bytes pos rounds stop` says that the search from a position on ends, after so many
rounds, and where. -/
inductive Searches (bytes : List UInt8) : (pos rounds stop : Nat) → Prop
  | ends {pos stop : Nat} (h : look bytes pos = .inr stop) : Searches bytes pos 1 stop
  | goesOn {pos next rounds stop : Nat} (h : look bytes pos = .inl next)
    (hnext : Searches bytes next rounds stop) :
    Searches bytes pos (rounds + 1) stop

section

variable {text before rest line : List Char} {b : UInt8} {c : Char}

/-- A character of ASCII ends the bytes of a text exactly if it ends the text. -/
theorem getLast?_encode (hc : String.utf8EncodeChar c = [b]) (hb : b.toNat < 128) :
    (Utf8.encode text).getLast? = some b ↔ text.getLast? = some c := by
  rcases List.eq_nil_or_concat text with rfl | ⟨u, d, rfl⟩
  · simp [Utf8.encode]
  have hbytes : Utf8.encode (u ++ [d]) = Utf8.encode u ++ String.utf8EncodeChar d := by
    rw [Utf8.encode_append, Utf8.encode_cons]
    exact congrArg _ (List.append_nil _)
  rw [List.concat_eq_append, List.getLast?_concat, hbytes, List.getLast?_append,
    Option.or_of_isSome (List.getLast?_isSome.2 String.utf8EncodeChar_ne_nil), Option.some.injEq]
  constructor
  · intro hlast
    exact Quoted.eq_of_mem_encodeChar (List.mem_of_getLast? hlast) hc hb
  · rintro rfl
    rw [hc]
    rfl

/-- The byte of an ASCII character comes before a boundary exactly if the character does. -/
theorem follows_encode (hc : String.utf8EncodeChar c = [b]) (hb : b.toNat < 128) :
    Follows (Utf8.encode (before ++ rest)) b (Utf8.byteLength before) ↔
      before.getLast? = some c := by
  rw [← getLast?_encode hc hb, Follows, Utf8.encode_append, ← Utf8.length_encode,
    List.getLast?_eq_getElem?]
  constructor
  · rintro ⟨hpos, hbyte⟩
    rwa [List.getElem?_append_left (by omega)] at hbyte
  · intro hbyte
    have hlt := (List.getElem?_eq_some_iff.1 hbyte).1
    exact ⟨by omega, by rwa [List.getElem?_append_left hlt]⟩

theorem not_mem_encode (h : '\n' ∉ line) : 0x0A ∉ Utf8.encode line := by
  intro hmem
  obtain ⟨c, hc, hbyte⟩ := List.mem_flatMap.1 hmem
  obtain rfl : c = '\n' := Quoted.eq_of_mem_encodeChar hbyte (by decide) (by decide)
  exact h hc

theorem drop_encode (before rest : List Char) :
    (Utf8.encode (before ++ rest)).drop (Utf8.byteLength before) = Utf8.encode rest := by
  rw [Utf8.encode_append, ← Utf8.length_encode, List.drop_left]

theorem findIdx?_of_last (h : '\n' ∉ line) : (Utf8.encode line).findIdx? (· == 0x0A) = none := by
  rw [List.findIdx?_eq_none_iff]
  intro b hb
  rw [beq_eq_false_iff_ne]
  rintro rfl
  exact not_mem_encode h hb

/-- The first line feed among the bytes is at the length of the first line. -/
theorem findIdx?_of_line (h : '\n' ∉ line) (after : List Char) :
    (Utf8.encode (line ++ '\n' :: after)).findIdx? (· == 0x0A) = some (Utf8.byteLength line) := by
  have hbytes : Utf8.encode ('\n' :: after) = 0x0A :: Utf8.encode after := rfl
  rw [Utf8.encode_append, List.findIdx?_append, findIdx?_of_last h, hbytes, List.findIdx?_cons,
    if_pos (by decide), Option.none_or, Option.map_some, Nat.zero_add, Utf8.length_encode]

/-- A round that starts with the last line finds no line feed. -/
theorem look_of_last (before : List Char) (h : '\n' ∉ line) :
    look (Utf8.encode (before ++ line)) (Utf8.byteLength before) =
      .inr (Utf8.byteLength (before ++ line)) := by
  rw [look, drop_encode, findIdx?_of_last h, Utf8.length_encode]

/-- A round that starts with another line meets the line feed at its end. -/
theorem look_of_line (before after : List Char) (h : '\n' ∉ line) :
    look (Utf8.encode (before ++ (line ++ '\n' :: after))) (Utf8.byteLength before) =
      if Continues (before ++ line) then .inl (Utf8.byteLength (before ++ line) + 1)
      else .inr (Utf8.byteLength (dropReturn (before ++ line))) := by
  obtain ⟨rest, hrest⟩ := dropReturn_begins (before ++ line)
  have hreturn : Follows (Utf8.encode (before ++ line ++ '\n' :: after)) 0x0D
      (Utf8.byteLength (before ++ line)) ↔
      (before ++ line).getLast? = some '\r' :=
    follows_encode (by decide) (by decide)
  have hslash : Follows (Utf8.encode (dropReturn (before ++ line) ++ (rest ++ '\n' :: after))) 0x5C
      (Utf8.byteLength (dropReturn (before ++ line))) ↔ Continues (before ++ line) :=
    follows_encode (by decide) (by decide)
  have hstop : Utf8.byteLength (dropReturn (before ++ line)) =
      if (before ++ line).getLast? = some '\r' then Utf8.byteLength (before ++ line) - 1
      else Utf8.byteLength (before ++ line) := by
    have hlast : (Utf8.encode (before ++ line)).getLast? = some 0x0D ↔
        (before ++ line).getLast? = some '\r' :=
      getLast?_encode (by decide) (by decide)
    rw [Quoted.byteLength_dropReturn, Utf8.length_encode]
    simp only [hlast]
  rw [← List.append_assoc, hrest, List.append_assoc] at hslash
  rw [List.append_assoc] at hreturn
  rw [look, drop_encode, findIdx?_of_line h]
  simp only [← Utf8.byteLength_append, hreturn, ← hstop, hslash]

/-- The rounds go on from line to line, and end where the comment ends. -/
theorem searches_encode {before : List Char} (hbefore : EndsLines before) (text : List Char) :
    ∃ rounds, rounds ≤ text.count '\n' + 1 ∧
      Searches (Utf8.encode (before ++ text)) (Utf8.byteLength before) rounds
        (Utf8.byteLength (before ++ text.take (lineLength text))) := by
  induction text using lines_induction generalizing before with
  | last line hline =>
    rw [lineLength_of_last hline, List.take_length]
    exact ⟨1, Nat.le_add_left 1 _, .ends (look_of_last before hline)⟩
  | line line after hline ih =>
    have hlook := look_of_line before after hline
    simp only [continues_append hbefore, dropReturn_of_endsLines hbefore] at hlook
    rw [lineLength_of_line hline]
    by_cases hcontinues : Continues line
    · obtain ⟨rounds, hrounds, hsearches⟩ := ih (endsLines_lf (before ++ line))
      have hnext : Utf8.byteLength (before ++ line ++ ['\n']) =
          Utf8.byteLength (before ++ line) + 1 := by
        rw [Utf8.byteLength_append (before ++ line)]
        rfl
      rw [hnext, ← List.append_cons, ← List.append_cons, List.append_assoc,
        List.append_assoc] at hsearches
      rw [if_pos hcontinues] at hlook ⊢
      rw [take_through_line]
      refine ⟨rounds + 1, ?_, .goesOn hlook hsearches⟩
      rw [List.count_append, List.count_cons_self]
      omega
    · rw [if_neg hcontinues] at hlook ⊢
      rw [take_dropReturn]
      exact ⟨1, Nat.le_add_left 1 _, .ends hlook⟩

end

/-! ## Comments in a source -/

/-- The lexeme that two slashes start. -/
theorem lexeme_of_slashes {text rest : List Char} {l : Lexeme}
    (h : Reads l.text rest l.kind l.closed) (heq : l.text ++ rest = '/' :: '/' :: text) :
    l = ⟨.lineComment, '/' :: '/' :: text.take (lineLength text), true⟩ := by
  rw [Reads, heq, recognise_slash] at h
  obtain ⟨hkind, hlength, hclosed⟩ := Extent.mk.inj h
  have htext : l.text = '/' :: '/' :: text.take (lineLength text) := by
    calc l.text
      _ = (l.text ++ rest).take l.text.length := List.take_left.symm
      _ = ('/' :: '/' :: text).take (2 + lineLength text) := by rw [heq, ← hlength]
      _ = '/' :: '/' :: text.take (lineLength text) := by
        rw [Nat.add_comm, List.take_succ_cons, List.take_succ_cons]
  rw [← htext, hkind, hclosed]

/-- A line comment ends before the first line break that no backslash continues, and nowhere else,
if its `//` stands where a lexeme starts. The search of the bytes after the `//` finds this end,
with at most one round for each line. -/
theorem line_comment_ends {source : List Char} {done todo : List Lexeme} {l : Lexeme}
    (h : lexemes source = done ++ l :: todo) {text : List Char}
    (hsource : source = done.flatMap Lexeme.text ++ '/' :: '/' :: text) :
    ∃ body, l = ⟨.lineComment, '/' :: '/' :: body, true⟩ ∧
      (∀ other, EndsAtBreak text other ↔ other = body) ∧
      ∃ rounds, rounds ≤ text.count '\n' + 1 ∧
        Searches (Utf8.encode text) 0 rounds (Utf8.byteLength body) := by
  have hcut : source = done.flatMap Lexeme.text ++ (l.text ++ todo.flatMap Lexeme.text) := by
    rw [← lexemes_flatten source, h, List.flatMap_append, List.flatMap_cons]
  have heq : l.text ++ todo.flatMap Lexeme.text = '/' :: '/' :: text :=
    List.append_cancel_left (hcut.symm.trans hsource)
  refine ⟨text.take (lineLength text), lexeme_of_slashes (reads_of_lexemes h) heq,
    fun other => ⟨?_, ?_⟩, ?_⟩
  · exact fun hother => hother.unique (endsAtBreak_take text)
  · rintro rfl
    exact endsAtBreak_take text
  · exact searches_encode endsLines_nil text

/-- The backslash continues a line break, and the empty line after it ends the comment. -/
theorem line_comment_ends_after_continuation :
    EndsAtBreak ['\\', '\r', '\n', '\r', '\n', 'x'] ['\\', '\r', '\n'] ∧
      ∃ rounds, rounds ≤ 3 ∧ Searches [0x5C, 0x0D, 0x0A, 0x0D, 0x0A, 0x78] 0 rounds 3 := by
  have hlexemes : lexemes [';', '/', '/', '\\', '\r', '\n', '\r', '\n', 'x'] =
      [⟨.punctuator, [';'], true⟩] ++ ⟨.lineComment, ['/', '/', '\\', '\r', '\n'], true⟩ ::
        [⟨.whitespace, ['\r', '\n'], true⟩, ⟨.word, ['x'], true⟩] := by
    decide +kernel
  obtain ⟨body, hl, hends, hsearches⟩ := line_comment_ends hlexemes rfl
  obtain rfl : ['\\', '\r', '\n'] = body := by simpa using hl
  exact ⟨(hends _).2 rfl, hsearches⟩

end EastConst.Lexeme.Comment
