import Mathlib.Data.String.Basic
import EastConst.FileTree

/-!
# Trees that are written

To write a path is to give the file at its place other bytes (`entry?_write`). Where paths lead to
hangs on what is a file and what is a directory, which no write changes (`SameShape.write`). So
several writes can be looked at one by one, each by the place that its path has in the tree before
all of them (`entry?_writeAll`, `entry?_writeAll_of_not`).
-/

namespace EastConst

/-! ## Names -/

namespace Path

open String in
/-- What has no separator in it is not split. -/
theorem splitOnAux_of_not_mem {c : Char} {before after : List Char} (h : c ∉ after) :
    splitOnAux (ofList (before ++ after)) (ofList [c]) 0 ⟨utf8Len before⟩ 0 [] =
      [ofList (before ++ after)] := by
  induction after generalizing before with
  | nil =>
    rw [splitOnAux, if_pos ((atEnd_of_valid before []).2 rfl)]
    have hall := extract_of_valid [] before []
    simpa using hall
  | cons d after ih =>
    rw [List.mem_cons, not_or] at h
    have hget : Pos.Raw.get (ofList [c]) 0 = c := get_of_valid [] [c]
    have hpos : Pos.Raw.next (ofList (before ++ d :: after))
        (Pos.Raw.unoffsetBy ⟨utf8Len before⟩ 0) =
        ⟨utf8Len before + d.utf8Size⟩ := next_of_valid before d after
    have hnext := @ih (before ++ [d]) h.2
    rw [List.append_assoc, utf8Len_append, utf8Len_cons, utf8Len_nil, Nat.zero_add] at hnext
    rw [splitOnAux, if_neg (mt (atEnd_of_valid before (d :: after)).1 (by simp)),
      get_of_valid, hget, if_neg (by simpa using Ne.symm h.1), hpos]
    exact hnext

variable {name : String}

theorem isAbsolute_of_name (h : '/' ∉ name.toList) : isAbsolute name = false := by
  unfold isAbsolute
  cases hname : name.toList with
  | nil => rfl
  | cons c cs =>
    rw [hname, List.mem_cons, not_or] at h
    exact beq_false_of_ne fun heq => h.1 (Option.some.inj heq).symm

/-- A name without a slash is a path of one segment. -/
theorem segments_of_name (h : '/' ∉ name.toList) : segments name = [name] := by
  have hsplit := @splitOnAux_of_not_mem '/' [] name.toList h
  rw [List.nil_append, String.ofList_toList] at hsplit
  rw [segments, isAbsolute_of_name h, if_neg (by decide)]
  exact hsplit

end Path

namespace FileTree

/-- Whether an entry is a file. -/
def Entry.isFile : Entry → Bool
  | .file _ => true
  | .directory => false

/-- Whether two trees have files and directories at the same places. -/
def SameShape (tree tree' : FileTree) : Prop :=
  ∀ place, (tree.entry? place).map Entry.isFile = (tree'.entry? place).map Entry.isFile

/-- Whether a path leads to a file at a place. -/
def LeadsTo (tree : FileTree) (path : String) (place : List String) : Prop :=
  ∃ bytes, tree.resolve path = .ok (place, .file bytes)

section

variable {tree tree' : FileTree} {path : String} {place : List String} {entry : Entry}
  {bytes : List UInt8}

/-- A path resolves if it is relative and not empty, its segments can be followed, and something is
there. -/
theorem resolve_eq_ok_iff :
    tree.resolve path = .ok (place, entry) ↔
      (path.isEmpty || Path.isAbsolute path) = false ∧
      tree.follow [] (Path.segments path) = .ok place ∧
        tree.entry? place = some entry := by
  unfold resolve
  split
  · rename_i hpath
    simp [hpath]
  · rename_i hpath
    rw [and_iff_right (Bool.eq_false_iff.2 hpath)]
    split
    · rename_i hfollow
      simp [hfollow]
    · rename_i hfollow
      rw [hfollow]
      split <;> grind

/-- A name leads to the entry of that name. -/
theorem resolve_name {name : String} (hslash : '/' ∉ name.toList) (hname : name ∉ ["", ".", ".."])
    (hroot : tree.entry? [] = some .directory) (hentry : tree.entry? [name] = some entry) :
    tree.resolve name = .ok ([name], entry) := by
  simp only [List.mem_cons, List.not_mem_nil, or_false, not_or] at hname
  refine resolve_eq_ok_iff.2 ⟨?_, ?_, hentry⟩
  · simp [Path.isAbsolute_of_name hslash, hname]
  · rw [Path.segments_of_name hslash, follow, enter, hroot]
    simp [hname, follow]

theorem read_eq_ok_iff :
    tree.read path = .ok bytes ↔ ∃ place, tree.resolve path = .ok (place, .file bytes) := by
  unfold read
  split <;> grind

/-- Reading a path gives the bytes of the file that it leads to. -/
theorem read_eq_ok_iff_of_leadsTo (h : tree.LeadsTo path place) :
    tree.read path = .ok bytes ↔ tree.entry? place = some (.file bytes) := by
  obtain ⟨bytes', hresolve⟩ := h
  rw [read, hresolve, (resolve_eq_ok_iff.1 hresolve).2.2]
  simp

/-! ## Trees of one shape -/

namespace SameShape

theorem enter (h : tree.SameShape tree') (place : List String) (name : String) :
    tree.enter place name = tree'.enter place name := by
  have hplace := h place
  unfold FileTree.enter
  cases he : tree.entry? place with
  | none =>
    rw [he] at hplace
    cases he' : tree'.entry? place with
    | none => rfl
    | some entry' => rw [he'] at hplace; cases hplace
  | some entry =>
    rw [he] at hplace
    cases he' : tree'.entry? place with
    | none => rw [he'] at hplace; cases hplace
    | some entry' =>
      rw [he'] at hplace
      cases entry <;> cases entry' <;> first | rfl | cases hplace

/-- Trees of one shape are walked alike: where a path leads does not depend on what files hold. -/
theorem follow (h : tree.SameShape tree') (place names : List String) :
    tree.follow place names = tree'.follow place names := by
  induction names generalizing place with
  | nil => rfl
  | cons name rest ih =>
    rw [FileTree.follow, FileTree.follow, h.enter]
    cases tree'.enter place name with
    | ok next => exact ih next
    | error e => rfl

theorem isFile (h : tree.SameShape tree') (hplace : tree.entry? place = some (.file bytes)) :
    ∃ bytes', tree'.entry? place = some (.file bytes') := by
  have := h place
  rw [hplace] at this
  cases he : tree'.entry? place with
  | none => rw [he] at this; cases this
  | some entry =>
    rw [he] at this
    cases entry with
    | file bytes' => exact ⟨bytes', rfl⟩
    | directory => cases this

theorem leadsTo (h : tree.SameShape tree') (hlead : tree.LeadsTo path place) :
    tree'.LeadsTo path place := by
  obtain ⟨bytes, hresolve⟩ := hlead
  obtain ⟨hpath, hfollow, hentry⟩ := resolve_eq_ok_iff.1 hresolve
  obtain ⟨bytes', hentry'⟩ := h.isFile hentry
  exact ⟨bytes', resolve_eq_ok_iff.2 ⟨hpath, h.follow _ _ ▸ hfollow, hentry'⟩⟩

/-- A path leads to the same file in trees of one shape. -/
theorem leadsTo_iff (h : tree.SameShape tree') :
    tree.LeadsTo path place ↔ tree'.LeadsTo path place :=
  ⟨h.leadsTo, SameShape.leadsTo fun place => (h place).symm⟩

end SameShape

/-! ## One file -/

/-- Writing to a path that leads to no file does nothing. -/
theorem write_of_not (h : ∀ place, ¬ tree.LeadsTo path place) : tree.write path bytes = tree := by
  unfold write
  split
  · rename_i hresolve
    exact absurd ⟨_, hresolve⟩ (h _)
  · rfl

/-- What writing does to an entry of the tree. -/
def rewrite (place : List String) (bytes : List UInt8) (e : List String × Entry) :
    List String × Entry :=
  if e.1 = place then (e.1, .file bytes) else e

theorem write_entries (h : tree.LeadsTo path place) :
    (tree.write path bytes).entries = tree.entries.map (rewrite place bytes) := by
  obtain ⟨old, hresolve⟩ := h
  rw [write, hresolve]
  refine List.map_congr_left fun e _ => ?_
  simp only [rewrite, beq_iff_eq]

theorem rewrite_fst (e : List String × Entry) : (rewrite place bytes e).1 = e.1 := by
  unfold rewrite
  split <;> rfl

/-- Writing a path changes the file that it leads to, and no other place. -/
theorem entry?_write (h : tree.LeadsTo path place) (place' : List String) :
    entry? (tree.write path bytes) place' = if place' = place then
      some (.file bytes) else tree.entry? place' := by
  have hfind : (tree.write path bytes).entries.find? (·.1 == place') =
      (tree.entries.find? (·.1 == place')).map (rewrite place bytes) := by
    rw [write_entries h, List.find?_map]
    simp only [Function.comp_def, rewrite_fst]
  have hany : (tree.write path bytes).entries.any (place'.isPrefixOf ·.1) =
      tree.entries.any (place'.isPrefixOf ·.1) := by
    rw [write_entries h, List.any_map]
    simp only [Function.comp_def, rewrite_fst]
  obtain ⟨old, hresolve⟩ := h
  obtain ⟨-, -, hentry⟩ := resolve_eq_ok_iff.1 hresolve
  unfold entry? at hentry ⊢
  rw [hfind, hany]
  cases hfound : tree.entries.find? (·.1 == place') with
  | none =>
    have hne : place' ≠ place := by
      rintro rfl
      rw [hfound] at hentry
      simp at hentry
    rw [if_neg hne]
    rfl
  | some e =>
    have hname : e.1 = place' := by simpa using List.find?_some hfound
    rw [Option.map_some, rewrite, hname]
    by_cases hplace : place' = place
    · rw [if_pos hplace, if_pos hplace]
    · rw [if_neg hplace, if_neg hplace]

/-- Writing a file keeps the shape of the tree. -/
theorem SameShape.write (tree : FileTree) (path : String) (bytes : List UInt8) :
    tree.SameShape (tree.write path bytes) := by
  intro place'
  by_cases h : ∃ place, tree.LeadsTo path place
  · obtain ⟨place, hlead⟩ := h
    rw [entry?_write hlead]
    split
    · rename_i heq
      obtain ⟨old, hresolve⟩ := hlead
      rw [heq, (resolve_eq_ok_iff.1 hresolve).2.2]
      rfl
    · rfl
  · rw [write_of_not fun place hlead => h ⟨place, hlead⟩]

/-! ## Several files -/

theorem SameShape.writeAll (tree : FileTree) (writes : List (String × List UInt8)) :
    tree.SameShape (tree.writeAll writes) := by
  induction writes generalizing tree with
  | nil => exact fun _ => rfl
  | cons w rest ih => exact fun place => (SameShape.write tree w.1 w.2 place).trans (ih _ place)

variable {writes : List (String × List UInt8)}

/-- A file to which no path leads that is written stays as it is. -/
theorem entry?_writeAll_of_not (h : ∀ w ∈ writes, ¬ tree.LeadsTo w.1 place) :
    entry? (tree.writeAll writes) place = tree.entry? place := by
  induction writes generalizing tree with
  | nil => rfl
  | cons w rest ih =>
    rw [List.forall_mem_cons] at h
    have hshape := SameShape.write tree w.1 w.2
    have hrest : entry? ((tree.write w.1 w.2).writeAll rest) place =
        entry? (tree.write w.1 w.2) place :=
      ih fun w' hw' hlead => h.2 w' hw' (hshape.leadsTo_iff.2 hlead)
    refine hrest.trans ?_
    by_cases hlead : ∃ place', tree.LeadsTo w.1 place'
    · obtain ⟨place', hlead⟩ := hlead
      rw [entry?_write hlead, if_neg]
      rintro rfl
      exact h.1 hlead
    · rw [write_of_not fun place' hlead' => hlead ⟨place', hlead'⟩]

/-- If all that is written to a place is the same, it stands there afterwards. -/
theorem entry?_writeAll (hall : ∀ w ∈ writes, tree.LeadsTo w.1 place → w.2 = bytes)
    (h : ∃ w ∈ writes, tree.LeadsTo w.1 place) :
    entry? (tree.writeAll writes) place = some (.file bytes) := by
  induction writes generalizing tree with
  | nil => simp at h
  | cons w rest ih =>
    rw [List.forall_mem_cons] at hall
    have hshape := SameShape.write tree w.1 w.2
    by_cases hrest : ∃ w' ∈ rest, tree.LeadsTo w'.1 place
    · obtain ⟨w', hw', hlead⟩ := hrest
      exact ih (fun v hv hlead => hall.2 v hv (hshape.leadsTo_iff.2 hlead))
        ⟨w', hw', hshape.leadsTo hlead⟩
    · -- the first write is the only one to this place
      have hfirst : tree.LeadsTo w.1 place := by
        obtain ⟨w', hw', hlead⟩ := h
        rcases List.mem_cons.1 hw' with rfl | hw'
        · exact hlead
        · exact absurd ⟨w', hw', hlead⟩ hrest
      have hlater : entry? ((tree.write w.1 w.2).writeAll rest) place =
          entry? (tree.write w.1 w.2) place :=
        entry?_writeAll_of_not fun v hv hlead => hrest ⟨v, hv, hshape.leadsTo_iff.2 hlead⟩
      refine hlater.trans ?_
      rw [entry?_write hfirst, if_pos rfl, hall.1 hfirst]

end

end FileTree

end EastConst
