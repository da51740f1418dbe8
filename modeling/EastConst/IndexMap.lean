/-!
# Maps from indices

A finite map whose keys are token indices, with its entries in ascending order of the keys.
-/

namespace EastConst

/-- A finite map from indices. -/
structure IndexMap (α : Type) where
  /-- The entries, in ascending order of their keys. -/
  entries : List (Nat × α) := []
  deriving DecidableEq, Repr

namespace IndexMap

variable {α : Type}

/-- Puts an entry in its place among entries in ascending order. -/
def insertEntry (key : Nat) (value : α) : List (Nat × α) → List (Nat × α)
  | [] => [(key, value)]
  | (k, v) :: rest =>
    if k < key then (k, v) :: insertEntry key value rest
    else if k = key then (key, value) :: rest
    else (key, value) :: (k, v) :: rest

/-- Sets the value at a key. -/
def insert (m : IndexMap α) (key : Nat) (value : α) : IndexMap α :=
  ⟨insertEntry key value m.entries⟩

/-- The value at a key. -/
def get? (m : IndexMap α) (key : Nat) : Option α :=
  (m.entries.find? (·.1 == key)).map (·.2)

/-- Whether there is a value at a key. -/
def contains (m : IndexMap α) (key : Nat) : Bool :=
  m.entries.any (·.1 == key)

/-- The keys, in ascending order. -/
def keys (m : IndexMap α) : List Nat :=
  m.entries.map (·.1)

/-- The map with given entries, the later ones winning. -/
def ofList (entries : List (Nat × α)) : IndexMap α :=
  entries.foldl (fun m (key, value) => m.insert key value) {}

theorem get?_insert (m : IndexMap α) (key k : Nat) (value : α) :
    (m.insert key value).get? k = if k = key then some value else m.get? k := by
  obtain ⟨entries⟩ := m
  simp only [insert, get?]
  induction entries with
  | nil =>
    by_cases h : k = key
    · simp [insertEntry, h]
    · simp [insertEntry, h, Ne.symm h]
  | cons e rest ih =>
    obtain ⟨j, v⟩ := e
    unfold insertEntry
    split
    · by_cases hj : j = k
      · subst hj
        have : j ≠ key := by omega
        simp [this]
      · simpa [List.find?_cons, hj] using ih
    · split
      · rename_i hj
        subst hj
        by_cases h : k = j
        · simp [h]
        · simp [h, Ne.symm h]
      · by_cases h : k = key
        · simp [h]
        · simp [h, Ne.symm h]

theorem contains_eq_isSome_get? (m : IndexMap α) (key : Nat) :
    m.contains key = (m.get? key).isSome := by
  simp [contains, get?, List.isSome_find?]

end IndexMap

end EastConst
