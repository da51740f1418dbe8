/-!
# Setting values

Settings are read from several places into one tree of values. Names are told apart without case: a
name is kept in lower case. Tables are merged, and every other value replaces what was there.
-/

namespace EastConst.Settings

/-- The value of a setting, or a table of settings. -/
inductive Value where
  /-- Nothing has been set. -/
  | nil
  | bool (b : Bool)
  | int (n : Int)
  | float (x : Float)
  | string (s : String)
  | list (items : List Value)
  | table (entries : List (String × Value))

namespace Value

/-- The entries of a table. Anything else has none. -/
def entries : Value → List (String × Value)
  | table entries => entries
  | _ => []

/-- The items of a list. Anything else has none. -/
def items : Value → List Value
  | list items => items
  | _ => []

/-- The value at a name among entries. -/
def lookup? (entries : List (String × Value)) (name : String) : Option Value :=
  (entries.find? (·.1 == name)).map (·.2)

/-- Entries with the value at a name replaced or added. -/
def put (entries : List (String × Value)) (name : String) (value : Value) :
    List (String × Value) :=
  match entries with
  | [] => [(name, value)]
  | (n, v) :: rest => if n == name then (n, value) :: rest else (n, v) :: put rest name value

/-- A name in lower case. Of the characters beyond ASCII only the Kelvin sign has a plain letter as
its lower case, so it alone can stand for a letter of a setting. -/
def lowerName (name : String) : String :=
  name.map fun c => if c == '\u212A' then 'k' else c.toLower

/-- The value at a name of a table. -/
def get? (root : Value) (name : String) : Option Value :=
  lookup? root.entries name

mutual

/-- Sets a name of a table. What is no table becomes one. -/
def setName (root : Value) (name : String) : Value → Value
  | table incoming =>
    let target := (root.get? (lowerName name)).getD (table [])
    table (put root.entries (lowerName name) (mergeInto target incoming))
  | value => table (put root.entries (lowerName name) value)

/-- Sets several names of a table. -/
def mergeInto (target : Value) : List (String × Value) → Value
  | [] => target
  | (name, value) :: rest => mergeInto (target.setName name value) rest

end

/-- Changes the value at a name of a table, which is `nil` if nothing has been set. -/
def updateName (name : String) (f : Value → Value) (root : Value) : Value :=
  table (put root.entries (lowerName name) (f ((root.get? (lowerName name)).getD nil)))

/-- Changes an item of a list, which grows with `nil` as far as it has to. A negative index counts
from the end. -/
def updateItem (index : Int) (f : Value → Value) (root : Value) : Value :=
  let items := root.items
  let place := if 0 ≤ index then index.toNat else (items.length + index).toNat
  let grown := items ++ List.replicate (place + 1 - items.length) nil
  list (grown.modify place f)

end Value

end EastConst.Settings
