import EastConst.Settings.Value

/-!
# TOML tables

While a document is read, its tables are kept with what matters for the rule that no table is
defined twice: whether a header has named a table, and whether dotted keys have made it.
-/

namespace EastConst.Settings.Toml

/-- A part of a document. -/
inductive Node where
  /-- A finished value. Nothing can be added to it. -/
  | value (v : Value)
  /-- A table. It is `implicit` until a header names it, and `dotted` if dotted keys have made
  it. -/
  | table (implicit dotted : Bool) (entries : List (String × Node))
  /-- The tables of a header in double brackets. -/
  | tables (items : List Node)

namespace Node

/-- A table that a header names. -/
def emptyTable : Node := table false false []

/-- The node at a name among entries. -/
def lookup? (entries : List (String × Node)) (name : String) : Option Node :=
  (entries.find? (·.1 == name)).map (·.2)

/-- Entries with the node at a name replaced or added. -/
def put (entries : List (String × Node)) (name : String) (node : Node) : List (String × Node) :=
  match entries with
  | [] => [(name, node)]
  | (n, old) :: rest => if n == name then (n, node) :: rest else (n, old) :: put rest name node

/-- Changes the table that names lead to, and makes the tables on the way. Headers pass through
every table, and through the last table of double brackets; dotted keys pass only through tables
that no header has named. -/
def descend (dotted : Bool) (f : Node → Option Node) : List String → Node → Option Node
  | [], node => f node
  | name :: path, table implicit wasDotted entries => do
    let child ←
      match lookup? entries name with
      | none => descend dotted f path (table true dotted [])
      | some (value _) => none
      | some (tables items) => do
        let last ← items.getLast?
        let last ← descend dotted f path last
        some (tables (items.dropLast ++ [last]))
      | some (table childImplicit childDotted childEntries) =>
        if dotted && !childImplicit then none
        else descend dotted f path (table childImplicit childDotted childEntries)
    some (table implicit wasDotted (put entries name child))
  | _ :: _, _ => none

/-- Adds a value to the table at `header`, under dotted names and a last one. -/
def addValue (root : Node) (header dottedNames : List String) (name : String) (v : Value) :
    Option Node :=
  let add : Node → Option Node
    | table implicit dotted entries =>
      if dotted == dottedNames.isEmpty || (lookup? entries name).isSome then none
      else some (table implicit dotted (entries ++ [(name, value v)]))
    | _ => none
  descend false (descend true add dottedNames) header root

/-- Opens the table that a header names. -/
def openTable (root : Node) (parents : List String) (name : String) : Option Node :=
  let add : Node → Option Node
    | table implicit dotted entries =>
      match lookup? entries name with
      | none => some (table implicit dotted (entries ++ [(name, emptyTable)]))
      | some (table true false inner) =>
        some (table implicit dotted (put entries name (table false false inner)))
      | some _ => none
    | _ => none
  descend false add parents root

/-- Adds a table to those of a header in double brackets. -/
def openItem (root : Node) (parents : List String) (name : String) : Option Node :=
  let add : Node → Option Node
    | table implicit dotted entries =>
      match lookup? entries name with
      | none => some (table implicit dotted (entries ++ [(name, tables [emptyTable])]))
      | some (tables items) =>
        some (table implicit dotted (put entries name (tables (items ++ [emptyTable]))))
      | some _ => none
    | _ => none
  descend false add parents root

mutual

/-- The value of a node. -/
def toValue : Node → Value
  | value v => v
  | table _ _ entries => .table (toEntries entries)
  | tables items => .list (toValues items)

/-- The values of the entries of a table. -/
def toEntries : List (String × Node) → List (String × Value)
  | [] => []
  | (name, node) :: rest => (name, node.toValue) :: toEntries rest

/-- The values of several nodes. -/
def toValues : List Node → List Value
  | [] => []
  | node :: rest => node.toValue :: toValues rest

end

end Node

end EastConst.Settings.Toml
