import EastConst.Path

/-!
# File trees

A finite tree of files and directories, given by the names that lead to each of them. A directory
that some path passes through need not be listed.
-/

namespace EastConst

/-- Why a file or directory cannot be read. -/
inductive ReadError where
  | notFound
  | notADirectory
  | isADirectory
  deriving DecidableEq, Repr

/-- A failure to read, in words. -/
def ReadError.message : ReadError → String
  | .notFound => "No such file or directory (os error 2)"
  | .notADirectory => "Not a directory (os error 20)"
  | .isADirectory => "Is a directory (os error 21)"

/-- What stands at a place in a tree. -/
inductive FileTree.Entry where
  | file (bytes : List UInt8)
  | directory
  deriving DecidableEq, Repr

/-- A tree of files and directories. -/
structure FileTree where
  entries : List (List String × FileTree.Entry) := []
  deriving DecidableEq, Repr

namespace FileTree

/-- The names of a path that count. -/
def names (path : String) : List String :=
  (Path.segments path).filter fun name => name != "" && name != "."

/-- The tree with the given paths in it. -/
def ofPaths (paths : List (String × Entry)) : FileTree :=
  ⟨paths.map fun (path, entry) => (names path, entry)⟩

/-- What stands where the given names lead to. -/
def entry? (tree : FileTree) (place : List String) : Option Entry :=
  match tree.entries.find? (·.1 == place) with
  | some (_, entry) => some entry
  | none =>
    if place.isEmpty || tree.entries.any (place.isPrefixOf ·.1) then some .directory else none

/-- Follows one name from a place. -/
def enter (tree : FileTree) (place : List String) (name : String) :
    Except ReadError (List String) :=
  match tree.entry? place with
  | none => .error .notFound
  | some (.file _) => .error .notADirectory
  | some .directory =>
    if name == "" || name == "." then .ok place
    else if name == ".." then
      if place.isEmpty then .error .notFound else .ok place.dropLast
    else .ok (place ++ [name])

/-- Follows names from a place. -/
def follow (tree : FileTree) : (place names : List String) → Except ReadError (List String)
  | place, [] => .ok place
  | place, name :: rest =>
    match tree.enter place name with
    | .ok next => tree.follow next rest
    | .error e => .error e

/-- The place that a path leads to, and what stands there. -/
def resolve (tree : FileTree) (path : String) : Except ReadError (List String × Entry) :=
  if path.isEmpty || Path.isAbsolute path then .error .notFound
  else
    match tree.follow [] (Path.segments path) with
    | .error e => .error e
    | .ok place =>
      match tree.entry? place with
      | some entry => .ok (place, entry)
      | none => .error .notFound

/-- The bytes of a file. -/
def read (tree : FileTree) (path : String) : Except ReadError (List UInt8) :=
  match tree.resolve path with
  | .ok (_, .file bytes) => .ok bytes
  | .ok (_, .directory) => .error .isADirectory
  | .error e => .error e

/-- The names in a directory. -/
def list (tree : FileTree) (path : String) : Except ReadError (List String) :=
  match tree.resolve path with
  | .ok (_, .file _) => .error .notADirectory
  | .ok (place, .directory) =>
    .ok ((tree.entries.filterMap fun (names, _) =>
      if place.isPrefixOf names then names[place.length]? else none).eraseDups)
  | .error e => .error e

/-- The tree with other bytes in a file. -/
def write (tree : FileTree) (path : String) (bytes : List UInt8) : FileTree :=
  match tree.resolve path with
  | .ok (place, .file _) =>
    ⟨tree.entries.map fun (names, entry) =>
      if names == place then (names, .file bytes) else (names, entry)⟩
  | _ => tree

/-- The tree after several files have been written. -/
def writeAll (tree : FileTree) (writes : List (String × List UInt8)) : FileTree :=
  writes.foldl (fun tree (path, bytes) => tree.write path bytes) tree

end FileTree

end EastConst
