/-!
# Paths

A path is a string of names with slashes between them. Empty names and single dots after the first
name mean nothing, and the file name of a path is its last name, unless that is `..`.
-/

namespace EastConst.Path

/-- Whether a path starts at the root. -/
def isAbsolute (path : String) : Bool :=
  path.toList.head? == some '/'

/-- The names of a path as they are written. -/
def segments (path : String) : List String :=
  let names := path.splitOn "/"
  if isAbsolute path then names.drop 1 else names

/-- Names without those at the end that mean nothing. -/
def trimEnd (names : List String) : List String :=
  (names.reverse.dropWhile fun name => name == "" || name == ".").reverse

/-- The names of a path without those at its end that mean nothing. A dot that starts a relative
path stays. -/
def trim (absolute : Bool) (names : List String) : List String :=
  match absolute, names with
  | false, "." :: rest => "." :: trimEnd rest
  | _, names => trimEnd names

/-- The last name of a path. -/
def fileName? (path : String) : Option String :=
  match (trim (isAbsolute path) (segments path)).getLast? with
  | some name => if name == "." || name == ".." then none else some name
  | none => none

/-- A path of given names. -/
def ofSegments (absolute : Bool) (names : List String) : String :=
  (if absolute then "/" else "") ++ "/".intercalate names

/-- A path with another last name. -/
def withFileName (path name : String) : String :=
  let absolute := isAbsolute path
  let parent := trim absolute (trim absolute (segments path)).dropLast
  ofSegments absolute (parent ++ [name])

/-- A name in a directory. -/
def join (directory name : String) : String :=
  if directory.isEmpty || directory.endsWith "/" then directory ++ name
  else directory ++ "/" ++ name

end EastConst.Path
