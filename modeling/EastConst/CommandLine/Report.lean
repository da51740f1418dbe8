import EastConst.FileTree
import EastConst.Json
import EastConst.Relocation
import EastConst.Settings
import EastConst.Text.Position

/-!
# Reports

What happened to one file, and how it is told: the diagnostics of a relocation as text or JSON, and
the tokens of a file as JSON.
-/

namespace EastConst.CommandLine

/-- What the relocation of a file gave. -/
structure Report where
  path : String
  source : List Char
  relocated : Relocated
  deriving DecidableEq, Repr

/-- Why there is no report on a file. -/
inductive FileFailure where
  | unreadable (cause : ReadError)
  | undecodable (cause : Failure)
  | unrelocated (cause : Failure)
  deriving DecidableEq, Repr

/-- What is told about a file without a report. -/
def FileFailure.line (path : String) : FileFailure → String
  | .unreadable cause => "westerly: cannot read " ++ path ++ ": " ++ cause.message ++ "\n"
  | .undecodable cause => "westerly: cannot decode " ++ path ++ ": " ++ cause.message ++ "\n"
  | .unrelocated cause => "westerly: cannot rewrite " ++ path ++ ": " ++ cause.message ++ "\n"

/-- The bytes of a file. -/
def bytesOf (read : String → Except ReadError (List UInt8)) (path : String) :
    Except FileFailure (List UInt8) :=
  match read path with
  | .ok bytes => .ok bytes
  | .error cause => .error (.unreadable cause)

namespace Report

/-- Whether the relocation changed a file. -/
def changed (r : Report) : Bool := r.relocated.output != r.source

/-- The report on a file. -/
def ofFile (options : Options) (read : String → Except ReadError (List UInt8)) (path : String) :
    Except FileFailure Report := do
  let bytes ← bytesOf read path
  let relocation : Except Failure Report := do
    let source ← decodeSource bytes
    return ⟨path, source, ← relocate options source⟩
  match relocation with
  | .ok r => return r
  | .error cause => throw (.unrelocated cause)

/-- A diagnostic with its place and the lines around it. -/
def diagnosticText (r : Report) (d : Diagnostic) : String :=
  let (line, column) := lineColumn r.source d.offset
  r.path ++ ":" ++ toString (line + 1) ++ ":" ++ toString (column + 1) ++ ": " ++
    d.heading ++ ": " ++ d.message ++ "\n" ++ excerpt r.source d.offset

/-- A diagnostic with its place as JSON, with the names of fields in order. -/
def diagnosticJson (r : Report) (d : Diagnostic) : String :=
  let (line, column) := lineColumn r.source d.offset
  let diagnostic : Json := .object
    [("code", d.code.elim .null .string), ("message", .string d.message),
     ("offset", .number d.offset), ("severity", .string d.severity.name)]
  let located : Json := .object
    [("column", .number (column + 1)), ("diagnostic", diagnostic), ("line", .number (line + 1)),
     ("path", .string r.path)]
  located.compact ++ "\n"

/-- The diagnostics of a report. -/
def diagnosticLines (r : Report) (format : DiagnosticFormat) : String :=
  String.join (r.relocated.diagnostics.map fun d =>
    match format with
    | .text => r.diagnosticText d
    | .json => r.diagnosticJson d)

end Report

/-- The tokens and the lexical diagnostics of a source as JSON. -/
def tokenDump (source : List Char) : String :=
  let token (p : Token.Placed) : Json := .object
    [("kind", .string p.token.kind.name), ("text", .string (String.ofList p.token.text)),
     ("span", .object [("start", .number p.start), ("end", .number p.stop)])]
  let diagnostic (d : Diagnostic) : Json := .object
    [("offset", .number d.offset), ("severity", .string d.severity.name),
     ("message", .string d.message), ("code", d.code.elim .null .string)]
  let dump : Json := .object
    [("tokens", .array ((placed (tokens source)).map token)),
     ("diagnostics", .array ((lexicalDiagnostics source).map diagnostic))]
  dump.pretty ++ "\n"

/-- The tokens of a file as JSON. -/
def tokenDumpOfFile (read : String → Except ReadError (List UInt8)) (path : String) :
    Except FileFailure String := do
  match decodeSource (← bytesOf read path) with
  | .ok source => return tokenDump source
  | .error cause => throw (.undecodable cause)

end EastConst.CommandLine
