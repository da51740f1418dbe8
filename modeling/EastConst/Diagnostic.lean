/-!
# Diagnostics

A diagnostic reports a problem that stops nothing. It names a byte offset, and its code stays the
same when its message is reworded.
-/

namespace EastConst

/-- How bad a problem is. -/
inductive Severity where
  | error | warning | info
  deriving DecidableEq, Repr

/-- The name of a severity. -/
def Severity.name : Severity → String
  | .error => "error"
  | .warning => "warning"
  | .info => "info"

/-- The severity with a name. -/
def Severity.ofName? : String → Option Severity
  | "error" => some .error
  | "warning" => some .warning
  | "info" => some .info
  | _ => none

/-- A problem at a byte offset. -/
structure Diagnostic where
  offset : Nat
  severity : Severity
  message : String
  code : Option String
  deriving DecidableEq, Repr

namespace Diagnostic

/-- A warning with a code. -/
def warning (offset : Nat) (code message : String) : Diagnostic :=
  ⟨offset, .warning, message, some code⟩

/-- Severity and code, as in `warning[missing-type]`. -/
def heading (d : Diagnostic) : String :=
  match d.code with
  | some code => d.severity.name ++ "[" ++ code ++ "]"
  | none => d.severity.name

/-- A diagnostic on one line. -/
def display (d : Diagnostic) : String :=
  d.heading ++ ": " ++ d.message ++ " at byte " ++ toString d.offset

/-- Puts a diagnostic after all those whose offset is not greater. -/
def insert (d : Diagnostic) : List Diagnostic → List Diagnostic
  | [] => [d]
  | e :: rest => if e.offset ≤ d.offset then e :: insert d rest else d :: e :: rest

/-- Adds diagnostics to others that are ordered by offset. At equal offsets the added ones come
later, in the order they are given in. -/
def merge (ordered added : List Diagnostic) : List Diagnostic :=
  added.foldl (fun all d => insert d all) ordered

end Diagnostic

end EastConst
