import EastConst.Plan.Group
import EastConst.Token.Stream

/-!
# Relocation

`relocate` moves every leading qualifier of a source behind its type. It fails only if the plan it
makes does not pass its own check; everything else that goes wrong is a diagnostic.
-/

namespace EastConst

/-- A source with its qualifiers moved. -/
structure Relocated where
  output : List Char
  diagnostics : List Diagnostic
  deriving DecidableEq, Repr

/-- Whether something is reported about a source. -/
def Relocated.hasDiagnostics (r : Relocated) : Bool := !r.diagnostics.isEmpty

/-- Why a source cannot be relocated. -/
inductive Failure where
  /-- The bytes are not UTF-8 from an offset on. -/
  | invalidEncoding (offset : Nat)
  /-- The plan has a fault. -/
  | faultyPlan (fault : Plan.Fault)
  deriving DecidableEq, Repr

/-- A failure in words. -/
def Failure.message : Failure → String
  | .invalidEncoding offset =>
    "input is not valid UTF-8 (first invalid byte at offset " ++ toString offset ++ ")"
  | .faultyPlan fault => "Stage 'emission' failed: " ++ fault.message

/-- The diagnostics of a source: those of its lexemes and those of the groups that stay, by
offset. -/
def diagnostics (options : Options) (source : List Char) : List Diagnostic :=
  let ts := tokens source
  Diagnostic.merge (lexicalDiagnostics source)
    ((refusedGroups options ts).map (·.diagnostic ts))

/-- The text that a plan makes of tokens, if the plan passes its check. -/
def Plan.apply (plan : Plan) (tokens : List Token) : Except Failure (List Char) :=
  match plan.fault? tokens with
  | some fault => .error (.faultyPlan fault)
  | none => .ok (plan.render tokens)

/-- Moves the leading qualifiers of a source behind their types. -/
def relocate (options : Options) (source : List Char) : Except Failure Relocated :=
  let ts := tokens source
  ((Plan.ofTokens options ts).apply ts).map (⟨·, diagnostics options source⟩)

/-- The characters of a source file. -/
def decodeSource (bytes : List UInt8) : Except Failure (List Char) :=
  match Utf8.decode bytes with
  | .ok source => .ok source
  | .error offset => .error (.invalidEncoding offset)

/-- Moves the leading qualifiers of a source file behind their types. -/
def relocateBytes (options : Options) (bytes : List UInt8) : Except Failure Relocated :=
  (decodeSource bytes).bind (relocate options)

end EastConst
