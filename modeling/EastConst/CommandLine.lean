import EastConst.CommandLine.Arguments
import EastConst.CommandLine.Report

/-!
# The command line

`CommandLine.run` decides what a run of the program does, from its arguments and from what it can
read: what it prints, which files it writes, and the code it ends with.

A file that cannot be read or relocated does not keep the others from being worked on.
-/

namespace EastConst.CommandLine

/-- What is done with the relocation of a file. -/
inductive Mode where
  /-- A file that changes is written. -/
  | inPlace
  /-- The output is printed. -/
  | print
  /-- A file that would change is named. -/
  | check
  deriving DecidableEq, Repr

/-- The mode that arguments ask for. -/
def Arguments.mode (args : Arguments) : Mode :=
  if args.has .check then .check
  else if args.has .stdout then .print
  else .inPlace

/-- What a run does. -/
structure Outcome where
  code : Nat
  stdout : String := ""
  stderr : String := ""
  /-- The files that are written, with their bytes. -/
  writes : List (String × List UInt8) := []
  deriving DecidableEq, Repr

/-- How a run ends. -/
inductive Ending where
  /-- The arguments break a rule. -/
  | misused
  /-- The settings cannot be had. -/
  | misconfigured (cause : Settings.Error)
  | finished (outcome : Outcome)
  deriving DecidableEq, Repr

/-- The code of a run that cannot do all it is asked for. -/
def failureCode : Nat := 2

/-- What a run says if its settings cannot be had. -/
def misconfiguredText : String := "westerly: invalid configuration"

/-! ## Relocation of files -/

/-- A file and what came of it. -/
abbrev Result := String × Except FileFailure Report

/-- What came of each file. -/
def results (options : Options) (read : String → Except ReadError (List UInt8))
    (paths : List String) : List Result :=
  paths.map fun path => (path, Report.ofFile options read path)

namespace Result

/-- Whether a file could not be worked on. -/
def failed (result : Result) : Bool := result.2.toOption.isNone

/-- Whether a file changes. -/
def changed (result : Result) : Bool := result.2.toOption.any Report.changed

/-- Whether there are diagnostics on a file. -/
def reported (result : Result) : Bool :=
  result.2.toOption.any fun r => r.relocated.hasDiagnostics

/-- What is printed for a file. -/
def stdout (mode : Mode) (result : Result) : String :=
  match mode, result.2 with
  | .print, .ok r => String.ofList r.relocated.output
  | _, _ => ""

/-- What is told about a file. -/
def stderr (mode : Mode) (format : DiagnosticFormat) (result : Result) : String :=
  match result.2 with
  | .error failure => failure.line result.1
  | .ok r =>
    (if mode = .check ∧ r.changed then "would rewrite " ++ r.path ++ "\n" else "") ++
      r.diagnosticLines format

/-- What is written for a file. -/
def write? (mode : Mode) (result : Result) : Option (String × List UInt8) :=
  match mode, result.2 with
  | .inPlace, .ok r => if r.changed then some (r.path, Utf8.encode r.relocated.output) else none
  | _, _ => none

end Result

/-- The code of a run over files: 2 if some file failed, 1 if the check found changes or strictness
found diagnostics, and else 0. -/
def exitCode (mode : Mode) (strict : Bool) (results : List Result) : Nat :=
  if results.any Result.failed then failureCode
  else if mode = .check ∧ results.any Result.changed ∨ strict ∧ results.any Result.reported then 1
  else 0

/-- The relocation of files. -/
def relocateFiles (settings : Settings) (mode : Mode)
    (read : String → Except ReadError (List UInt8)) (paths : List String) : Outcome :=
  let results := results settings.options read paths
  { code := exitCode mode settings.strict results
    stdout := String.join (results.map (Result.stdout mode))
    stderr := String.join (results.map (Result.stderr mode settings.diagnostics))
    writes := results.filterMap (Result.write? mode) }

/-! ## Tokens of files -/

/-- Prints the tokens of files, up to the first that fails. -/
def dumpTokens (read : String → Except ReadError (List UInt8)) : List String → Outcome
  | [] => { code := 0 }
  | path :: rest =>
    match tokenDumpOfFile read path with
    | .error failure => { code := failureCode, stderr := failure.line path }
    | .ok dump =>
      let outcome := dumpTokens read rest
      { outcome with stdout := dump ++ outcome.stdout }

/-! ## Runs -/

/-- The name and number of the program. -/
def versionText : String := "westerly 0.2.1\n"

/-- How the program is used. -/
def helpText : String :=
  "Usage: westerly [OPTIONS] <FILES>...\n" ++
  "\n" ++
  "Arguments:\n" ++
  "  <FILES>...  Source files to process\n" ++
  "\n" ++
  "Options:\n" ++
  "      --stdout             Print results instead of rewriting files in place\n" ++
  "      --check              Write nothing; exit with status 1 if any file would change\n" ++
  "      --strict             Treat diagnostics as failures\n" ++
  "      --spacing <STYLE>    Spacing after relocated qualifiers " ++
    "[possible values: compact, padded]\n" ++
  "      --no-volatile        Only relocate `const`; leave `volatile` where it is\n" ++
  "      --decl-macro <NAME>  Treat NAME as a declaration specifier (repeatable)\n" ++
  "      --config <PATH>      Extra configuration file, layered over ./.westerly.toml\n" ++
  "      --diagnostics <FMT>  Diagnostic output format [possible values: text, json]\n" ++
  "      --dump-tokens        Print the token stream as JSON instead of rewriting\n" ++
  "  -v, --verbose...         Increase log verbosity (-v, -vv, -vvv)\n" ++
  "  -h, --help               Print help\n" ++
  "  -V, --version            Print version\n"

/-- What a run does that has been understood. -/
def Arguments.run (args : Arguments) (surroundings : Settings.Surroundings) : Ending :=
  match args.settings surroundings with
  | .error cause => .misconfigured cause
  | .ok settings =>
    if args.has .dumpTokens then .finished (dumpTokens surroundings.read args.files)
    else .finished (relocateFiles settings args.mode surroundings.read args.files)

/-- What a run with the given arguments does. -/
def run (words : List String) (surroundings : Settings.Surroundings) : Ending :=
  match Arguments.parse words with
  | .error .misuse => .misused
  | .error .help => .finished { code := 0, stdout := helpText }
  | .error .version => .finished { code := 0, stdout := versionText }
  | .ok args => args.run surroundings

end EastConst.CommandLine
