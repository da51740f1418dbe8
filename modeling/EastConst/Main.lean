import EastConst.CommandLine

/-!
# The program

Reads what a run may need, asks `CommandLine.run` what to do, and does it.
-/

namespace EastConst.Main

/-- The variables that hold settings. -/
def variableNames : List String :=
  ["WESTERLY__REWRITE__SPACING", "WESTERLY__REWRITE__RELOCATE_VOLATILE",
   "WESTERLY__REWRITE__DECL_MACROS", "WESTERLY__REWRITE__MAX_EXTENT_TOKENS",
   "WESTERLY__OUTPUT__DIAGNOSTICS", "WESTERLY__OUTPUT__STRICT"]

/-- The paths that a run may read. -/
def readablePaths (words : List String) : List String :=
  match CommandLine.Arguments.parse words with
  | .error _ => []
  | .ok args =>
    let settings := CommandLine.Arguments.projectFile :: args.config.toList
    let extended := settings.filterMap fun path =>
      (Path.fileName? path).map fun name => Path.withFileName path (name ++ ".toml")
    args.files ++ settings ++ extended

/-- The bytes at a path, or why there are none. -/
def readPath (path : String) : IO (Except ReadError (List UInt8)) := do
  try
    return .ok (← IO.FS.readBinFile path).toList
  catch
    | .noFileOrDirectory .. => return .error .notFound
    | .inappropriateType .. => return .error .isADirectory
    | _ => return .error .notADirectory

/-- The variables of the environment that hold settings. -/
def readVariables : IO (List (String × String)) :=
  variableNames.filterMapM fun name => do
    return (← IO.getEnv name).map (name, ·)

/-- Does what a run is to do, and gives its code. -/
def perform : CommandLine.Ending → IO UInt32
  | .misused => do
    IO.eprint CommandLine.helpText
    return 2
  | .misconfigured cause => do
    IO.eprintln (CommandLine.misconfiguredText ++ ": " ++ cause.message)
    return UInt32.ofNat CommandLine.failureCode
  | .finished outcome => do
    for (path, bytes) in outcome.writes do
      IO.FS.writeBinFile path (ByteArray.mk bytes.toArray)
    IO.print outcome.stdout
    IO.eprint outcome.stderr
    return UInt32.ofNat outcome.code

end EastConst.Main

/-- Runs the program. -/
def main (words : List String) : IO UInt32 := do
  let files ← (EastConst.Main.readablePaths words).mapM fun path => do
    return (path, ← EastConst.Main.readPath path)
  let read (path : String) : Except EastConst.ReadError (List UInt8) :=
    (files.lookup path).getD (.error .notFound)
  let environment ← EastConst.Main.readVariables
  EastConst.Main.perform (EastConst.CommandLine.run words { read, environment })
