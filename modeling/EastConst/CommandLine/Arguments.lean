import EastConst.Settings

/-!
# Command-line arguments

Options and files may be mixed. An option with a value takes it after an equals sign or from the
next argument, letters of one argument may be joined, and after `--` there are only files.
-/

namespace EastConst.CommandLine

/-- An option that is on or off. -/
inductive Switch where
  | stdout | check | strict | noVolatile | dumpTokens
  deriving DecidableEq, Repr

/-- An option that has a value. -/
inductive Valued where
  | spacing | declMacro | config | diagnostics
  deriving DecidableEq, Repr

/-- What an option is. -/
inductive Item where
  | switch (s : Switch)
  | valued (v : Valued)
  /-- May be repeated, to be told more. -/
  | verbose
  | help
  | version
  deriving DecidableEq, Repr

/-- The option with a long name. -/
def Item.ofName? : String → Option Item
  | "stdout" => some (.switch .stdout)
  | "check" => some (.switch .check)
  | "strict" => some (.switch .strict)
  | "no-volatile" => some (.switch .noVolatile)
  | "dump-tokens" => some (.switch .dumpTokens)
  | "spacing" => some (.valued .spacing)
  | "decl-macro" => some (.valued .declMacro)
  | "config" => some (.valued .config)
  | "diagnostics" => some (.valued .diagnostics)
  | "verbose" => some .verbose
  | "help" => some .help
  | "version" => some .version
  | _ => none

/-- The option with a letter. -/
def Item.ofLetter? : Char → Option Item
  | 'v' => some .verbose
  | 'h' => some .help
  | 'V' => some .version
  | _ => none

/-- Why there is nothing to do. -/
inductive Stop where
  /-- The arguments break a rule. -/
  | misuse
  | help
  | version
  deriving DecidableEq, Repr

/-- What has been asked for. -/
structure Arguments where
  files : List String := []
  switches : List Switch := []
  spacing : Option Spacing := none
  declMacros : List String := []
  config : Option String := none
  diagnostics : Option DiagnosticFormat := none
  verbosity : Nat := 0
  deriving DecidableEq, Repr

/-- One argument by its looks. -/
inductive Word where
  | file
  /-- Letters after a hyphen. -/
  | letters (letters : List Char)
  /-- A name after two hyphens, and the value after an equals sign. -/
  | long (name : String) (value? : Option String)
  deriving DecidableEq, Repr

/-- The looks of an argument. A single hyphen is a file. -/
def Word.ofString (word : String) : Word :=
  match word.toList with
  | '-' :: '-' :: text =>
    let name := text.takeWhile (· != '=')
    let value? := (text.drop name.length).tail?.map String.ofList
    .long (String.ofList name) value?
  | '-' :: c :: text => .letters (c :: text)
  | _ => .file

namespace Arguments

/-- Whether a switch is on. -/
def has (args : Arguments) (s : Switch) : Bool := args.switches.contains s

/-- Adds a file. A file has a name. -/
def addFile (args : Arguments) (path : String) : Except Stop Arguments :=
  if path.isEmpty then .error .misuse else .ok { args with files := args.files ++ [path] }

/-- Turns on an option without a value. A switch is turned on once. -/
def turnOn (args : Arguments) : Item → Except Stop Arguments
  | .switch s =>
    if args.has s then .error .misuse else .ok { args with switches := args.switches ++ [s] }
  | .verbose => .ok { args with verbosity := args.verbosity + 1 }
  | .help => .error .help
  | .version => .error .version
  | .valued _ => .error .misuse

/-- Turns on the option with a letter. -/
def turnOnLetter (args : Arguments) (letter : Char) : Except Stop Arguments :=
  (Item.ofLetter? letter).elim (.error .misuse) args.turnOn

/-- A value that has not been given before and is one of those allowed. -/
def once (given new : Option α) : Except Stop (Option α) :=
  if given.isSome || new.isNone then .error .misuse else .ok new

/-- Gives an option its value. Only the names of macros may be given repeatedly. -/
def setValue (args : Arguments) (value : String) : Valued → Except Stop Arguments
  | .spacing => do
    return { args with spacing := ← once args.spacing (Spacing.ofName? value) }
  | .diagnostics => do
    return { args with diagnostics := ← once args.diagnostics (DiagnosticFormat.ofName? value) }
  | .config => do
    let path := if value.isEmpty then none else some value
    return { args with config := ← once args.config path }
  | .declMacro => .ok { args with declMacros := args.declMacros ++ [value] }

/-- Whether an argument can be the value of the option before it. -/
def isValue (word : String) : Bool :=
  Word.ofString word == .file

/-- Reads arguments, from first to last. -/
def scan (args : Arguments) : List String → Except Stop Arguments
  | [] => .ok args
  | "--" :: paths => paths.foldlM addFile args
  | word :: rest =>
    match Word.ofString word with
    | .file => (args.addFile word).bind (scan · rest)
    | .letters letters => (letters.foldlM turnOnLetter args).bind (scan · rest)
    | .long name value? =>
      match Item.ofName? name, value?, rest with
      | some (.valued v), some value, rest => (args.setValue value v).bind (scan · rest)
      | some (.valued v), none, value :: rest =>
        if isValue value then (args.setValue value v).bind (scan · rest) else .error .misuse
      | some item, none, rest => (args.turnOn item).bind (scan · rest)
      | _, _, _ => .error .misuse

/-- Whether switches that exclude one another are on. -/
def conflict (args : Arguments) : Bool :=
  (args.has .check && args.has .stdout) ||
    (args.has .dumpTokens && (args.has .stdout || args.has .check))

/-- What arguments ask for. There has to be a file. -/
def parse (words : List String) : Except Stop Arguments := do
  let args ← scan {} words
  if args.files.isEmpty || args.conflict then throw .misuse
  return args

/-- The settings file of a project. -/
def projectFile : String := ".westerly.toml"

/-- Where the settings of a run come from: the project, a file that is asked for, the environment,
and options. -/
def sources (args : Arguments) : Settings.Sources :=
  let relocation (name : String) : Settings.Key := .child (.name "rewrite") name
  let output (name : String) : Settings.Key := .child (.name "output") name
  { layers :=
      .file projectFile false :: (args.config.map fun path => .file path true).toList ++
        [.environment]
    overrides :=
      (args.spacing.map fun s => (relocation "spacing", .string s.name)).toList ++
        (if args.has .noVolatile then [(relocation "relocate_volatile", .bool false)] else []) ++
        (args.diagnostics.map fun f => (output "diagnostics", .string f.name)).toList ++
        (if args.has .strict then [(output "strict", .bool true)] else []) }

/-- The settings of a run. Macros that are asked for come after those of other sources. -/
def settings (args : Arguments) (surroundings : Settings.Surroundings) :
    Except Settings.Error Settings :=
  (args.sources.resolve surroundings).map fun settings =>
    let words := settings.options.declMacros ++ args.declMacros.map String.toList
    { settings with options := { settings.options with declMacros := words } }

end Arguments

end EastConst.CommandLine
