import VerboseExpr.CommandLine.Error
import VerboseExpr.CommandLine.Help
import VerboseExpr.CommandLine.Report
import VerboseExpr.Log

/-!
Running the program on arguments: the subcommand is chosen, its flags are read, the settings are
loaded, and the subcommand does its work. Everything that the program prints is part of the result.
-/

namespace VerboseExpr.CommandLine

/-- What a run of the program leaves behind, apart from files. -/
structure Outcome where
  /-- Zero if the run succeeded, one if it failed, and two if it was broken off. -/
  status : Nat
  output : Bytes
  errors : Bytes
  log : Bytes
  deriving DecidableEq, Repr

structure Job where
  arguments : Arguments
  config : Config
  /-- Are colours on? -/
  colours : Bool
  deriving DecidableEq, Repr

/-- What a subcommand comes to: its output or an error, and what it has logged. -/
structure Work where
  log : Bytes
  result : Except Error Bytes

def Work.fail (log : Bytes) (e : Error) : Work := ⟨log, .error e⟩

def Work.done (log output : Bytes) : Work := ⟨log, .ok output⟩

namespace Job

def logger (j : Job) : Logger := if j.config.verbose then .compiler else .silent

def eventLine (j : Job) (level message : String) (fields : List (String × Bytes)) : Bytes :=
  if !j.config.verbose then []
  else
    let member (f : String × Bytes) : Bytes :=
      Json.string .logField (Bytes.ofString f.1) ++ Bytes.ofString ": " ++
        Json.string .logField f.2
    Logger.line [level, message,
      Bytes.ofString "\x7b" ++ Bytes.join (Bytes.ofString ", ") (fields.map member) ++
        Bytes.ofString "\x7d"]

/-- The options for generated code: flags that are given count before the settings. -/
def options (j : Job) (source : Bytes) : Options where
  source := source
  name := (j.arguments.value? .name).getD j.config.name
  package := (j.arguments.value? .package).getD j.config.package
  output := (j.arguments.value? .output).getD j.config.output
  engine := (j.arguments.value? .engine).getD j.config.engine
  testFile := j.arguments.isOn .testFile || j.config.testFile
  inputs := if j.arguments.has .input then j.arguments.values .input else j.config.inputs

def compile (j : Job) (source : Bytes) : Work :=
  let log := j.logger.record (Compilation.account source)
  match Compilation.run source with
  | .error f => .fail log (.fault f)
  | .ok c =>
    let showTokens := j.arguments.isOn .tokens
    let showTree := j.arguments.isOn .tree
    if !showTokens && !showTree then .done log (paintLine j.colours .pattern c.pattern)
    else
      let tokens :=
        if showTokens then fieldLine j.colours "tokens" (Compilation.tokenTexts c.tokens) else []
      let tree := if showTree then fieldLine j.colours "tree" c.tree.dump else []
      .done log (tokens ++ tree ++ fieldLine j.colours "pattern" c.pattern)

def search (j : Job) (source : Bytes) : Work :=
  match Engine.Choice.ofSetting ((j.arguments.value? .engine).getD j.config.engine) with
  | .error e => .fail [] (.matcher e)
  | .ok choice =>
    let log := j.logger.record (Compilation.account source)
    match VerboseExpr.compile source with
    | .error f => .fail log (.fault f)
    | .ok pattern =>
      match Matcher.make pattern choice with
      | .error e => .fail log (.matcher e)
      | .ok m =>
        let log := log ++ j.eventLine "DEBUG" "matching"
          [("pattern", m.pattern), ("engine", m.engine.text)]
        let r := m.find (j.arguments.value .subject)
        .done log (if r.found then textLine r.line else paintLine j.colours .muted r.line)

def analyze (j : Job) (source : Bytes) : Work :=
  let log := j.logger.record (Analysis.account source)
  match Analysis.run source with
  | .error f => .fail log (.fault f)
  | .ok a => .done log (if j.arguments.isOn .json then analysisJson a else analysisText j.colours a)

def commands (j : Job) : Work :=
  match j.arguments.words with
  | [] => .done [] (commandTable Command.all)
  | name :: _ =>
    match Command.ofName? name with
    | some c => .done [] (commandTable [c])
    | none => .fail [] (.unknownCommand name)

/-- The topics that were asked for, each between the plainest quotes that can hold it. -/
def topics (words : List Bytes) : Bytes :=
  let plain (b : Bytes) : Bool :=
    Utf8.isValid b && (Utf8.decode b).all fun c =>
      c = '\t' || (0x20 ≤ c.toNat && c.toNat ≠ 0x60 && c.toNat ≠ 0x7F && c.toNat ≠ 0xFEFF)
  let quoted (b : Bytes) : Bytes := if plain b then [0x60] ++ b ++ [0x60] else Quoted.encode b
  Bytes.ofString "[" ++ Bytes.join (Bytes.ofString " ") (words.map quoted) ++ Bytes.ofString "]"

def help (j : Job) : Work :=
  match choose j.arguments.words with
  | .ok (c, _) => .done [] (helpText c)
  | .error _ =>
    .done [] (textLine (Bytes.ofString "Unknown help topic " ++ topics j.arguments.words) ++
      (programUsage globalFlags).flatMap textLine)

end Job

variable {m : Type → Type} [Monad m] [FileSystem m]

/-- Generates code: into a file, or as output if there is none. -/
def Job.deliver (j : Job) (o : Options) : m Work := do
  let log := j.logger.record o.account
  if o.output.isEmpty then
    match o.render with
    | .ok code => return .done log code
    | .error e => return .fail log (.generation e)
  else
    match ← o.generate with
    | .error e => return .fail log (.generation e)
    | .ok () =>
      let log := log ++ j.eventLine "INFO" "generated" [("file", o.output), ("name", o.name)]
      return .done log (textLine (Bytes.ofString "Generated " ++ o.output))

def Job.gen (j : Job) (source : Bytes) : m Work := j.deliver (j.options source)

/-- Writes the default settings to a file that is not there yet, or that may be replaced. -/
def Job.init (j : Job) : m Work := do
  let given := j.arguments.value .config
  let path := if given.isEmpty then Config.defaultFile else given
  let write : m Work := do
    match ← Config.default.save path with
    | .ok () => return .done [] (textLine (Bytes.ofString "Configuration file created: " ++ path))
    | .error e => return .fail [] (.file e)
  match ← FileSystem.stat path with
  | .ok () => if j.arguments.isOn .force then write else return .fail [] (.configExists path)
  | .error e => if e.reason = .noSuchFile then write else return .fail [] (.file e)

/-- The expression: from the file that is named, from the arguments, or from the standard input. -/
def readSource (stdin : m Bytes) (a : Arguments) : m (Except Error Bytes) := do
  let file := a.value .file
  if !file.isEmpty then return (← FileSystem.readFile file).mapError .source
  else if !a.words.isEmpty then return .ok (Bytes.join (Bytes.ofString " ") a.words)
  else return .ok (← stdin)

def perform (stdin : m Bytes) (c : Subcommand) (j : Job) : m Work := do
  let onSource (work : Bytes → m Work) : m Work := do
    match ← readSource stdin j.arguments with
    | .ok source => work source
    | .error e => return .fail [] e
  match c with
  | .compile => onSource fun s => return j.compile s
  | .search =>
    if j.arguments.has .subject then onSource fun s => return j.search s
    else return .fail [] .noSubject
  | .gen => onSource fun s => j.gen s
  | .analyze => onSource fun s => return j.analyze s
  | .commands => return j.commands
  | .init => j.init
  | .help => return j.help
  | .completion => return .done [] (helpText (some .completion))

def checkWords (c : Subcommand) (words : List Bytes) : Except Error Unit :=
  match c, words with
  | .commands, _ :: _ :: _ => .error (.tooManyArguments 1 words.length)
  | .init, word :: _ | .completion, word :: _ => .error (.unexpectedArgument c word)
  | _, _ => .ok ()

/-- The settings that a subcommand works with. Those of a file are not needed to write one. -/
def loadConfig (c : Subcommand) (a : Arguments) : m (Except Error Config) := do
  let loaded ←
    if c = .init then pure (.ok Config.default) else Config.resolve (a.value .config)
  match loaded with
  | .error e => return .error (.config e)
  | .ok config =>
    return .ok (if a.has .verbose then { config with verbose := a.isOn .verbose } else config)

def failure (colours : Bool) (e : Error) (log : Bytes) : Outcome where
  status := if e.isFatal then 2 else 1
  output := []
  errors := paint colours .error (Bytes.ofString "ERROR: ") ++ textLine e.message
  log := log

def success (output log : Bytes) : Outcome := ⟨0, output, [], log⟩

def Work.conclude (w : Work) (colours : Bool) : Outcome :=
  match w.result with
  | .ok output => success output w.log
  | .error e => failure colours e w.log

/-- Runs a subcommand on its arguments. Until the settings are loaded, only the terminal decides about
colours. -/
def runSubcommand (terminal : Bool) (stdin : m Bytes) (c : Subcommand) (a : Arguments) :
    m Outcome := do
  match checkWords c a.words with
  | .error e => return failure terminal e []
  | .ok () =>
    match ← loadConfig c a with
    | .error e => return failure terminal e []
    | .ok config =>
      let colours := terminal && !(a.isOn .noColor || config.noColor)
      let work ← perform stdin c ⟨a, config, colours⟩
      return work.conclude colours

def run (terminal : Bool) (stdin : m Bytes) (args : List Bytes) : m Outcome := do
  match choose args with
  | .error word => return failure terminal (.unknownSubcommand word) []
  | .ok (c, rest) =>
    match readFlags (knownFlags c) rest with
    | .error e => return failure terminal (.flag e) []
    | .ok a =>
      if a.isOn .help then return success (helpText c) []
      else
        match c with
        | none => return success (helpText none) []
        | some c => runSubcommand terminal stdin c a

end VerboseExpr.CommandLine
