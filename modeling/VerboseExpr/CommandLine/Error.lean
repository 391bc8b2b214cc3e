import VerboseExpr.CommandLine.Subcommand
import VerboseExpr.Config.Store
import VerboseExpr.Generation

namespace VerboseExpr.CommandLine

inductive Error where
  | unknownSubcommand (name : Bytes)
  | flag (e : FlagError)
  | tooManyArguments (limit found : Nat)
  | unexpectedArgument (command : Subcommand) (word : Bytes)
  | config (e : Config.LoadError)
  | noSubject
  | source (e : FileError)
  | fault (f : Fault)
  | matcher (e : MatcherError)
  | generation (e : GenerationError)
  | unknownCommand (name : Bytes)
  | configExists (path : Bytes)
  | file (e : FileError)
  deriving DecidableEq, Repr

/-- Does the error break off the whole run? -/
def Error.isFatal : Error → Bool
  | .config e => e.isFatal
  | _ => false

def unknownCommandText (word path : Bytes) : Bytes :=
  Bytes.ofString "unknown command " ++ Quoted.encode word ++ Bytes.ofString " for " ++
    Quoted.encode path

def suggestionText (names : List Bytes) : Bytes :=
  if names.isEmpty then []
  else
    Bytes.ofString "\n\nDid you mean this?\n" ++
      names.flatMap fun n => Bytes.ofString "\t" ++ n ++ Bytes.ofString "\n"

/-- The error as a message. Of a fault the stage is left out. -/
def Error.message : Error → Bytes
  | .unknownSubcommand name =>
    unknownCommandText name (Bytes.ofString "verbex") ++ suggestionText (suggestions name)
  | .flag e => e.message
  | .tooManyArguments limit found =>
    Bytes.ofString "accepts at most " ++ Bytes.ofNat limit ++ Bytes.ofString " arg(s), received " ++
      Bytes.ofNat found
  | .unexpectedArgument command word =>
    unknownCommandText word (Bytes.ofString "verbex " ++ command.name)
  | .config e => e.message
  | .noSubject => Bytes.ofString "--subject is required"
  | .source e => Bytes.ofString "failed to read source: " ++ e.message
  | .fault f => f.brief
  | .matcher e => e.message
  | .generation e =>
    match e.fault? with
    | some f => f.brief
    | none => e.message
  | .unknownCommand name => Bytes.ofString "unknown command: " ++ name
  | .configExists path => path ++ Bytes.ofString " already exists (use --force to overwrite)"
  | .file e => e.message

end VerboseExpr.CommandLine
