import VerboseExpr.Matcher.Engine

namespace VerboseExpr

structure Config where
  name : Bytes
  package : Bytes
  output : Bytes
  engine : Bytes
  verbose : Bool
  noColor : Bool
  testFile : Bool
  inputs : List Bytes
  deriving DecidableEq, Repr

inductive ConfigError where
  | emptyName
  | emptyPackage
  | engine (e : MatcherError)
  deriving DecidableEq, Repr

def ConfigError.message : ConfigError → Bytes
  | .emptyName => "name cannot be empty"
  | .emptyPackage => "package cannot be empty"
  | .engine e => e.message

namespace Config

def default : Config where
  name := "Expr"
  package := "main"
  output := []
  engine := "auto"
  verbose := false
  noColor := false
  testFile := false
  inputs := []

def texts (c : Config) : List Bytes := [c.name, c.package, c.output, c.engine] ++ c.inputs

/-- The first setting that is not valid. -/
def validate (c : Config) : Except ConfigError Unit :=
  if (Unicode.trim c.name).isEmpty then .error .emptyName
  else if (Unicode.trim c.package).isEmpty then .error .emptyPackage
  else
    match Engine.Choice.ofSetting c.engine with
    | .ok _ => .ok ()
    | .error e => .error (.engine e)

inductive Format where
  /-- The one that the file name tells, where there is one. -/
  | auto
  | yaml
  | toml
  | unknown
  deriving DecidableEq, Repr

def Format.text : Format → Bytes
  | auto => "auto"
  | yaml => "yaml"
  | toml => "toml"
  | unknown => "unknown"

/-- The last part of a path from its last dot on, or nothing if it has no dot. -/
def extension (path : Bytes) : Bytes :=
  let last := path.reverse.takeWhile (· != 0x2F)
  if last.contains 0x2E then (last.takeWhile (· != 0x2E) ++ [0x2E]).reverse else []

def Format.ofPath (path : Bytes) : Format :=
  if Unicode.lower (extension path) = Bytes.ofString ".toml" then .toml
  else .yaml

end Config

end VerboseExpr
