import VerboseExpr.Config.Toml.Reader
import VerboseExpr.Config.Toml.Writer
import VerboseExpr.Config.Yaml.Reader
import VerboseExpr.Config.Yaml.Writer
import VerboseExpr.File.System

namespace VerboseExpr.Config

inductive ParseError where
  /-- The text is no document of its format, or its values are of the wrong kind. -/
  | malformed (format : String)
  /-- A collection stands among keys that have to be told apart by their values. -/
  | incomparable
  | invalid (e : ConfigError)
  | unsupported (format : Format)
  deriving DecidableEq, Repr

/-- The error as a message. What is wrong with a document is not said in detail. -/
def ParseError.message : ParseError → Bytes
  | .malformed format => Bytes.ofString format ++ Bytes.ofString " parse error: ..."
  | .incomparable => Bytes.ofString "a collection cannot be told from other keys"
  | .invalid e => Bytes.ofString "invalid config: " ++ e.message
  | .unsupported format => Bytes.ofString "unsupported format: " ++ format.text

def ParseError.isFatal (e : ParseError) : Bool := e = .incomparable

/-- The settings in a text on top of the defaults, valid or not. -/
def decode (data : Bytes) : Format → Except ParseError Config
  | .auto | .yaml => match Yaml.read data with
    | .ok c => .ok c
    | .error .malformed => .error (.malformed "YAML")
    | .error .incomparable => .error .incomparable
  | .toml => match Toml.read? data with
    | some c => .ok c
    | none => .error (.malformed "TOML")
  | .unknown => .error (.unsupported .unknown)

def parse (data : Bytes) (format : Format) : Except ParseError Config := do
  let c ← decode data format
  c.validate.mapError .invalid
  return c

def marshal (c : Config) : Format → Except ParseError Bytes
  | .auto | .yaml => .ok (Yaml.write c)
  | .toml => .ok (Toml.write c)
  | .unknown => .error (.unsupported .unknown)

inductive LoadError where
  | unreadable (e : FileError)
  | content (path : Bytes) (e : ParseError)
  deriving DecidableEq, Repr

def LoadError.message : LoadError → Bytes
  | .unreadable e => Bytes.ofString "read config: " ++ e.message
  | .content path e => path ++ Bytes.ofString ": " ++ e.message

def LoadError.isFatal : LoadError → Bool
  | .content _ e => e.isFatal
  | .unreadable _ => false

/-- The file that is looked for where none is named. -/
def defaultFile : Bytes := ".verbex.yaml"

variable {m : Type → Type} [Monad m] [FileSystem m]

def load (path : Bytes) : m (Except LoadError Config) := do
  match ← FileSystem.readFile path with
  | .error e => return .error (.unreadable e)
  | .ok data => return (parse data (Format.ofPath path)).mapError (.content path)

/-- The settings in the file of the given name. Without a name it is the default file, which may be
missing. -/
def resolve (path : Bytes) : m (Except LoadError Config) := do
  if !path.isEmpty then load path
  else
    match ← FileSystem.stat (m := m) defaultFile with
    | .error ⟨_, _, .noSuchFile⟩ => return .ok default
    | _ => load defaultFile

/-- Writes the settings to the file of the given name, or to the default file. -/
def save (c : Config) (path : Bytes) : m (Except FileError Unit) :=
  let path := if path.isEmpty then defaultFile else path
  FileSystem.writeFile path (if Format.ofPath path = .toml then Toml.write c else Yaml.write c)

end VerboseExpr.Config
