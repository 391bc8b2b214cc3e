import VerboseExpr.File.System
import VerboseExpr.Generated.SourceFile

/-!
Writing generated files. A file that would not be well formed is not written at all, and a file that has
been written is laid out once more in its place.
-/

namespace VerboseExpr.Generated

inductive SaveError where
  | malformed
  | file (e : FileError)
  deriving DecidableEq, Repr

def SaveError.message : SaveError → Bytes
  | .malformed => "source does not parse"
  | .file e => e.message

inductive WriteError where
  | invalidName (name : Bytes)
  | invalidPackage (package : Bytes)
  | noOutput
  | malformed
  | save (e : SaveError)
  | format (e : SaveError)
  | saveTest (e : SaveError)
  | formatTest (e : SaveError)
  deriving DecidableEq, Repr

def WriteError.message : WriteError → Bytes
  | .invalidName name =>
    Bytes.ofString "name " ++ Quoted.encode name ++ Bytes.ofString " is not a valid Go identifier"
  | .invalidPackage package =>
    Bytes.ofString "package " ++ Quoted.encode package ++
      Bytes.ofString " is not a valid Go identifier"
  | .noOutput => "output file cannot be empty"
  | .malformed => SaveError.malformed.message
  | .save e => Bytes.ofString "failed to save file: " ++ e.message
  | .format e => Bytes.ofString "failed to format file: " ++ e.message
  | .saveTest e => Bytes.ofString "failed to save test file: " ++ e.message
  | .formatTest e => Bytes.ofString "failed to format test file: " ++ e.message

namespace Declaration

def validate (d : Declaration) : Except WriteError Unit :=
  if !isIdentifier d.name then .error (.invalidName d.name)
  else if !isIdentifier d.package then .error (.invalidPackage d.package)
  else .ok ()

def render (d : Declaration) : Except WriteError Bytes :=
  match d.sourceFile? with
  | some text => .ok text
  | none => .error .malformed

def save {m : Type → Type} [Monad m] [FileSystem m] (path : Bytes) (text? : Option Bytes) :
    m (Except SaveError Unit) := do
  match text? with
  | some text => return (← FileSystem.writeFile path text).mapError .file
  | none => return .error .malformed

/-- Lays out the file under a path once more, in its place. -/
def reformat {m : Type → Type} [Monad m] [FileSystem m] (format : Bytes → Option Bytes) (path : Bytes) :
    m (Except SaveError Unit) := do
  match ← FileSystem.readFile path with
  | .error e => return .error (.file e)
  | .ok text => save path (format text)

/-- Saves a text, if there is one, and lays out the file once more. The last two arguments say how the
error is told when either fails. -/
def put {m : Type → Type} [Monad m] [FileSystem m] (format : Bytes → Option Bytes) (path : Bytes)
    (text? : Option Bytes) (ofSave ofFormat : SaveError → WriteError) : m (Except WriteError Unit) := do
  match ← save path text? with
  | .error e => return .error (ofSave e)
  | .ok () => return (← reformat format path).mapError ofFormat

def putSource {m : Type → Type} [Monad m] [FileSystem m] (d : Declaration) (format : Bytes → Option Bytes)
    (output : Bytes) : m (Except WriteError Unit) :=
  put format output d.sourceFile? .save .format

def putTest {m : Type → Type} [Monad m] [FileSystem m] (d : Declaration) (format : Bytes → Option Bytes)
    (output : Bytes) : m (Except WriteError Unit) :=
  put format (testFileName output) d.testFile? .saveTest .formatTest

/-- Writes the source file, and the test file beside it if it is asked for. `format` lays out a file; what
is laid out already, such as every generated file, stays as it is. -/
def write {m : Type → Type} [Monad m] [FileSystem m] (d : Declaration) (output : Bytes)
    (withTest : Bool) (format : Bytes → Option Bytes := some) : m (Except WriteError Unit) := do
  match d.validate with
  | .error e => return .error e
  | .ok () =>
    if output.isEmpty then return .error .noOutput
    match ← d.putSource format output with
    | .error e => return .error e
    | .ok () =>
      if !withTest then return .ok ()
      d.putTest format output

end Declaration

end VerboseExpr.Generated
