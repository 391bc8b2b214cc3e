import VerboseExpr.Generated.Writing
import VerboseExpr.Matcher.Basic

/-!
From an expression to generated code: the options are checked, the expression is compiled, its pattern
is given to an engine, and every test input is matched to find out what to expect.
-/

namespace VerboseExpr

structure Options where
  source : Bytes
  /-- A free name, from which the names of the declarations are made. -/
  name : Bytes
  package : Bytes
  /-- The output file; needed only to write files. -/
  output : Bytes := []
  engine : Bytes := []
  /-- Is a test file wanted? Test inputs ask for one as well. -/
  testFile : Bool := false
  inputs : List Bytes := []
  deriving DecidableEq, Repr

inductive OptionsError where
  | emptySource
  | emptyName
  | emptyPackage
  | emptyOutput
  | engine (e : MatcherError)
  deriving DecidableEq, Repr

def OptionsError.message : OptionsError → Bytes
  | .emptySource => "source cannot be empty"
  | .emptyName => "name cannot be empty"
  | .emptyPackage => "package cannot be empty"
  | .emptyOutput => "output file cannot be empty"
  | .engine e => e.message

inductive GenerationError where
  | options (e : OptionsError)
  | source (f : Fault)
  | pattern (e : MatcherError)
  | unmatched (input reason : Bytes)
  | code (e : Generated.WriteError)
  deriving DecidableEq, Repr

def GenerationError.message : GenerationError → Bytes
  | .options e => Bytes.ofString "invalid options: " ++ e.message
  | .source f => Bytes.ofString "failed to compile source: " ++ f.text
  | .pattern e => Bytes.ofString "failed to compile pattern: " ++ e.message
  | .unmatched input reason =>
    Bytes.ofString "failed to match test input " ++ Quoted.encode input ++ Bytes.ofString ": " ++ reason
  | .code e => Bytes.ofString "failed to generate code: " ++ e.message

/-- The fault of the expression, if that is what went wrong. -/
def GenerationError.fault? : GenerationError → Option Fault
  | .source f => some f
  | _ => none

/-- How an engine is asked for the first match in a text. It may give up, and then says why. -/
abbrev Search := Matcher → Bytes → Except Bytes MatchResult

def Search.patient : Search := fun m subject => .ok (m.find subject)

namespace Options

/-- Checks the options; the output file is not looked at. Gives the choice of engine. -/
def validate (o : Options) : Except OptionsError Engine.Choice :=
  if (Unicode.trim o.source).isEmpty then .error .emptySource
  else if (Generated.exportedName o.name).isEmpty then .error .emptyName
  else if o.package.isEmpty then .error .emptyPackage
  else (Engine.Choice.ofSetting o.engine).mapError .engine

def wantsTest (o : Options) : Bool := o.testFile || !o.inputs.isEmpty

/-- The inputs of the test file; one is made up if a test file is wanted without any. -/
def testInputs (o : Options) : List Bytes :=
  if o.inputs.isEmpty && o.testFile then [Bytes.ofString "example"] else o.inputs

def prepare (o : Options) (search : Search := .patient) : Except GenerationError Generated.Declaration := do
  let choice ← o.validate.mapError .options
  let pattern ← (compile o.source).mapError .source
  let m ← (Matcher.make pattern choice).mapError .pattern
  let cases ← o.testInputs.mapM fun input => do
    let r ← (search m input).mapError (.unmatched input)
    return ⟨input, r.found, r.text⟩
  return {
    source := o.source
    pattern := pattern
    name := Generated.exportedName o.name
    package := o.package
    engine := m.engine
    cases := cases }

/-- The messages of the compilation that the options lead to, if they are valid. -/
def account (o : Options) : List Bytes :=
  match o.validate with
  | .ok _ => Compilation.account o.source
  | .error _ => []

/-- The messages of the compilation when files are to be written, which needs an output file. -/
def generateAccount (o : Options) : List Bytes := if o.output.isEmpty then [] else o.account

def render (o : Options) (search : Search := .patient) : Except GenerationError Bytes := do
  let d ← o.prepare search
  d.render.mapError .code

/-- Writes the generated files, and lays each of them out with `format`. -/
def generate {m : Type → Type} [Monad m] [FileSystem m] (o : Options) (format : Bytes → Option Bytes := some)
    (search : Search := .patient) : m (Except GenerationError Unit) := do
  if o.output.isEmpty then return .error (.options .emptyOutput)
  match o.prepare search with
  | .error e => return .error e
  | .ok d => return (← d.write o.output o.wantsTest format).mapError .code

end Options

end VerboseExpr
