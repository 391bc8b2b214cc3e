import VerboseExpr.Text.Quoted

namespace VerboseExpr.CommandLine

inductive Flag where
  | config
  | engine
  | file
  | force
  | help
  | input
  | json
  | name
  | noColor
  | output
  | package
  | subject
  | testFile
  | tokens
  | tree
  | verbose
  deriving DecidableEq, Repr

inductive Flag.Kind where
  /-- A truth value, which may be left out. -/
  | switch
  /-- A text, of which the last counts. -/
  | text
  /-- A text at each occurrence. -/
  | list
  deriving DecidableEq, Repr

/-- The word by which help texts name what a flag takes. -/
def Flag.Kind.word : Flag.Kind → Bytes
  | switch => []
  | text => "string"
  | list => "stringArray"

namespace Flag

def longName : Flag → Bytes
  | config => "config"
  | engine => "engine"
  | file => "file"
  | force => "force"
  | help => "help"
  | input => "input"
  | json => "json"
  | name => "name"
  | noColor => "no-color"
  | output => "output"
  | package => "package"
  | subject => "subject"
  | testFile => "test-file"
  | tokens => "tokens"
  | tree => "tree"
  | verbose => "verbose"

def letter? : Flag → Option UInt8
  | file => some 0x66
  | help => some 0x68
  | name => some 0x6E
  | output => some 0x6F
  | package => some 0x70
  | subject => some 0x73
  | verbose => some 0x76
  | _ => none

def kind : Flag → Kind
  | force | help | json | noColor | testFile | tokens | tree | verbose => .switch
  | config | engine | file | name | output | package | subject => .text
  | input => .list

def display (f : Flag) : Bytes :=
  match f.letter? with
  | some l => [0x2D, l] ++ Bytes.ofString ", --" ++ f.longName
  | none => Bytes.ofString "--" ++ f.longName

def joinValues (values : List Bytes) : Bytes := Bytes.join (Bytes.ofString ", ") values

end Flag

inductive FlagError where
  | badForm (argument : Bytes)
  | unknown (name : Bytes)
  | unknownLetter (letter : UInt8) (letters : Bytes)
  | missingValue (argument : Bytes)
  | missingLetterValue (letter : UInt8) (letters : Bytes)
  | notBoolean (value : Bytes) (flag : Flag)
  deriving DecidableEq, Repr

def FlagError.message : FlagError → Bytes
  | .badForm a => Bytes.ofString "bad flag syntax: " ++ a
  | .unknown name => Bytes.ofString "unknown flag: --" ++ name
  | .unknownLetter l ls =>
    Bytes.ofString "unknown shorthand flag: " ++ Quoted.encodeByte l ++ Bytes.ofString " in -" ++ ls
  | .missingValue a => Bytes.ofString "flag needs an argument: " ++ a
  | .missingLetterValue l ls =>
    Bytes.ofString "flag needs an argument: " ++ Quoted.encodeByte l ++ Bytes.ofString " in -" ++ ls
  | .notBoolean value flag =>
    Bytes.ofString "invalid argument " ++ Quoted.encode value ++ Bytes.ofString " for " ++
      Quoted.encode flag.display ++ Bytes.ofString " flag: strconv.ParseBool: parsing " ++
      Quoted.encode value ++ Bytes.ofString ": invalid syntax"

def bool? (b : Bytes) : Option Bool :=
  if ["1", "t", "T", "true", "TRUE", "True"].any (Bytes.ofString · == b) then some true
  else if ["0", "f", "F", "false", "FALSE", "False"].any (Bytes.ofString · == b) then some false
  else none

structure Arguments where
  flags : List (Flag × Bytes) := []
  words : List Bytes := []
  deriving DecidableEq, Repr

namespace Arguments

def values (a : Arguments) (f : Flag) : List Bytes :=
  (a.flags.filter (·.1 == f)).map (·.2)

def has (a : Arguments) (f : Flag) : Bool := a.flags.any (·.1 == f)

def value? (a : Arguments) (f : Flag) : Option Bytes := (a.values f).getLast?

def value (a : Arguments) (f : Flag) : Bytes := (a.value? f).getD []

def isOn (a : Arguments) (f : Flag) : Bool := ((a.value? f).bind bool?).getD false

def addFlag (f : Flag) (value : Bytes) (a : Arguments) : Arguments :=
  { a with flags := (f, value) :: a.flags }

def addWord (word : Bytes) (a : Arguments) : Arguments := { a with words := word :: a.words }

end Arguments

def checked (f : Flag) (value : Bytes) : Except FlagError (Flag × Bytes) :=
  if f.kind = .switch && (bool? value).isNone then .error (.notBoolean value f) else .ok (f, value)

def switchedOn : Bytes := Bytes.ofString "true"

/-- Reads a flag by its name. The last component says whether the next argument is its value. -/
def longFlag (known : List Flag) (argument : Bytes) (next? : Option Bytes) :
    Except FlagError (Flag × Bytes × Bool) := do
  let body := argument.drop 2
  if body.head?.all fun c => c == 0x2D || c == 0x3D then throw (.badForm argument)
  let name := body.takeWhile (· != 0x3D)
  match known.find? (·.longName == name) with
  | none => throw (.unknown name)
  | some f =>
    if body.contains 0x3D then
      let (f, v) ← checked f (body.drop (name.length + 1))
      return (f, v, false)
    else if f.kind = .switch then return (f, switchedOn, false)
    else
      match next? with
      | some v =>
        let (f, v) ← checked f v
        return (f, v, true)
      | none => throw (.missingValue argument)

/-- Reads flags by their letters. The last component says whether the next argument is the value of
the last one. Letters that begin like options of a test run are ignored. -/
def letterFlags (known : List Flag) (next? : Option Bytes) :
    Bytes → Except FlagError (List (Flag × Bytes) × Bool)
  | [] => .ok ([], false)
  | l :: rest => do
    if Bytes.startsWith (l :: rest) (Bytes.ofString "test.") then return ([], false)
    match known.find? (·.letter? == some l) with
    | none => throw (.unknownLetter l (l :: rest))
    | some f =>
      if rest.head? == some 0x3D && 1 < rest.length then
        return ([← checked f (rest.drop 1)], false)
      else if f.kind = .switch then
        let (more, used) ← letterFlags known next? rest
        return ((f, switchedOn) :: more, used)
      else if !rest.isEmpty then return ([← checked f rest], false)
      else
        match next? with
        | some v => return ([← checked f v], true)
        | none => throw (.missingLetterValue l (l :: rest))

def readFlags (known : List Flag) : List Bytes → Except FlagError Arguments
  | [] => .ok {}
  | a :: rest =>
    match a with
    | 0x2D :: 0x2D :: [] => .ok { words := rest }
    | 0x2D :: 0x2D :: _ => do
      let (f, v, used) ← longFlag known a rest.head?
      return (← readFlags known (if used then rest.drop 1 else rest)).addFlag f v
    | 0x2D :: l :: letters => do
      let (fs, used) ← letterFlags known rest.head? (l :: letters)
      let more ← readFlags known (if used then rest.drop 1 else rest)
      return { more with flags := fs ++ more.flags }
    | _ => return (← readFlags known rest).addWord a
termination_by args => args.length
decreasing_by all_goals (try split) <;> simp only [List.length_cons, List.length_drop] <;> omega

end VerboseExpr.CommandLine
