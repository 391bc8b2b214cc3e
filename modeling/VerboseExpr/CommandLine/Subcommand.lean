import VerboseExpr.CommandLine.Flag
import VerboseExpr.Unicode.Lower

namespace VerboseExpr.CommandLine

inductive Subcommand where
  | compile
  | search
  | gen
  | analyze
  | commands
  | init
  | help
  | completion
  deriving DecidableEq, Repr

namespace Subcommand

def all : List Subcommand := [compile, search, gen, analyze, commands, init, completion, help]

def name : Subcommand → Bytes
  | compile => "compile"
  | search => "match"
  | gen => "gen"
  | analyze => "analyze"
  | commands => "commands"
  | init => "init"
  | help => "help"
  | completion => "completion"

/-- The flags of a subcommand beside those that all of them have. -/
def flags : Subcommand → List Flag
  | compile => [.file, .tokens, .tree]
  | search => [.engine, .file, .subject]
  | gen => [.engine, .file, .input, .name, .output, .package, .testFile]
  | analyze => [.file, .json]
  | init => [.force]
  | commands | help | completion => []

def ofName? (n : Bytes) : Option Subcommand := all.find? (·.name == n)

end Subcommand

def globalFlags : List Flag := [.config, .noColor, .verbose]

def knownFlags (c : Option Subcommand) : List Flag :=
  (c.map Subcommand.flags).getD [] ++ Flag.help :: globalFlags

/-- Does the argument look like a flag that takes the next argument? Before the subcommand is known,
only the flags that all of them have are, and any other is taken for one with a value. -/
def takesNext (a : Bytes) : Bool :=
  let isSwitch (p : Flag → Bool) : Bool := globalFlags.any fun f => p f && f.kind = .switch
  match a with
  | 0x2D :: 0x2D :: name => !a.contains 0x3D && !isSwitch (·.longName == name)
  | [0x2D, l] => l != 0x3D && !isSwitch (·.letter? == some l)
  | _ => false

/-- The arguments that are neither flags nor values of flags. The end of the arguments is not looked at
if a flag takes the last one. -/
def plainWords : List Bytes → List Bytes
  | [] => []
  | a :: rest =>
    if a == Bytes.ofString "--" then []
    else if takesNext a then
      match rest with
      | _ :: b :: more => plainWords (b :: more)
      | _ => []
    else if a.isEmpty || a.head? == some 0x2D then plainWords rest
    else a :: plainWords rest

/-- The arguments without the first one of the given name that is neither a flag nor the value of
one. -/
def removeWord (word : Bytes) : List Bytes → List Bytes
  | [] => []
  | a :: rest =>
    if a == Bytes.ofString "--" then a :: rest
    else if takesNext a then
      match rest with
      | [] => [a]
      | b :: more => a :: b :: removeWord word more
    else if a.head? != some 0x2D && a == word then rest
    else a :: removeWord word rest

/-- How many bytes have to be inserted, deleted or replaced to make one text of another. -/
def distance (s t : Bytes) : Nat :=
  let row := s.foldl (fun (row : List Nat) c =>
    let start := row.headD 0 + 1
    let cells := (row.zip (row.drop 1)).zip t
    let next := cells.foldl (fun (acc : List Nat × Nat) ((diagonal, above), d) =>
      let cell := if c == d then diagonal else 1 + min (min above acc.2) diagonal
      (acc.1 ++ [cell], cell)) ([start], start)
    next.1) (List.range (t.length + 1))
  row.getLastD 0

/-- The subcommands that a misspelt name may mean: they differ in two places at most, or begin with
the name. The case of letters does not matter. -/
def suggestions (typed : Bytes) : List Bytes :=
  let typed := Unicode.lower typed
  ((Subcommand.all.filter (· != .help)).map Subcommand.name).filter fun n =>
    distance typed n ≤ 2 || n.startsWith typed

/-- The subcommand that arguments choose, and the other arguments. Without a subcommand no word may
stand among them; the word is given as the error. -/
def choose (args : List Bytes) : Except Bytes (Option Subcommand × List Bytes) :=
  match plainWords args with
  | [] => .ok (none, args)
  | word :: _ =>
    match Subcommand.ofName? word with
    | some c => .ok (some c, removeWord word args)
    | none => .error word

end VerboseExpr.CommandLine
