import VerboseExpr.Compilation
import VerboseExpr.Matcher.Engine
import VerboseExpr.Regex.Automaton.Limits
import VerboseExpr.Regex.Automaton.Search
import VerboseExpr.Regex.Backtracking.Search

namespace VerboseExpr

structure Matcher where
  pattern : Bytes
  engine : Engine
  regex : Regex

structure MatchResult where
  found : Bool
  offset : Nat
  text : Bytes
  engine : Engine
  deriving DecidableEq, Repr

def MatchResult.line (r : MatchResult) : Bytes :=
  if r.found then Bytes.ofNat r.offset ++ Bytes.ofString " " ++ r.text else "[No match]"

namespace Matcher

def forEngine (pattern : Bytes) (engine : Engine) : Except MatcherError Matcher :=
  let regex? := match engine with
    | .automaton => Regex.Automaton.read? pattern
    | .backtracking => Regex.Backtracking.read? pattern
  match regex? with
  | some regex => .ok ⟨pattern, engine, regex⟩
  | none => .error (.invalidPattern engine)

def make (pattern : Bytes) (choice : Engine.Choice) : Except MatcherError Matcher :=
  match choice with
  | .only engine => forEngine pattern engine
  | .auto =>
    match forEngine pattern .automaton with
    | .ok m => .ok m
    | .error _ => forEngine pattern .backtracking

def makeNamed (pattern name : Bytes) : Except MatcherError Matcher :=
  match Engine.Choice.ofName? name with
  | some choice => make pattern choice
  | none => .error (.unknownEngine name)

/-- The characters from one place to another that the match consists of. The automaton gives the
bytes of the subject, backtracking the characters it has read. -/
def matchText (engine : Engine) (us : List Utf8.Unit) (start stop : Nat) : Bytes :=
  let part := (us.take stop).drop start
  match engine with
  | .automaton => part.flatMap (·.bytes)
  | .backtracking => Bytes.ofChars (part.map (·.char))

/-- The byte at which the character with the given number begins, or the length of the subject if it has
no more characters than that. -/
def byteOffset (subject : Bytes) (index : Nat) : Nat := go 0 0 (Utf8.units subject)
where
  /-- Goes on after `passed` characters, which took `place` bytes. -/
  go (passed place : Nat) : List Utf8.Unit → Nat
    | [] => subject.length
    | u :: us => if passed = index then place else go (passed + 1) (place + u.width) us

/-- The byte at which the match begins. The automaton counts bytes by itself, backtracking counts
characters. -/
def matchOffset (engine : Engine) (subject : Bytes) (start : Nat) : Nat :=
  match engine with
  | .automaton => Utf8.offset subject start
  | .backtracking => byteOffset subject start

def find (m : Matcher) (subject : Bytes) : MatchResult :=
  let us := Utf8.units subject
  let chars := (us.map (·.char)).toArray
  let span? := match m.engine with
    | .automaton => Regex.Automaton.find? m.regex chars
    | .backtracking => Regex.Backtracking.find? m.regex chars
  match span? with
  | none => ⟨false, 0, [], m.engine⟩
  | some (start, stop) =>
    ⟨true, matchOffset m.engine subject start, matchText m.engine us start stop, m.engine⟩

end Matcher

inductive MatchError where
  | fault (f : Fault)
  | matcher (e : MatcherError)
  deriving DecidableEq, Repr

/-- Compiles an expression and finds the first match of its pattern in a subject. -/
def matchSource (source subject : Bytes) : Except MatchError MatchResult := do
  let pattern ← (compile source).mapError .fault
  let m ← (Matcher.make pattern .auto).mapError .matcher
  return m.find subject

end VerboseExpr
