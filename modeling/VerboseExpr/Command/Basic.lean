import VerboseExpr.Command.Arity

namespace VerboseExpr

inductive Command where
  | control
  | anyCharacter
  | start
  | finish
  | except
  | group
  | concatenation
  | minMaxTimes
  | minTimes
  | oneOrMore
  | optional
  | alternation
  | range
  | reference
  | times
  | zeroOrMore
  deriving DecidableEq, Repr

namespace Command

def all : List Command :=
  [control, anyCharacter, start, finish, except, group, concatenation, minMaxTimes, minTimes,
    oneOrMore, optional, alternation, range, reference, times, zeroOrMore]

def name : Command → Bytes
  | control => "\\n"
  | anyCharacter => "anychar"
  | start => "begin"
  | finish => "end"
  | except => "except"
  | group => "group"
  | concatenation => "match"
  | minMaxTimes => "minmaxtimes"
  | minTimes => "mintimes"
  | oneOrMore => "one-or-more"
  | optional => "optional"
  | alternation => "or"
  | range => "range"
  | reference => "refer"
  | times => "times"
  | zeroOrMore => "zero-or-more"

def aliases : Command → List Bytes
  | control => ["\\r", "\\t"]
  | anyCharacter => ["."]
  | start => ["^"]
  | finish => ["$"]
  | oneOrMore => ["+"]
  | optional => ["zero-or-one", "?"]
  | alternation => ["|"]
  | zeroOrMore => ["*"]
  | _ => []

def names (c : Command) : List Bytes := c.name :: c.aliases

def arity : Command → Arity
  | control | anyCharacter | start | finish => .exactly 0
  | reference => .exactly 1
  | range => .exactly 2
  | group | concatenation => .atLeast 0
  | except | oneOrMore | optional | alternation | zeroOrMore => .atLeast 1
  | times | minTimes => .atLeast 2
  | minMaxTimes => .atLeast 3

/-- How many of the first arguments have to be integers. -/
def counts : Command → Nat
  | reference | times | minTimes => 1
  | minMaxTimes => 2
  | _ => 0

def summary : Command → Bytes
  | control => "newline, carriage return and tab escapes"
  | anyCharacter => "any character ."
  | start => "start anchor ^"
  | finish => "end anchor $"
  | except => "negated character class [^...]"
  | group => "capturing group (...)"
  | concatenation => "concatenate the arguments"
  | minMaxTimes => "between N and M repetitions \x7bN,M\x7d"
  | minTimes => "at least N repetitions \x7bN,\x7d"
  | oneOrMore => "one or more (?:...)+"
  | optional => "zero or one (?:...)?"
  | alternation => "alternation (?:a|b)"
  | range => "character range [a-z]"
  | reference => "back reference to group N"
  | times => "exactly N repetitions \x7bN\x7d"
  | zeroOrMore => "zero or more (?:...)*"

def ofName? (n : Bytes) : Option Command := all.find? (·.names.contains n)

def wrap (before after : String) (args : List Bytes) : Bytes :=
  Bytes.ofString before ++ args.flatten ++ Bytes.ofString after

/-- The pattern of a command called by the given name on the given arguments, or nothing if there
are fewer arguments than it needs. -/
def render (c : Command) (called : Bytes) (args : List Bytes) : Option Bytes :=
  match c, args with
  | control, _ => some called
  | anyCharacter, _ => some (wrap "." "" args)
  | start, _ => some (wrap "^" "" args)
  | finish, _ => some (wrap "$" "" args)
  | except, _ => some (wrap "[^" "]" args)
  | group, _ => some (wrap "(" ")" args)
  | concatenation, _ => some (wrap "" "" args)
  | oneOrMore, _ => some (wrap "(?:" ")+" args)
  | optional, _ => some (wrap "(?:" ")?" args)
  | zeroOrMore, _ => some (wrap "(?:" ")*" args)
  | alternation, _ => some (wrap "(?:" ")" [Bytes.join (Bytes.ofString "|") args])
  | range, lo :: hi :: _ =>
    some (Bytes.ofString "[" ++ lo ++ Bytes.ofString "-" ++ hi ++ Bytes.ofString "]")
  | reference, n :: _ => some (Bytes.ofString "\\" ++ n)
  | times, n :: body => some (wrap "(?:" ")\x7b" body ++ n ++ Bytes.ofString "\x7d")
  | minTimes, n :: body => some (wrap "(?:" ")\x7b" body ++ n ++ Bytes.ofString ",\x7d")
  | minMaxTimes, n :: m :: body =>
    some (wrap "(?:" ")\x7b" body ++ n ++ Bytes.ofString "," ++ m ++ Bytes.ofString "\x7d")
  | _, _ => none

end Command

end VerboseExpr
