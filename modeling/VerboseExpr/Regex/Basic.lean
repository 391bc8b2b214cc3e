import VerboseExpr.Regex.CharSet

namespace VerboseExpr

inductive Anchor where
  | textStart
  | textEnd
  | wordBoundary
  | noWordBoundary
  deriving DecidableEq, Repr

inductive Regex where
  | empty
  | char (c : Char)
  | set (s : CharSet)
  | anchor (a : Anchor)
  /-- A group whose match is kept under a number. -/
  | group (index : Nat) (body : Regex)
  /-- What the group of that number matched last. -/
  | reference (index : Nat)
  | cat (first second : Regex)
  /-- The first alternative is preferred. -/
  | alt (first second : Regex)
  /-- At least `min` and at most `max` repetitions, preferably many if it is greedy. -/
  | rep (min : Nat) (max : Option Nat) (greedy : Bool) (body : Regex)
  deriving DecidableEq, Repr

namespace Regex

def concat : List Regex → Regex
  | [] => empty
  | [r] => r
  | r :: rest => cat r (concat rest)

/-- The regular expressions as alternatives, the first preferred. -/
def choice : List Regex → Regex
  | [] => empty
  | [r] => r
  | r :: rest => alt r (choice rest)

def isWordChar (c : Char) : Bool := CharSet.inRanges CharSet.wordChars c

/-- Is there a word on exactly one side of the place `pos`? -/
def atBoundary (subject : Array Char) (pos : Nat) : Bool :=
  let before := pos > 0 && (subject[pos - 1]?.map isWordChar).getD false
  let after := (subject[pos]?.map isWordChar).getD false
  before != after

end Regex

def Anchor.holds (a : Anchor) (subject : Array Char) (pos : Nat) : Bool :=
  match a with
  | .textStart => pos == 0
  | .textEnd => pos == subject.size
  | .wordBoundary => Regex.atBoundary subject pos
  | .noWordBoundary => !Regex.atBoundary subject pos

end VerboseExpr
