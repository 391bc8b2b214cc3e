import VerboseExpr.Regex.Basic

/-!
The words of a pattern and how they make up a regular expression. The two dialects of patterns differ
in how characters form lexemes, and agree on the rest: alternatives bind weakest, then
concatenation, then repetition, and a quantifier belongs to the one unit before it.
-/

namespace VerboseExpr.Regex

inductive Lexeme where
  /-- A unit that is complete in itself. -/
  | atom (r : Regex)
  | openGroup (capturing : Bool)
  | closeGroup
  | bar
  | quantifier (min : Nat) (max : Option Nat) (greedy : Bool)
  deriving DecidableEq, Repr

/-- A group that is being read. -/
structure Frame where
  index : Option Nat
  /-- The alternatives that are complete, last first. -/
  alternatives : List Regex := []
  /-- The units of the alternative that is being read, last first. -/
  units : List Regex := []
  repeatable : Bool := false
  deriving DecidableEq, Repr

namespace Frame

def push (f : Frame) (r : Regex) : Frame := { f with units := r :: f.units, repeatable := true }

def alternative (f : Frame) : Regex := concat f.units.reverse

def body (f : Frame) : Regex := choice (f.alternative :: f.alternatives).reverse

def unit (f : Frame) : Regex :=
  match f.index with
  | some n => group n f.body
  | none => f.body

end Frame

/-- A pattern that is being read: the innermost group, the groups around it from inside out, and the
number of capturing groups so far. -/
structure Builder where
  current : Frame := { index := none }
  around : List Frame := []
  groups : Nat := 0
  deriving DecidableEq, Repr

namespace Builder

/-- Reads one more lexeme. There is nothing to read a quantifier for at the start of an alternative
or after another quantifier, and nothing to close outside all groups. -/
def step (b : Builder) : Lexeme → Option Builder
  | .atom r => some { b with current := b.current.push r }
  | .openGroup true =>
    some { current := { index := some (b.groups + 1) }, around := b.current :: b.around,
           groups := b.groups + 1 }
  | .openGroup false =>
    some { b with current := { index := none }, around := b.current :: b.around }
  | .closeGroup =>
    match b.around with
    | outer :: around => some { b with current := outer.push b.current.unit, around := around }
    | [] => none
  | .bar =>
    some { b with current := { b.current with
      alternatives := b.current.alternative :: b.current.alternatives, units := [],
      repeatable := false } }
  | .quantifier min max greedy =>
    match b.current.repeatable, b.current.units with
    | true, r :: rest =>
      some { b with current := { b.current with
        units := rep min max greedy r :: rest, repeatable := false } }
    | _, _ => none

end Builder

/-- The regular expression that the lexemes make up, if every group is closed. -/
def ofLexemes? (ls : List Lexeme) : Option Regex := do
  let b ← ls.foldlM Builder.step {}
  match b.around with
  | [] => some b.current.body
  | _ :: _ => none

/-- Reads off a question mark that makes a quantifier modest. -/
def greedy (rest : List Char) : Bool × Nat :=
  match rest with
  | '?' :: _ => (false, 1)
  | _ => (true, 0)

def decimal (ds : List Char) : Nat := ds.foldl (fun n d => 10 * n + (d.toNat - '0'.toNat)) 0

def isOctal (c : Char) : Bool := '0' ≤ c && c ≤ '7'

def octal (ds : List Char) : Nat := ds.foldl (fun n d => 8 * n + (d.toNat - '0'.toNat)) 0

def hexValue? (c : Char) : Option Nat :=
  if c.isDigit then some (c.toNat - '0'.toNat)
  else if 'a' ≤ c && c ≤ 'f' then some (c.toNat - 'a'.toNat + 10)
  else if 'A' ≤ c && c ≤ 'F' then some (c.toNat - 'A'.toNat + 10)
  else none

def hexChar? (ds : List Char) : Option Char := do
  let n ← ds.foldlM (fun n d => (hexValue? d).map (16 * n + ·)) 0
  if n < 0xD800 || (0xE000 ≤ n && n < 0x110000) then some (Char.ofNat n) else none

end VerboseExpr.Regex
