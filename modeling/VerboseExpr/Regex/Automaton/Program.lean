import VerboseExpr.Regex.Basic

namespace VerboseExpr.Regex.Automaton

def copies (r : Regex) : Nat → List Regex
  | 0 => []
  | n + 1 => r :: copies r n

/-- A loop over the expression. Repeating nothing is nothing, and a loop over the same loop is that
loop. -/
def loop (min : Nat) (max : Option Nat) (greedy : Bool) (r : Regex) : Regex :=
  match r with
  | .empty => .empty
  | .rep min' max' greedy' _ =>
    if min = min' ∧ max = max' ∧ greedy = greedy' then r else .rep min max greedy r
  | _ => .rep min max greedy r

/-- Between zero and `n` repetitions, each one only after the one before it. -/
def upTo (greedy : Bool) (r : Regex) : Nat → Regex
  | 0 => .empty
  | 1 => loop 0 (some 1) greedy r
  | n + 1 => loop 0 (some 1) greedy (.cat r (upTo greedy r n))

/-- The repetition written out with the loops `?`, `*` and `+` only. -/
def unroll (min : Nat) (max : Option Nat) (greedy : Bool) (r : Regex) : Regex :=
  match max with
  | some 0 => .empty
  | none =>
    if min ≤ 1 then loop min none greedy r
    else concat (copies r (min - 1) ++ [loop 1 none greedy r])
  | some m =>
    if min = m then concat (copies r min)
    else concat (copies r min ++ [upTo greedy r (m - min)])

/-- The regular expression without captures and with plain loops only. -/
def simplify : Regex → Regex
  | .group n body => .group n (simplify body)
  | .cat r s => .cat (simplify r) (simplify s)
  | .alt r s => .alt (simplify r) (simplify s)
  | .rep min max greedy body => unroll min max greedy (simplify body)
  | r => r

/-- Can it match the empty text without further ado? -/
def nullable : Regex → Bool
  | .empty | .anchor _ => true
  | .group _ body => nullable body
  | .cat r s => nullable r && nullable s
  | .alt r s => nullable r || nullable s
  | .rep min _ _ body => min = 0 || nullable body
  | .char _ | .set _ | .reference _ => false

inductive Inst where
  | accept
  | one (s : CharSet) (next : Nat)
  | test (a : Anchor) (next : Nat)
  /-- Goes on at `first`, and if that leads nowhere at `second`. -/
  | split (first second : Nat)
  | fail
  deriving DecidableEq, Repr

/-- A list of instructions, named by their places. -/
abbrev Program := Array Inst

def branch (greedy : Bool) (enter leave : Nat) : Inst :=
  if greedy then .split enter leave else .split leave enter

/-- Adds the instructions of a simplified regular expression that goes on at `next`. Gives the place
where it begins. A loop over something that may be empty is entered through a branch of its own, so
that the empty repetition is tried in its turn. -/
def assemble (r : Regex) (next : Nat) (p : Program) : Nat × Program :=
  match r with
  | .empty => (next, p)
  | .char c => (p.size, p.push (.one (.single c) next))
  | .set s => (p.size, p.push (.one s next))
  | .anchor a => (p.size, p.push (.test a next))
  | .reference _ => (p.size, p.push .fail)
  | .group _ body => assemble body next p
  | .cat r s =>
    let (entry, p) := assemble s next p
    assemble r entry p
  | .alt r s =>
    let (first, p) := assemble r next p
    let (second, p) := assemble s next p
    (p.size, p.push (.split first second))
  | .rep min max greedy body =>
    match max with
    | some _ =>
      let (entry, p) := assemble body next p
      (p.size, p.push (branch greedy entry next))
    | none =>
      let again := p.size
      let (entry, p) := assemble body again (p.push .fail)
      let p := p.setIfInBounds again (branch greedy entry next)
      if min = 0 then
        if nullable body then (p.size, p.push (branch greedy entry next)) else (again, p)
      else (entry, p)

def automaton (r : Regex) : Nat × Program := assemble (simplify r) 0 #[.accept]

end VerboseExpr.Regex.Automaton
