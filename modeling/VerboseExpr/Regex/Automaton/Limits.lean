import VerboseExpr.Regex.Automaton.Construction
import VerboseExpr.Regex.Automaton.Syntax

namespace VerboseExpr.Regex.Automaton

/-- Do the counts of nested repetitions multiply to at most `budget`? What is repeated zero times
does not count. -/
def countsWithin (budget : Nat) : Regex → Bool
  | .rep min max _ body =>
    if max = some 0 then true
    else
      let m := max.getD min
      if budget < m then false
      else countsWithin (if m = 0 then budget else budget / m) body
  | .group _ body => countsWithin budget body
  | .cat r s => countsWithin budget r && countsWithin budget s
  | .alt r s => countsWithin budget r && countsWithin budget s
  | _ => true

/-- Do the counts of nested repetitions stay within the limit wherever one begins? -/
def countsAllowed : Regex → Bool
  | .rep min max greedy body =>
    countsWithin maxCount (.rep min max greedy body) && countsAllowed body
  | .group _ body => countsAllowed body
  | .cat r s => countsAllowed r && countsAllowed s
  | .alt r s => countsAllowed r && countsAllowed s
  | _ => true

def read? (pattern : Bytes) : Option Regex := do
  let ls ← patternLexemes? pattern
  let r ← ofLexemes? ls
  if countsAllowed r && withinLimits ls then return r else none

end VerboseExpr.Regex.Automaton
