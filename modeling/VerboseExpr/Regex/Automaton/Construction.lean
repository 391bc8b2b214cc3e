import VerboseExpr.Regex.Automaton.Term
import VerboseExpr.Regex.Lexeme

/-!
How the automaton engine builds up the term of a pattern, lexeme by lexeme, and gives up when a term
becomes too high or too large. Terms wait on a stack; a bracket or a bar on it marks where the
alternative that is being read begins. Alternatives that begin alike are factored, so that the term is
not that of the pattern as it is written.

Sizes are noted only once the number of terms and the counts of the repetitions make it possible that a
term is too large. A term that is given up leaves its place, and the size noted there, to a new one.
-/

namespace VerboseExpr.Regex.Automaton

def maxHeight : Nat := 1000

def maxSize : Nat := 3355443

/-- The greatest number of codes in all texts and sets. -/
def maxCodes : Nat := 33554432

structure Construction where
  stack : List Term := []
  /-- The sizes noted in the places that have been given up, the last one first. -/
  spare : List (Option Nat) := []
  places : Nat := 0
  /-- The product of all counts so far, or the greatest size if it is larger. -/
  counts : Nat := 1
  /-- Are sizes noted? -/
  measuring : Bool := false
  codes : Nat := 0

/-- A step of a construction, which may exceed a limit. -/
abbrev Construct := StateT Construction Option

namespace Construct

/-- A new term. It takes the place that was given up last, if there is one. -/
def fresh (f : Form) (ms : List Term) : Construct Term := do
  let c ← get
  match c.spare with
  | r :: spare =>
    modify fun c => { c with spare := spare }
    return Term.make f r ms
  | [] =>
    modify fun c => { c with places := c.places + 1 }
    return Term.make f none ms

def giveUp (t : Term) : Construct Unit := modify fun c => { c with spare := t.recorded :: c.spare }

/-- Notes the size of a term anew, which must not be too large. -/
def note (t : Term) : Construct Term := do
  let (n, t) := t.remeasure
  if n > maxSize then failure
  return t

def multiply (counts : Nat) : Form → Nat
  | .loop min max _ =>
    let n := Nat.max 1 (max.getD min)
    if n > maxSize / counts then maxSize else counts * n
  | _ => counts

/-- Notes the size of a term, if it could be too large by now. With the first one, the sizes of all
terms on the stack are noted. -/
def checkSize (t : Term) : Construct Term := do
  let c ← get
  if c.measuring then note t
  else
    let counts := multiply c.counts t.form
    modify fun c => { c with counts := counts }
    if c.places < maxSize / counts then return t
    let stack ← c.stack.reverse.mapM note
    modify fun c => { c with stack := stack.reverse, measuring := true }
    note t

def check (t : Term) : Construct Term := do
  if (← get).codes > maxCodes then failure
  let t ← checkSize t
  if t.height > maxHeight then failure
  return t

/-- Joins the two texts on top of the stack, if both are texts of one kind. If there is a character,
it becomes a text of its own in the place that is free then, and the answer is that this was done. -/
def joinTexts (char? : Option (Nat × Bool)) : Construct Bool := do
  let c ← get
  match c.stack with
  | top :: below :: rest =>
    match top.form, below.form with
    | .text folded cs, .text folded' cs' =>
      if folded ≠ folded' then return false
      let joined := below.become (.text folded' (cs' ++ cs))
      match char? with
      | some (n, f) =>
        modify fun c => { c with stack := top.become (.text f #[n]) :: joined :: rest }
        return true
      | none =>
        modify fun c => { c with stack := joined :: rest }
        giveUp top
        return false
    | _, _ => return false
  | _ => return false

/-- Puts a term on the stack. The texts below it can be joined now, since no quantifier can follow
them any more. -/
def push (t : Term) : Construct Unit := do
  modify fun c => { c with codes := c.codes + t.form.codes }
  match t.form.char? with
  | some (n, folded) =>
    if !(← joinTexts (some (n, folded))) then
      let t ← check (t.become (.text folded #[n]))
      modify fun c => { c with stack := t :: c.stack }
  | none =>
    let _ ← joinTexts none
    let t ← check t
    modify fun c => { c with stack := t :: c.stack }

/-- Takes the terms down to the last mark off the stack, in order. -/
def takeTerms : Construct (List Term) := do
  let c ← get
  modify fun c => { c with stack := c.stack.dropWhile fun t => !t.form.isMark }
  return (c.stack.takeWhile fun t => !t.form.isMark).reverse

/-- The terms with those of the given form replaced by their members. -/
def hoist (f : Form) : List Term → Construct (List Term)
  | [] => return []
  | t :: ts => do
    if t.form = f then
      giveUp t
      return t.members ++ (← hoist f ts)
    else return t :: (← hoist f ts)

def concatenation : List Term → Construct Term
  | [t] => return t
  | ts => do
    let whole ← fresh .concat []
    return whole.withMembers (← hoist .concat ts)

def dropText (n : Nat) (t : Term) : Construct Term := do
  let drop (t : Term) : Term := match t.form with
    | .text folded cs =>
      if cs.size ≤ n then t.become .empty else t.become (.text folded (cs.extract n cs.size))
    | _ => t
  match t.form, t.members with
  | .concat, first :: rest =>
    let first := drop first
    if first.form = .empty then
      giveUp first
      match rest with
      | [last] =>
        giveUp t
        return last
      | _ => return t.withMembers rest
    else return t.withMembers (first :: rest)
  | _, _ => return drop t

/-- Removes the first member of a concatenation; nothing remains of another term. The place of what is
removed is given up if it `isSpare`. -/
def dropLead (isSpare : Bool) (t : Term) : Construct Term := do
  match t.form, t.members with
  | .concat, first :: rest =>
    if isSpare then giveUp first
    match rest with
    | [last] =>
      giveUp t
      return last
    | _ => return t.withMembers rest
  | _, _ =>
    if isSpare then giveUp t
    fresh .empty []

structure TextRun where
  folded : Bool
  common : List Nat
  terms : List Term

def commonPart : List Nat → List Nat → List Nat
  | a :: as, b :: bs => if a = b then a :: commonPart as bs else []
  | _, _ => []

/-- Divides terms into runs that begin with a common text. `run` is the one that is being read, with
its terms last first. -/
def textRuns (run : TextRun) : List Term → List TextRun
  | [] => [{ run with terms := run.terms.reverse }]
  | t :: ts =>
    let (folded, cs) := t.leadingText
    let common := commonPart run.common cs
    if folded = run.folded ∧ common ≠ [] then
      textRuns { run with common := common, terms := t :: run.terms } ts
    else { run with terms := run.terms.reverse } :: textRuns ⟨folded, cs, [t]⟩ ts

def runsBy (related : Term → Term → Bool) : List Term → List (List Term)
  | [] => []
  | t :: ts =>
    match runsBy related ts with
    | (u :: run) :: more =>
      if related t u then (t :: u :: run) :: more else [t] :: (u :: run) :: more
    | _ => [[t]]

def sameLead (t u : Term) : Bool := t.leadingSet?.isSome && t.leadingSet? == u.leadingSet?

/-- The first of the most general terms, and all other terms; the first term is in its place then. -/
def mostGeneral (first : Term) (rest : List Term) : Term × List Term :=
  let less (t u : Term) : Bool :=
    t.form.rank < u.form.rank || (t.form.rank == u.form.rank && t.form.codes < u.form.codes)
  let best := rest.foldl (fun best t => if less best t then t else best) first
  match rest.findIdx? fun t => less first t && !less t best && !less best t with
  | some i => (best, rest.set i first)
  | none => (first, rest)

/-- The one set of characters that some terms of one character make up. -/
def unite : List Term → Construct (List Term)
  | [] => return []
  | [t] => return [t]
  | t :: ts => do
    let (best, others) := mostGeneral t ts
    let best := others.foldl (fun t u => t.become (t.form.union u.form)) best
    others.forM giveUp
    return [best.become best.form.tidy]

/-- Keeps only the last of some empty terms in a row. -/
def dropEmpty : List Term → List Term
  | t :: u :: rest =>
    if t.form = .empty ∧ u.form = .empty then dropEmpty (u :: rest) else t :: dropEmpty (u :: rest)
  | ts => ts

mutual

/-- The alternatives with what neighbours have in common at their beginnings taken out: first texts,
then sets of characters. After that neighbours of one character become one set. `fuel` bounds how
often the rest of factored alternatives is factored in turn. -/
def factor (fuel : Nat) (ts : List Term) : Construct (List Term) := do
  match fuel with
  | 0 => return ts
  | fuel + 1 =>
    match ts with
    | [] | [_] => return ts
    | t :: rest =>
      let (folded, cs) := t.leadingText
      let ts ← (textRuns ⟨folded, cs, [t]⟩ rest).mapM (factorText fuel)
      let ts ← (runsBy sameLead ts).mapM (factorLead fuel)
      let ts ← (runsBy (fun t u => t.form.isOneChar && u.form.isOneChar) ts).mapM unite
      return dropEmpty ts.flatten
termination_by (fuel, 1)

def factorText (fuel : Nat) (run : TextRun) : Construct Term := do
  match run.terms with
  | [t] => return t
  | ts =>
    let lead ← fresh (.text run.folded run.common.toArray) []
    let ts ← ts.mapM fun t => do check (← dropText run.common.length t)
    let choice ← alternation fuel ts
    fresh .concat [lead, choice]
termination_by (fuel, 3)

def factorLead (fuel : Nat) (run : List Term) : Construct Term := do
  match run with
  | [] => fresh .empty []
  | [t] => return t
  | t :: ts =>
    let lead := match t.form, t.members with
      | .concat, first :: _ => first
      | _, _ => t
    let t ← check (← dropLead false t)
    let ts ← ts.mapM fun t => do check (← dropLead true t)
    let choice ← alternation fuel (t :: ts)
    fresh .concat [lead, choice]
termination_by (fuel, 3)

def alternation (fuel : Nat) (ts : List Term) : Construct Term := do
  match ts with
  | [t] => return t
  | _ =>
    let whole ← fresh .alternate []
    match ← factor fuel (← hoist .alternate ts) with
    | [t] =>
      giveUp whole
      return t
    | ts => return whole.withMembers ts
termination_by (fuel, 2)

end

def concatTop : Construct Unit := do
  let _ ← joinTexts none
  match ← takeTerms with
  | [] => push (← fresh .empty [])
  | ts => push (← concatenation ts)

/-- Moves an alternative on top of the stack below the bar under it, if there is one. Two neighbours
of one character become one set. -/
def swapBar : Construct Bool := do
  let c ← get
  match c.stack with
  | top :: bar :: below =>
    if bar.form ≠ .bar then return false
    match below with
    | third :: rest =>
      if top.form.isOneChar && third.form.isOneChar then
        let (kept, merged) := if top.form.rank > third.form.rank then (top, third) else (third, top)
        modify fun c => { c with stack := bar :: kept.become (kept.form.union merged.form) :: rest }
        giveUp merged
      else
        let third := if third.form.isOneChar then third.become third.form.tidy else third
        modify fun c => { c with stack := bar :: top :: third :: rest }
    | [] => modify fun c => { c with stack := [bar, top] }
    return true
  | _ => return false

def alternateTop (fuel : Nat) : Construct Unit := do
  concatTop
  if ← swapBar then modify fun c => { c with stack := c.stack.drop 1 }
  let ts ← takeTerms
  let ts := match ts.getLast? with
    | some t => if t.form.isOneChar then ts.dropLast ++ [t.become t.form.tidy] else ts
    | none => ts
  push (← alternation fuel ts)

def step (fuel : Nat) : Lexeme → Construct Unit
  | .atom (.char c) => do push (← fresh (.text false #[c.toNat]) [])
  | .atom (.set s) => do push (← fresh (.ofSet s) [])
  | .atom (.anchor a) => do push (← fresh (.place a) [])
  | .atom _ => do push (← fresh .empty [])
  | .openGroup capturing => do push (← fresh (.opened capturing) [])
  | .bar => do
    concatTop
    if !(← swapBar) then push (← fresh .bar [])
  | .closeGroup => do
    alternateTop fuel
    let c ← get
    match c.stack with
    | body :: bracket :: rest =>
      modify fun c => { c with stack := rest }
      match bracket.form with
      | .opened true => push (Term.make .group bracket.recorded [body])
      | _ => push body
    | _ => failure
  | .quantifier min max greedy => do
    match (← get).stack with
    | body :: _ =>
      let t ← fresh (.loop min max greedy) [body]
      modify fun c => { c with stack := t :: c.stack.drop 1 }
      let t ← check t
      modify fun c => { c with stack := t :: c.stack.drop 1 }
    | [] => failure

def readAll (ls : List Lexeme) : Construct Unit := do
  ls.forM (step ls.length)
  alternateTop ls.length

end Construct

/-- Does every term that comes up while the lexemes are read keep the limits? -/
def withinLimits (ls : List Lexeme) : Bool := ((Construct.readAll ls).run {}).isSome

end VerboseExpr.Regex.Automaton
