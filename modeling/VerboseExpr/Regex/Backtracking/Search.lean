import VerboseExpr.Regex.Backtracking.Syntax

/-!
Searching a subject by trying every way to match in order of preference. What groups have matched is
kept along the way, also from one repetition to the next. A group that has matched nothing yet counts
as empty when it is referred to.
-/

namespace VerboseExpr.Regex.Backtracking

/-- What groups have matched: the number of the group, where the match begins and where it ends, the
latest first. -/
abbrev Captures := List (Nat × Nat × Nat)

/-- What follows a match: it is given the place reached and the captures, and gives the end of the
whole match if there is one. -/
abbrev Continuation := Nat → Captures → Option Nat

abbrev Step := Nat → Captures → Continuation → Option Nat

def orElse (a : Option Nat) (b : Unit → Option Nat) : Option Nat :=
  match a with
  | some e => some e
  | none => b ()

/-- Repeats a step. `done` repetitions have been made and the last began at `mark`. Once the least
number is reached, a repetition that matched nothing is the last. Each further repetition uses up
fuel; every one above the least number moves on in the subject. -/
def iterate (step : Step) (min : Nat) (max : Option Nat) (greedy : Bool) (k : Continuation)
    (fuel done mark pos : Nat) (caps : Captures) : Option Nat :=
  match fuel with
  | 0 => none
  | fuel + 1 =>
    if max.any (· ≤ done) then k pos caps
    else if min ≤ done ∧ 0 < done ∧ pos = mark then k pos caps
    else if done < min then
      step pos caps fun q cs => iterate step min max greedy k fuel (done + 1) pos q cs
    else if greedy then
      orElse (step pos caps fun q cs => iterate step min max greedy k fuel (done + 1) pos q cs)
        fun _ => k pos caps
    else
      orElse (k pos caps)
        fun _ => step pos caps fun q cs => iterate step min max greedy k fuel (done + 1) pos q cs

/-- Matches the characters of the subject from `a` to `b` once more at `pos`. -/
def repeatsAt (subject : Array Char) (a b pos : Nat) : Bool :=
  pos + (b - a) ≤ subject.size &&
    (List.range (b - a)).all fun i => subject[a + i]? == subject[pos + i]?

/-- Matches a regular expression from a place on, and then what follows. A repetition that is asked
for the largest number of times never matches. -/
def run (subject : Array Char) : Regex → Step
  | .empty, pos, caps, k => k pos caps
  | .char c, pos, caps, k => if subject[pos]? = some c then k (pos + 1) caps else none
  | .set s, pos, caps, k => if subject[pos]?.any s.contains then k (pos + 1) caps else none
  | .anchor a, pos, caps, k => if a.holds subject pos then k pos caps else none
  | .group n body, pos, caps, k => run subject body pos caps fun q cs => k q ((n, pos, q) :: cs)
  | .reference n, pos, caps, k =>
    match caps.lookup n with
    | none => k pos caps
    | some (a, b) => if repeatsAt subject a b pos then k (pos + (b - a)) caps else none
  | .cat r s, pos, caps, k => run subject r pos caps fun q cs => run subject s q cs k
  | .alt r s, pos, caps, k =>
    orElse (run subject r pos caps k) fun _ => run subject s pos caps k
  | .rep min max greedy body, pos, caps, k =>
    if maxNumber ≤ min then none
    else
      iterate (fun p cs k => run subject body p cs k) min max greedy k
        (min + (subject.size - pos) + 2) 0 pos pos caps

def find? (r : Regex) (subject : Array Char) : Option (Nat × Nat) :=
  (List.range (subject.size + 1)).findSome? fun i =>
    (run subject r i [] fun e _ => some e).map (i, ·)

end VerboseExpr.Regex.Backtracking
