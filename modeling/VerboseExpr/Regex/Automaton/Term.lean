import VerboseExpr.Regex.Basic
import VerboseExpr.Unicode.Fold

/-!
Regular expressions in the form in which the automaton engine builds them up: concatenations and
alternatives have any number of members and are never members of their own kind, a run of plain
characters is one text, and a set of a single character is a text. The height and the size of a term
decide whether a pattern is accepted.
-/

namespace VerboseExpr.Regex.Automaton

/-- Ranges of characters, both ends included. -/
abbrev CodeRanges := List (Nat × Nat)

namespace CodeRanges

def greatest : Nat := 0x10FFFF

/-- Joins a range with those after it that overlap or touch it. They come in order. -/
def fuse (lo hi : Nat) : CodeRanges → CodeRanges
  | [] => [(lo, hi)]
  | (lo', hi') :: rest =>
    if lo' ≤ hi + 1 then fuse lo (max hi hi') rest else (lo, hi) :: fuse lo' hi' rest

/-- The same characters in ascending ranges with gaps between them. -/
def normal (rs : CodeRanges) : CodeRanges :=
  match rs.mergeSort fun a b => a.1 ≤ b.1 with
  | [] => []
  | (lo, hi) :: rest => fuse lo hi rest

/-- All characters from `lo` on that are outside some ascending ranges. -/
def outside (lo : Nat) : CodeRanges → CodeRanges
  | [] => if lo ≤ greatest then [(lo, greatest)] else []
  | (a, b) :: rest => if lo < a then (lo, a - 1) :: outside (b + 1) rest else outside (b + 1) rest

def contains (rs : CodeRanges) (n : Nat) : Bool := rs.any fun (lo, hi) => lo ≤ n && n ≤ hi

def ofItems (negated : Bool) (items : List (Char × Char)) : CodeRanges :=
  let rs := normal (items.map fun (lo, hi) => (lo.toNat, hi.toNat))
  if negated then outside 0 rs else rs

end CodeRanges

/-- The outermost layer of a term. -/
inductive Form where
  | empty
  /-- Some characters in a row, in either case if it is folded. -/
  | text (folded : Bool) (chars : Array Nat)
  | oneOf (ranges : CodeRanges)
  | allButLineFeed
  | anything
  | place (a : Anchor)
  | group
  | loop (min : Nat) (max : Option Nat) (greedy : Bool)
  | concat
  | alternate
  /-- A bracket that has not been closed. -/
  | opened (capturing : Bool)
  | bar
  deriving DecidableEq, Repr

namespace Form

/-- Does it only mark a place among the terms, without being one? -/
def isMark : Form → Bool
  | opened _ | bar => true
  | _ => false

def ofSet : CharSet → Form
  | .ranges negated items =>
    if negated && items == [('\n', '\n')] then allButLineFeed
    else oneOf (CodeRanges.ofItems negated items)
  | .without _ _ => anything

/-- The numbers that are stored for its characters: two for a range. -/
def codes : Form → Nat
  | text _ chars => chars.size
  | oneOf rs => 2 * rs.length
  | _ => 0

/-- The single character that a set of characters denotes, and whether its case does not matter. -/
def char? : Form → Option (Nat × Bool)
  | oneOf [(lo, hi)] =>
    if lo = hi then some (lo, false)
    else if lo + 1 = hi && Unicode.isCasePair lo hi then some (lo, true)
    else none
  | oneOf [(a, a'), (b, b')] =>
    if a = a' && b = b' && Unicode.isCasePair a b then some (a, true) else none
  | _ => none

def isOneChar : Form → Bool
  | text _ chars => chars.size == 1
  | oneOf _ | allButLineFeed | anything => true
  | _ => false

def ranges : Form → CodeRanges
  | text folded chars =>
    chars.toList.flatMap fun n =>
      (n, n) :: if folded then (Unicode.otherCase? n).toList.map fun m => (m, m) else []
  | oneOf rs => rs
  | allButLineFeed => [(0, 9), (11, CodeRanges.greatest)]
  | anything => [(0, CodeRanges.greatest)]
  | _ => []

def rank : Form → Nat
  | text _ _ => 0
  | oneOf _ => 1
  | allButLineFeed => 2
  | _ => 3

/-- The characters of both forms, of which the first is at least as general. -/
def union (f g : Form) : Form :=
  match f with
  | allButLineFeed => if CodeRanges.contains g.ranges 0x0A then anything else f
  | anything => f
  | _ => if f = g then f else oneOf (CodeRanges.normal (f.ranges ++ g.ranges))

def tidy : Form → Form
  | oneOf rs =>
    if rs = [(0, CodeRanges.greatest)] then anything
    else if rs = [(0, 9), (11, CodeRanges.greatest)] then allButLineFeed
    else oneOf rs
  | f => f

/-- The number of instructions, if the `count` members have `total` of them. Counted repetitions are
written out. -/
def size (f : Form) (total count : Nat) : Nat :=
  max 1 <| match f with
    | text _ chars => chars.size
    | group => 2 + total
    | loop min none _ => if min = 0 then 2 + total else 1 + min * total
    | loop min (some max) _ => max * total + (max - min)
    | concat => total
    | alternate => total + (count - 1)
    | _ => 1

end Form

inductive Term where
  /-- `height` is the number of levels, and `recorded` the size as far as it has been noted. A term
  that changes keeps the size that was noted for it. -/
  | node (form : Form) (height : Nat) (recorded : Option Nat) (members : List Term)

namespace Term

def form : Term → Form
  | node f _ _ _ => f

def height : Term → Nat
  | node _ h _ _ => h

def recorded : Term → Option Nat
  | node _ _ r _ => r

def members : Term → List Term
  | node _ _ _ ms => ms

def make (f : Form) (recorded : Option Nat) (ms : List Term) : Term :=
  node f (ms.foldl (fun h t => max h (t.height + 1)) 1) recorded ms

def withMembers (t : Term) (ms : List Term) : Term := make t.form t.recorded ms

def become (t : Term) (f : Form) : Term := make f t.recorded []

mutual

/-- The size that has been noted. If none has, the size is worked out and noted. -/
def measure : Term → Nat × Term
  | node f h (some n) ms => (n, node f h (some n) ms)
  | node f h none ms =>
    let (total, ms') := measureAll ms
    let n := f.size total ms'.length
    (n, node f h (some n) ms')

def measureAll : List Term → Nat × List Term
  | [] => (0, [])
  | t :: ts =>
    let (n, t') := measure t
    let (total, ts') := measureAll ts
    (n + total, t' :: ts')

end

/-- The size worked out anew, from the sizes of the members. -/
def remeasure : Term → Nat × Term
  | node f h _ ms => measure (node f h none ms)

/-- The characters with which the term begins, and whether they are folded. -/
def leadingText (t : Term) : Bool × List Nat :=
  let lead := match t.form, t.members with
    | .concat, first :: _ => first.form
    | f, _ => f
  match lead with
  | .text folded chars => (folded, chars.toList)
  | _ => (false, [])

/-- The set of characters with which the term begins, or a fixed number of repetitions of one. The
number is missing if it is not repeated. -/
def leadingSet? (t : Term) : Option (Form × Option (Nat × Bool)) :=
  let lead := match t.form, t.members with
    | .concat, first :: _ => first
    | _, _ => t
  let plain (f : Form) : Form := match f with
    | .text _ chars => .text false chars
    | _ => f
  match lead.form, lead.members with
  | .loop min max greedy, [body] =>
    if max = some min ∧ body.form.isOneChar then some (plain body.form, some (min, greedy)) else none
  | f, _ => if f.isOneChar then some (plain f, none) else none

end Term

end VerboseExpr.Regex.Automaton
