import VerboseExpr.Regex.Lexeme
import VerboseExpr.Text.Utf8

/-!
The patterns of the backtracking engine. A backslash with digits refers to a group if there are that
many groups in the whole pattern; otherwise it is an octal escape or an escaped digit. A closing
bracket always closes a class, even at its start, and a class may subtract another.

Readers take the characters after the one that announces the item and give the item with the number of
further characters it takes.
-/

namespace VerboseExpr.Regex.Backtracking

/-- The largest number that a pattern may hold. As a limit of repetitions it means none. -/
def maxNumber : Nat := 2147483647

/-- The octal digits of an escape: at most three, and no further one once the number has reached 32. -/
def octalDigits (cs : List Char) : List Char :=
  let ds := (cs.take 3).takeWhile isOctal
  if 0x20 ≤ octal (ds.take 2) then ds.take 2 else ds

/-- An escaped character after its backslash. A character without a meaning of its own stands for
itself. -/
def escape? (cs : List Char) : Option (Char × Nat) :=
  match cs with
  | [] => none
  | c :: rest =>
    if isOctal c then
      let ds := octalDigits cs
      some (Char.ofNat (octal ds % 0x100), ds.length)
    else
      match c with
      | 'a' => some ('\x07', 1)
      | 'b' => some ('\x08', 1)
      | 'e' => some ('\x1b', 1)
      | 'f' => some ('\x0c', 1)
      | 'n' => some ('\n', 1)
      | 'r' => some ('\r', 1)
      | 't' => some ('\t', 1)
      | 'v' => some ('\x0b', 1)
      | 'x' => if (rest.take 2).length = 2 then (hexChar? (rest.take 2)).map (·, 3) else none
      | 'u' => if (rest.take 4).length = 4 then (hexChar? (rest.take 4)).map (·, 5) else none
      | 'c' => none
      | _ => some (c, 1)

def blanks : List (Char × Char) :=
  [(0x09, 0x0D), (0x20, 0x20), (0xA0, 0xA0), (0x1680, 0x1680), (0x2000, 0x200A), (0x2028, 0x2029),
    (0x202F, 0x202F), (0x205F, 0x205F), (0x3000, 0x3000), (0xFEFF, 0xFEFF)].map
    fun (lo, hi) => (Char.ofNat lo, Char.ofNat hi)

def letterClass? (c : Char) : Option (List (Char × Char)) :=
  match c with
  | 'd' => some CharSet.digits
  | 'D' => some (CharSet.complement CharSet.digits)
  | 's' => some blanks
  | 'S' => some (CharSet.complement blanks)
  | 'w' => some CharSet.wordChars
  | 'W' => some (CharSet.complement CharSet.wordChars)
  | _ => none

/-- The length of a class name with its colons, such as `:alpha:]`. -/
def skippedName? (rest : List Char) : Option Nat :=
  match rest with
  | ':' :: more =>
    let sign := if more.length > 1 && more.head? = some '^' then 1 else 0
    let name := (more.drop sign).takeWhile isWordChar
    match more.drop (sign + name.length) with
    | ':' :: ']' :: _ => some (sign + name.length + 3)
    | _ => none
  | _ => none

def negation (cs : List Char) : Nat := if cs.head? = some '^' then 1 else 0

structure ClassBody where
  items : List (Char × Char)
  removed : Option CharSet
  /-- The number of characters read, the closing bracket included. -/
  used : Nat
  deriving DecidableEq, Repr

def ClassBody.after (b : ClassBody) (items : List (Char × Char)) (n : Nat) : ClassBody :=
  { b with items := items ++ b.items, used := n + b.used }

def ClassBody.toSet (b : ClassBody) (negated : Bool) : CharSet :=
  match b.removed with
  | none => .ranges negated b.items
  | some s => .without (.ranges negated b.items) s

/-- The items of a class up to its closing bracket. `pending` is the start of a range whose end is
still to come. An escaped hyphen is always an item of its own, even there. -/
def classBody? (first : Bool) (pending : Option Char) : List Char → Option ClassBody
  | [] => none
  | c :: rest =>
    if c = ']' then some ⟨[], none, 1⟩
    else
      let escaped := c = '\\' && !rest.isEmpty
      if escaped && rest.head? = some '-' then
        (classBody? false pending (rest.drop 1)).map (·.after [('-', '-')] 2)
      else
        match if escaped then rest.head?.bind letterClass? else none with
        | some items =>
          if pending.isSome then none
          else (classBody? false none (rest.drop 1)).map (·.after items 2)
        | none => do
          let (d, n) ← if escaped then escape? rest
            else if c = '[' && pending.isNone then some (c, (skippedName? rest).getD 0)
            else some (c, 0)
          let more := rest.drop n
          match pending with
          | some lo =>
            if c = '[' && !first then
              let neg := negation more
              let inner ← classBody? true none (more.drop neg)
              let used := neg + inner.used
              if (more.drop used).head? ≠ some ']' then none
              some ⟨[(lo, lo)], some (inner.toSet (neg == 1)), 1 + n + used + 1⟩
            else if d.toNat < lo.toNat then none
            else (classBody? false none more).map (·.after [(lo, d)] (1 + n))
          | none =>
            if more.head? = some '-' && (more.drop 1).head?.any (· != ']') then
              (classBody? false (some d) (more.drop 1)).map (·.after [] (2 + n))
            else if c = '-' && !first && more.head? = some '[' then
              let neg := negation (more.drop 1)
              let inner ← classBody? true none (more.drop (1 + neg))
              let used := 1 + neg + inner.used
              if (more.drop used).head? ≠ some ']' then none
              some ⟨[], some (inner.toSet (neg == 1)), 1 + n + used + 1⟩
            else (classBody? false none more).map (·.after [(d, d)] (1 + n))
termination_by cs => cs.length
decreasing_by
  all_goals
    simp only [List.length_cons, List.length_drop]
    omega

def class? (rest : List Char) : Option (CharSet × Nat) :=
  let neg := negation rest
  (classBody? true none (rest.drop neg)).map fun b => (b.toSet (neg == 1), neg + b.used)

def digits (cs : List Char) : List Char := cs.takeWhile Char.isDigit

def count? (cs : List Char) : Option (Nat × Option Nat × Nat) :=
  let min := digits cs
  let rest := cs.drop min.length
  if min.isEmpty then none
  else
    match rest with
    | '\x7d' :: _ => some (decimal min, some (decimal min), min.length + 1)
    | ',' :: more =>
      let max := digits more
      match more.drop max.length with
      | '\x7d' :: _ =>
        let limit := if max.isEmpty then none else some (decimal max)
        some (decimal min, limit, min.length + max.length + 2)
      | _ => none
    | _ => none

def countAllowed (min : Nat) (max : Option Nat) : Bool :=
  min ≤ maxNumber && max.all fun m => m ≤ maxNumber && min ≤ m

/-- A quantifier with its question mark, if it has one. The largest number is no limit. -/
def quantifier (min : Nat) (max : Option Nat) (n : Nat) (rest : List Char) : Lexeme × Nat :=
  let (isGreedy, m) := greedy (rest.drop n)
  (.quantifier min (max.filter (· < maxNumber)) isGreedy, n + m)

def backslash? (groups : Nat) (rest : List Char) : Option (Lexeme × Nat) :=
  match rest with
  | 'A' :: _ => some (.atom (.anchor .textStart), 1)
  | 'z' :: _ => some (.atom (.anchor .textEnd), 1)
  | 'b' :: _ => some (.atom (.anchor .wordBoundary), 1)
  | 'B' :: _ => some (.atom (.anchor .noWordBoundary), 1)
  | d :: _ =>
    match letterClass? d with
    | some items => some (.atom (.set (.ranges false items)), 1)
    | none =>
      let ds := digits rest
      let n := decimal ds
      if d.isDigit && d ≠ '0' && maxNumber < n then none
      else if d.isDigit && d ≠ '0' && n ≤ groups then some (.atom (.reference n), ds.length)
      else (escape? rest).map fun (c, n) => (.atom (.char c), n)
  | [] => none

def lexeme? (groups : Nat) (c : Char) (rest : List Char) : Option (Lexeme × Nat) :=
  match c with
  | '(' =>
    match rest with
    | '?' :: ':' :: _ => some (.openGroup false, 2)
    | '?' :: _ => none
    | _ => some (.openGroup true, 0)
  | ')' => some (.closeGroup, 0)
  | '|' => some (.bar, 0)
  | '^' => some (.atom (.anchor .textStart), 0)
  | '$' => some (.atom (.anchor .textEnd), 0)
  | '.' => some (.atom (.set (.allBut ['\n', '\r'])), 0)
  | '[' => (class? rest).map fun (s, n) => (.atom (.set s), n)
  | '*' => some (quantifier 0 none 0 rest)
  | '+' => some (quantifier 1 none 0 rest)
  | '?' => some (quantifier 0 (some 1) 0 rest)
  | '\x7b' =>
    match count? rest with
    | some (min, max, n) =>
      if countAllowed min max then some (quantifier min max n rest) else none
    | none => some (.atom (.char c), 0)
  | '\\' => backslash? groups rest
  | _ => some (.atom (.char c), 0)

def lexemes? (groups : Nat) : List Char → Option (List Lexeme)
  | [] => some []
  | c :: rest => do
    let (l, n) ← lexeme? groups c rest
    let ls ← lexemes? groups (rest.drop n)
    return l :: ls
termination_by cs => cs.length
decreasing_by simp only [List.length_cons, List.length_drop]; omega

def groupCount (ls : List Lexeme) : Nat := ls.countP (· = .openGroup true)

/-- The regular expression that a pattern denotes. Which groups there are does not depend on how
backslashes with digits are read, so the groups are counted in a first reading. -/
def read? (pattern : Bytes) : Option Regex := do
  let cs := Utf8.decode pattern
  let first ← lexemes? 0 cs
  let ls ← lexemes? (groupCount first) cs
  ofLexemes? ls

end VerboseExpr.Regex.Backtracking
