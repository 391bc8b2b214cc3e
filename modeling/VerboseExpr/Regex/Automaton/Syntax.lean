import VerboseExpr.Regex.Lexeme
import VerboseExpr.Text.Utf8

/-!
The patterns of the automaton engine. It knows no back references: a backslash with digits is an octal
escape if it can be one and an error otherwise. A brace that does not begin a count in canonical
decimal form is an ordinary character.

Readers take the characters after the one that announces the item and give the item with the number of
further characters it takes.
-/

namespace VerboseExpr.Regex.Automaton

def escape? (cs : List Char) : Option (Char × Nat) :=
  match cs with
  | [] => none
  | c :: rest =>
    let octals := (cs.take 3).takeWhile isOctal
    if c = '0' || (isOctal c && 2 ≤ octals.length) then
      some (Char.ofNat (octal octals), octals.length)
    else
      match c with
      | 'a' => some ('\x07', 1)
      | 'f' => some ('\x0c', 1)
      | 'n' => some ('\n', 1)
      | 'r' => some ('\r', 1)
      | 't' => some ('\t', 1)
      | 'v' => some ('\x0b', 1)
      | 'x' =>
        if rest.head? = some '\x7b' then
          let ds := (rest.drop 1).takeWhile fun d => (hexValue? d).isSome
          if ds.isEmpty || (rest.drop (ds.length + 1)).head? ≠ some '\x7d' then none
          else (hexChar? ds).map (·, ds.length + 3)
        else if (rest.take 2).length = 2 then (hexChar? (rest.take 2)).map (·, 3)
        else none
      | _ => if c.toNat < 0x80 && !c.isAlphanum then some (c, 1) else none

def blanks : List (Char × Char) := [('\t', '\n'), ('\x0c', '\r'), (' ', ' ')]

def letterClass? (c : Char) : Option (List (Char × Char)) :=
  match c with
  | 'd' => some CharSet.digits
  | 'D' => some (CharSet.complement CharSet.digits)
  | 's' => some blanks
  | 'S' => some (CharSet.complement blanks)
  | 'w' => some CharSet.wordChars
  | 'W' => some (CharSet.complement CharSet.wordChars)
  | _ => none

def namedRanges? (name : String) : Option (List (Char × Char)) :=
  match name with
  | "alnum" => some [('0', '9'), ('A', 'Z'), ('a', 'z')]
  | "alpha" => some [('A', 'Z'), ('a', 'z')]
  | "ascii" => some [('\x00', '\x7f')]
  | "blank" => some [('\t', '\t'), (' ', ' ')]
  | "cntrl" => some [('\x00', '\x1f'), ('\x7f', '\x7f')]
  | "digit" => some CharSet.digits
  | "graph" => some [('!', '~')]
  | "lower" => some [('a', 'z')]
  | "print" => some [(' ', '~')]
  | "punct" => some [('!', '/'), (':', '@'), ('[', '\x60'), ('\x7b', '~')]
  | "space" => some [('\t', '\r'), (' ', ' ')]
  | "upper" => some [('A', 'Z')]
  | "word" => some CharSet.wordChars
  | "xdigit" => some [('0', '9'), ('A', 'F'), ('a', 'f')]
  | _ => none

/-- The ranges of a named class; a circumflex before the name gives all other characters. -/
def namedClass? (name : List Char) : Option (List (Char × Char)) :=
  match name with
  | '^' :: base => (namedRanges? (String.ofList base)).map CharSet.complement
  | _ => namedRanges? (String.ofList name)

/-- The characters before the first `:]`, if there is one. -/
def nameBefore? : List Char → Option (List Char)
  | ':' :: ']' :: _ => some []
  | c :: rest => (nameBefore? rest).map (c :: ·)
  | [] => none

def classChar? (c : Char) (rest : List Char) : Option (Char × Nat) :=
  if c = '\\' then escape? rest else some (c, 0)

/-- A character of a class or a range of two. A hyphen before the closing bracket is a character. -/
def classRange? (c : Char) (rest : List Char) : Option (List (Char × Char) × Nat) := do
  let (lo, n) ← classChar? c rest
  match rest.drop n with
  | '-' :: d :: more =>
    if d = ']' then return ([(lo, lo)], n)
    let (hi, m) ← classChar? d more
    if hi.toNat < lo.toNat then none
    return ([(lo, hi)], n + 2 + m)
  | _ => return ([(lo, lo)], n)

def classItem? (c : Char) (rest : List Char) : Option (List (Char × Char) × Nat) :=
  match c, rest with
  | '[', ':' :: more@(_ :: _) =>
    match nameBefore? more with
    | some name => (namedClass? name).map (·, name.length + 3)
    | none => classRange? c rest
  | '\\', d :: _ =>
    match letterClass? d with
    | some items => some (items, 1)
    | none => classRange? c rest
  | _, _ => classRange? c rest

/-- The items of a class up to its closing bracket, and the number of characters with the bracket. A
bracket that comes first does not close. -/
def classItems? (first : Bool) : List Char → Option (List (Char × Char) × Nat)
  | [] => none
  | c :: rest =>
    if c = ']' && !first then some ([], 1)
    else do
      let (item, n) ← classItem? c rest
      let (items, m) ← classItems? false (rest.drop n)
      return (item ++ items, n + 1 + m)
termination_by cs => cs.length
decreasing_by simp only [List.length_cons, List.length_drop]; omega

/-- A class after its opening bracket. A circumflex in front gives all other characters. -/
def class? (rest : List Char) : Option (CharSet × Nat) :=
  match rest with
  | '^' :: body => (classItems? true body).map fun (items, n) => (.ranges true items, n + 1)
  | _ => (classItems? true rest).map fun (items, n) => (.ranges false items, n)

/-- A number of a count: digits without a leading zero. -/
def number? (cs : List Char) : Option (Nat × Nat) :=
  match cs.takeWhile Char.isDigit with
  | [] => none
  | '0' :: _ :: _ => none
  | ds => some (decimal ds, ds.length)

/-- A count after its opening brace: the least and the greatest number of repetitions. -/
def count? (cs : List Char) : Option (Nat × Option Nat × Nat) := do
  let (min, n) ← number? cs
  match cs.drop n with
  | '\x7d' :: _ => return (min, some min, n + 1)
  | ',' :: '\x7d' :: _ => return (min, none, n + 2)
  | ',' :: more =>
    let (max, m) ← number? more
    match more.drop m with
    | '\x7d' :: _ => return (min, some max, n + m + 2)
    | _ => none
  | _ => none

def maxCount : Nat := 1000

def countAllowed (min : Nat) (max : Option Nat) : Bool :=
  min ≤ maxCount && max.all fun m => m ≤ maxCount && min ≤ m

/-- A quantifier with its question mark, if it has one. -/
def quantifier (min : Nat) (max : Option Nat) (n : Nat) (rest : List Char) : Lexeme × Nat :=
  let (isGreedy, m) := greedy (rest.drop n)
  (.quantifier min max isGreedy, n + m)

def backslash? (rest : List Char) : Option (Lexeme × Nat) :=
  match rest with
  | 'A' :: _ => some (.atom (.anchor .textStart), 1)
  | 'z' :: _ => some (.atom (.anchor .textEnd), 1)
  | 'b' :: _ => some (.atom (.anchor .wordBoundary), 1)
  | 'B' :: _ => some (.atom (.anchor .noWordBoundary), 1)
  | d :: _ =>
    match letterClass? d with
    | some items => some (.atom (.set (.ranges false items)), 1)
    | none => (escape? rest).map fun (c, n) => (.atom (.char c), n)
  | [] => none

def lexeme? (c : Char) (rest : List Char) : Option (Lexeme × Nat) :=
  match c with
  | '(' =>
    match rest with
    | '?' :: ':' :: _ => some (.openGroup false, 2)
    | '?' :: _ => none
    | _ => some (.openGroup true, 0)
  | ')' => some (.closeGroup, 0)
  | '|' => some (.bar, 0)
  | '^' => some (.atom (.anchor .textStart), 0)
  | '$' => some (.atom (.anchor .textEnd), 0)
  | '.' => some (.atom (.set (.allBut ['\n'])), 0)
  | '[' => (class? rest).map fun (s, n) => (.atom (.set s), n)
  | '*' => some (quantifier 0 none 0 rest)
  | '+' => some (quantifier 1 none 0 rest)
  | '?' => some (quantifier 0 (some 1) 0 rest)
  | '\x7b' =>
    match count? rest with
    | some (min, max, n) =>
      if countAllowed min max then some (quantifier min max n rest) else none
    | none => some (.atom (.char c), 0)
  | '\\' => backslash? rest
  | _ => some (.atom (.char c), 0)

def lexemes? : List Char → Option (List Lexeme)
  | [] => some []
  | c :: rest => do
    let (l, n) ← lexeme? c rest
    let ls ← lexemes? (rest.drop n)
    return l :: ls
termination_by cs => cs.length
decreasing_by simp only [List.length_cons, List.length_drop]; omega

def patternLexemes? (pattern : Bytes) : Option (List Lexeme) :=
  if Utf8.isValid pattern then lexemes? (Utf8.decode pattern) else none

/-- The regular expression that a pattern denotes as it is written, limits aside. -/
def parse? (pattern : Bytes) : Option Regex := patternLexemes? pattern >>= ofLexemes?

end VerboseExpr.Regex.Automaton
