import VerboseExpr.Config.Toml.Number
import VerboseExpr.Config.Toml.Text
import VerboseExpr.Unicode.Letter

namespace VerboseExpr.Toml

def isKeyChar (c : Char) : Bool := c.isAlphanum || c = '-' || c = '_'

def keyPart? (cs : List Char) : Option (List Char × List Char) :=
  match cs.dropWhile isBlank with
  | '"' :: rest => basic? rest
  | '\'' :: rest => literal? rest
  | cs =>
    let name := cs.takeWhile isKeyChar
    if name.isEmpty then none else some (name, cs.drop name.length)

/-- A key, and what follows it and the blanks after it. The fuel bounds the number of its parts. -/
def key? (cs : List Char) : (fuel : Nat) → Option (Key × List Char)
  | 0 => none
  | fuel + 1 => do
    let (name, rest) ← keyPart? cs
    match rest.dropWhile isBlank with
    | '.' :: more =>
      let (names, rest) ← key? more fuel
      some (name :: names, rest)
    | rest => some ([name], rest)

def skipLines (comment : Bool) : List Char → List Char
  | [] => []
  | c :: rest =>
    if isBreak c then skipLines false rest
    else if comment || isBlank c then skipLines comment rest
    else if c = '#' then skipLines true rest
    else c :: rest

def bool? (cs : List Char) : Option (Value × List Char) :=
  let word := cs.takeWhile Unicode.isLetter
  let rest := cs.drop word.length
  if word = "true".toList then some (.bool true, rest)
  else if word = "false".toList then some (.bool false, rest)
  else none

mutual

def value? (cs : List Char) : (fuel : Nat) → Option (Value × List Char)
  | 0 => none
  | fuel + 1 =>
    match cs.dropWhile isBlank with
    | '[' :: rest => do
      let (items, rest) ← items? rest fuel
      some (.array items, rest)
    | '\x7b' :: rest => do
      let (entries, rest) ← entries? true rest fuel
      some (.inlineTable entries, rest)
    | c :: rest =>
      if c = '"' || c = '\'' then (text? (c :: rest)).map fun (t, r) => (.text t, r)
      else (bool? (c :: rest)).or (numberOrTime? (c :: rest))
    | [] => none

/-- The items of an array up to its closing bracket. A comma may follow the last one. -/
def items? (cs : List Char) : (fuel : Nat) → Option (List Value × List Char)
  | 0 => none
  | fuel + 1 =>
    match skipLines false cs with
    | ']' :: rest => some ([], rest)
    | cs => do
      let (v, rest) ← value? cs fuel
      match skipLines false rest with
      | ',' :: rest =>
        let (items, rest) ← items? rest fuel
        some (v :: items, rest)
      | ']' :: rest => some ([v], rest)
      | _ => none

/-- The entries of an inline table up to its closing brace. They stand on one line, and no comma
follows the last one. -/
def entries? (first : Bool) (cs : List Char) : (fuel : Nat) → Option (List (Key × Value) × List Char)
  | 0 => none
  | fuel + 1 =>
    match first, cs.dropWhile isBlank with
    | true, '\x7d' :: rest => some ([], rest)
    | _, cs => do
      let (key, rest) ← key? cs cs.length
      let '=' :: rest := rest | none
      let (v, rest) ← value? rest fuel
      match rest.dropWhile isBlank with
      | ',' :: rest =>
        let (entries, rest) ← entries? false rest fuel
        some ((key, v) :: entries, rest)
      | '\x7d' :: rest => some ([(key, v)], rest)
      | _ => none

end

/-- Nothing but a comment may stand on the rest of a line. -/
def lineEnd? (cs : List Char) : Option (List Char) :=
  match cs.dropWhile isBlank with
  | [] => some []
  | c :: rest => if c = '#' || isBreak c then some (c :: rest) else none

def statement? (cs : List Char) : Option (Statement × List Char) := do
  let (s, rest) ←
    match cs with
    | '[' :: '[' :: rest => do
      let (key, rest) ← key? rest rest.length
      let ']' :: ']' :: rest := rest | none
      some (Statement.arrayTable key, rest)
    | '[' :: rest => do
      let (key, rest) ← key? rest rest.length
      let ']' :: rest := rest | none
      some (Statement.table key, rest)
    | _ => do
      let (key, rest) ← key? cs cs.length
      let '=' :: rest := rest | none
      let (v, rest) ← value? rest (2 * rest.length + 2)
      some (Statement.assignment key v, rest)
  let rest ← lineEnd? rest
  some (s, rest)

/-- The statements of a document. The fuel bounds their number. -/
def statements? (cs : List Char) : (fuel : Nat) → Option (List Statement)
  | 0 => none
  | fuel + 1 =>
    match skipLines false cs with
    | [] => some []
    | c :: rest => do
      let (s, rest) ← statement? (c :: rest)
      let more ← statements? rest fuel
      some (s :: more)

end VerboseExpr.Toml
