import VerboseExpr.Config.Yaml.Source

namespace VerboseExpr.Yaml

structure Cursor where
  source : Source
  line : Nat := 0
  column : Nat := 0
  index : Nat := 0
  /-- How many lines have ended since the last character that is no blank. -/
  linesSince : Nat := 0
  /-- The size of the document, which bounds every walk through it. -/
  size : Nat

namespace Cursor

def ofBytes (data : Bytes) : Cursor := { source := Source.ofBytes data, size := data.length + 8 }

def peek (c : Cursor) (k : Nat) : Char := c.source.peek k

def skip (c : Cursor) : Cursor :=
  { c with
    source := c.source.drop 1
    column := c.column + 1
    index := c.index + 1
    linesSince := if isBlank (c.peek 0) then c.linesSince else 0 }

def breakWidth (c : Cursor) : Nat :=
  if c.peek 0 = '\r' && c.peek 1 = '\n' then 2 else if isBreak (c.peek 0) then 1 else 0

def skipLine (c : Cursor) : Cursor :=
  if c.breakWidth = 0 then c
  else
    { c with
      source := c.source.drop c.breakWidth
      line := c.line + 1
      column := 0
      index := c.index + c.breakWidth
      linesSince := c.linesSince + 1 }

/-- Does a line begin here with three characters of a kind that stand alone? -/
def atMark (c : Cursor) (m : Char) : Bool :=
  c.column = 0 && c.peek 0 = m && c.peek 1 = m && c.peek 2 = m && isGap (c.peek 3)

def atDocumentMark (c : Cursor) : Bool := c.atMark '-' || c.atMark '.'

end Cursor

/-- An action that moves through a document and may find it malformed. -/
abbrev Scan := StateT Cursor Option

namespace Scan

/-- Sees to it that the next `n` characters can be looked at. -/
def need (n : Nat) : Scan Unit := do
  let c ← get
  let source ← c.source.need? n
  set { c with source := source }

def peek (k : Nat) : Scan Char := do return (← get).peek k

def skip : Scan Unit := modify Cursor.skip

def skips : Nat → Scan Unit
  | 0 => pure ()
  | n + 1 => do skip; skips n

def take : Scan Char := do
  let c ← peek 0
  skip
  return c

def skipLine : Scan Unit := do
  need 2
  modify Cursor.skipLine

/-- Moves over a line break and gives it: a line feed unless it is a separator of Unicode. -/
def takeLine : Scan (List Char) := do
  need 2
  let c ← peek 0
  let width := (← get).breakWidth
  modify Cursor.skipLine
  return if width = 0 then [] else if c.toNat = 0x2028 || c.toNat = 0x2029 then [c] else ['\n']

def takeWhile (p : Char → Bool) : Scan (List Char) := do
  need 1
  go (← get).size
where
  go : Nat → Scan (List Char)
    | 0 => failure
    | fuel + 1 => do
      if p (← peek 0) then
        let c ← take
        need 1
        return c :: (← go fuel)
      else return []

def skipWhile (p : Char → Bool) : Scan Unit := do
  need 1
  go (← get).size
where
  go : Nat → Scan Unit
    | 0 => failure
    | fuel + 1 => do
      if p (← peek 0) then
        skip
        need 1
        go fuel

/-- Moves over a comment up to the end of its line. The comment begins `k` characters ahead, and lines
may end before it. -/
def skipComment (k : Nat) : Scan Unit := do
  let c ← get
  go (c.index + k) c.size
where
  go (start : Nat) : Nat → Scan Unit
    | 0 => failure
    | fuel + 1 => do
      need 1
      let c ← get
      if isLineEnd (c.peek 0) then
        if c.index < start then
          skipLine
          go start fuel
      else
        skip
        go start fuel

/-- How far ahead there is a look for a comment. -/
def commentReach : Nat := 512

/-- Moves over a comment that stands on the line on which something has just ended, behind nothing but
blanks. -/
def lineComment : Scan Unit := do
  if (← get).linesSince = 0 then go commentReach 0
where
  go : Nat → Nat → Scan Unit
    | 0, _ => pure ()
    | fuel + 1, k => do
      need (k + 1)
      let c ← peek k
      if isBlank c then go fuel (k + 1)
      else if c = '#' then skipComment k

/-- Moves over the comment that begins here and over those that follow it, each on a line of its own
behind nothing but blanks. The look ahead ends at a line break that is neither a carriage return nor a
line feed. -/
def comments : Scan Unit := do go (← get).size commentReach 0
where
  /-- The look ahead from the `k`-th character on, `reach` characters at most, for so many comments. -/
  go (comments : Nat) : Nat → Nat → Scan Unit
    | 0, _ => pure ()
    | reach + 1, k => do
      need (k + 1)
      let c ← peek k
      if isBlank c || c = '\n' || c = '\r' then go comments reach (k + 1)
      else if isBreak c then lastLook reach (k + 1)
      else if c = '#' then
        skipComment k
        match comments with
        | 0 => failure
        | more + 1 =>
          let c ← peek 0
          if isBreak c && c ≠ '\n' && c ≠ '\r' then lastLook (commentReach - 1) 1
          else go more (commentReach - 1) 1
  termination_by reach _ => (comments, reach)
  /-- The look at a character behind which there is none. -/
  lastLook : Nat → Nat → Scan Unit
    | 0, _ => pure ()
    | _ + 1, k => need (k + 1)

end Scan

end VerboseExpr.Yaml
