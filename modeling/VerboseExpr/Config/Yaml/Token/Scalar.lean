import VerboseExpr.Config.Yaml.Cursor
import VerboseExpr.Text.Quoted

namespace VerboseExpr.Yaml

/-- The white space between two parts of a text. -/
structure Gap where
  /-- The blanks, as long as no line has ended. -/
  blanks : List Char := []
  broken : Bool := false
  /-- The first line break, unless a backslash hides it. -/
  first : List Char := []
  more : List Char := []
  deriving DecidableEq, Repr

namespace Gap

def push (gap : Gap) (b : List Char) : Gap :=
  if gap.broken then { gap with more := gap.more ++ b } else { broken := true, first := b }

/-- What the gap stands for: blanks as they are, a single line break as a blank, and of several line
breaks all but the first. -/
def text (gap : Gap) : List Char :=
  if !gap.broken then gap.blanks
  else if gap.first = ['\n'] then if gap.more.isEmpty then [' '] else gap.more
  else gap.first ++ gap.more

end Gap

namespace Scan

/-- Reads white space. Once a line has ended, a tab left of the column `indent` is an error. -/
def gap (indent : Nat) (g : Gap) : (fuel : Nat) → Scan Gap
  | 0 => failure
  | fuel + 1 => do
    let c ← peek 0
    if isBlank c then
      if g.broken && c = '\t' && (← get).column < indent then failure
      skip
      need 1
      gap indent (if g.broken then g else { g with blanks := g.blanks ++ [c] }) fuel
    else if isBreak c then
      let b ← takeLine
      need 1
      gap indent (g.push b) fuel
    else return g

/-- Does a plain text end before the character `c`, if `d` comes after it: at a colon before white
space, or in a flow collection at its punctuation? -/
def endsPlain (flow : Bool) (c d : Char) : Bool :=
  (c = ':' && isGap d) || (flow && ",?[]\x7b\x7d".toList.contains c)

def plainWord (flow : Bool) (read : List Char) : (fuel : Nat) → Scan (List Char)
  | 0 => failure
  | fuel + 1 => do
    let c ← peek 0
    if isGap c || endsPlain flow c (← peek 1) then return read.reverse
    else
      skip
      need 2
      plainWord flow (c :: read) fuel

/-- Reads a plain text after a gap; `read` is what has been read of it, backwards. Lines that continue
it have to be indented by `indent`. The second component says whether a line ended after the text. -/
def plain (flow : Bool) (indent : Nat) (g : Gap) (read : List Char) :
    (fuel : Nat) → Scan (List Char × Bool)
  | 0 => failure
  | fuel + 1 => do
    need 4
    let c ← get
    if c.atDocumentMark || c.peek 0 = '#' then return (read.reverse, g.broken)
    let word ← plainWord flow [] fuel
    let read := if word.isEmpty then read else word.reverse ++ g.text.reverse ++ read
    let g := if word.isEmpty then g else {}
    let c ← peek 0
    if isBlank c || isBreak c then
      need 1
      let g ← gap indent g fuel
      if !flow && (← get).column < indent then return (read.reverse, g.broken)
      plain flow indent g read fuel
    else return (read.reverse, g.broken)

def escaped? (c : Char) : Option Char :=
  match c with
  | '0' => some (Char.ofNat 0x00)
  | 'a' => some (Char.ofNat 0x07)
  | 'b' => some (Char.ofNat 0x08)
  | 't' | '\t' => some '\t'
  | 'n' => some '\n'
  | 'v' => some (Char.ofNat 0x0B)
  | 'f' => some (Char.ofNat 0x0C)
  | 'r' => some '\r'
  | 'e' => some (Char.ofNat 0x1B)
  | ' ' | '"' | '\'' | '\\' => some c
  | 'N' => some (Char.ofNat 0x85)
  | '_' => some (Char.ofNat 0xA0)
  | 'L' => some (Char.ofNat 0x2028)
  | 'P' => some (Char.ofNat 0x2029)
  | _ => none

/-- How many digits follow the letter of a numeric escape: none if it is no such letter. -/
def escapeWidth (c : Char) : Nat :=
  match c with
  | 'x' => 2
  | 'u' => 4
  | 'U' => 8
  | _ => 0

def hexValue? (c : Char) : Option Nat :=
  if c.toNat < 0x80 then Quoted.hexValue? c.toNat.toUInt8 else none

def hexNumber (value : Nat) : Nat → Scan Nat
  | 0 => return value
  | n + 1 => do
    let d ← hexValue? (← take)
    hexNumber (16 * value + d) n

def escape (d : Char) : Scan Char := do
  let width := escapeWidth d
  if width = 0 then
    let c ← escaped? d
    skips 2
    return c
  else
    skips 2
    need width
    let n ← hexNumber 0 width
    if Quoted.isScalar n then return Char.ofNat n else failure

/-- Reads a part of a text in quotes that has no white space in it; `read` is what has been read,
backwards. The second component says whether it ends with a line break that a backslash hides. -/
def quotedWord (quote : Char) (read : List Char) : (fuel : Nat) → Scan (List Char × Bool)
  | 0 => failure
  | fuel + 1 => do
    let c ← peek 0
    let d ← peek 1
    if isGap c then return (read, false)
    else if c = '\'' && quote = '\'' && d = '\'' then
      skips 2
      need 2
      quotedWord quote (c :: read) fuel
    else if c = quote then return (read, false)
    else if c = '\\' && quote = '"' then
      if isBreak d then
        need 3
        skip
        skipLine
        return (read, true)
      else
        let e ← escape d
        need 2
        quotedWord quote (e :: read) fuel
    else
      skip
      need 2
      quotedWord quote (c :: read) fuel

/-- Reads the text between quotes up to the closing quote and over it; `read` is what has been read,
backwards. -/
def quoted (quote : Char) (read : List Char) : (fuel : Nat) → Scan (List Char)
  | 0 => failure
  | fuel + 1 => do
    need 4
    let c ← get
    if c.atDocumentMark || c.peek 0 = endMark then failure
    let (read, hidden) ← quotedWord quote read fuel
    need 1
    if (← peek 0) = quote then
      skip
      return read.reverse
    else
      let g ← gap 0 { broken := hidden } fuel
      quoted quote (g.text.reverse ++ read) fuel

inductive Chomp where
  /-- One of them stays. -/
  | clip
  /-- None of them stays. -/
  | strip
  /-- All of them stay. -/
  | keep
  deriving DecidableEq, Repr

def chomp : Scan (Option Chomp) := do
  need 1
  match ← peek 0 with
  | '+' => do skip; return some .keep
  | '-' => do skip; return some .strip
  | _ => return none

/-- Reads the indentation of a block, which is never zero. -/
def blockWidth : Scan (Option Nat) := do
  need 1
  let c ← peek 0
  if !c.isDigit then return none
  if c = '0' then failure
  skip
  return some (c.toNat - '0'.toNat)

/-- Reads the first line of a block: its sign and its indentation (zero if it gives none) in any order,
and perhaps a comment. -/
def blockHeader : Scan (Chomp × Nat) := do
  let before ← chomp
  let width ← blockWidth
  let after ← if before.isNone && width.isSome then chomp else pure none
  skipWhile isBlank
  if (← peek 0) = '#' then
    lineComment
    skipWhile (!isLineEnd ·)
  if !isLineEnd (← peek 0) then failure
  if isBreak (← peek 0) then skipLine
  return ((before.or after).getD .clip, width.getD 0)

/-- Moves over blanks up to the column `indent`, or over all of them if it is zero. -/
def skipIndent (indent : Nat) : (fuel : Nat) → Scan Unit
  | 0 => failure
  | fuel + 1 => do
    let c ← get
    if (indent = 0 || c.column < indent) && c.peek 0 = ' ' then
      skip
      need 1
      skipIndent indent fuel

/-- Moves over the indentation of a block and empty lines. Gives the line breaks and the largest column
that the indentation reached. -/
def blockIndentation (indent : Nat) (breaks : List Char) (widest : Nat) :
    (fuel : Nat) → Scan (List Char × Nat)
  | 0 => failure
  | fuel + 1 => do
    need 1
    skipIndent indent fuel
    let c ← get
    if (indent = 0 || c.column < indent) && c.peek 0 = '\t' then failure
    if isBreak (c.peek 0) then
      let b ← takeLine
      blockIndentation indent (breaks ++ b) (max widest c.column) fuel
    else return (breaks, max widest c.column)

/-- Reads the lines of a block: `ending` is the break of the line before, if there is one, `breaks` are
the empty lines since, `wasBlank` says whether the line before began with a blank, and `read` is what
has been read, backwards. Gives the text, the last line break and the empty lines after it. -/
def blockLines (folded : Bool) (indent : Nat) (ending breaks : List Char) (wasBlank : Bool)
    (read : List Char) : (fuel : Nat) → Scan (List Char × List Char × List Char)
  | 0 => failure
  | fuel + 1 => do
    let c ← get
    if c.column ≠ indent || c.peek 0 = endMark then return (read.reverse, ending, breaks)
    else
      let blank := isBlank (c.peek 0)
      let joined :=
        if folded && !wasBlank && !blank && ending = ['\n'] then
          if breaks.isEmpty then [' '] else []
        else ending
      let line ← takeWhile (!isLineEnd ·)
      let ending ← takeLine
      let (more, _) ← blockIndentation indent [] 0 fuel
      blockLines folded indent ending more blank
        (line.reverse ++ breaks.reverse ++ joined.reverse ++ read) fuel

/-- Reads a block after its sign. `indent` is the first column inside the block around it. -/
def block (folded : Bool) (indent : Nat) (fuel : Nat) : Scan (List Char) := do
  let (chomp, given) ← blockHeader
  let known := if given = 0 then 0 else indent - 1 + given
  let (breaks, widest) ← blockIndentation known [] 0 fuel
  let column := if known = 0 then max (max widest indent) 1 else known
  need 1
  let (text, ending, empty) ← blockLines folded column [] breaks false [] fuel
  return text ++ (if chomp = .strip then [] else ending) ++ if chomp = .keep then empty else []

end Scan

end VerboseExpr.Yaml
