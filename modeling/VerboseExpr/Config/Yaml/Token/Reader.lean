import VerboseExpr.Config.Yaml.Token.Tag

/-!
Reading the tokens of a YAML document. A text is known to be a key only when a colon follows it, so
the reader keeps the place of a token that may turn out to begin a key, and puts the tokens that open
a mapping and announce a key in front of it later. Tokens wait in a queue until they are taken, and no
more of the document is read than is needed to fill it.
-/

namespace VerboseExpr.Yaml

/-- The latest token at one depth of flow collections that might begin a key. -/
structure KeyPlace where
  possible : Bool := false
  /-- Does nothing but a key fit here? -/
  required : Bool := false
  /-- How many tokens of the document stand before it. -/
  number : Nat
  line : Nat
  column : Nat
  index : Nat
  deriving DecidableEq, Repr

namespace KeyPlace

/-- The longest text that can be a key. -/
def maxLength : Nat := 1024

def reaches (k : KeyPlace) (c : Cursor) : Bool :=
  k.possible && c.line ≤ k.line && c.index ≤ k.index + maxLength

end KeyPlace

structure Reading where
  cursor : Cursor
  queue : List Token := []
  taken : Nat := 0
  /-- The columns of the blocks that are open, the innermost first. -/
  blocks : List Nat := []
  /-- What may be a key at the current depth of flow collections. -/
  candidate : KeyPlace
  /-- What may be a key in the flow collections around, the innermost first, down to the block. -/
  outer : List KeyPlace := []
  /-- The depths at which tokens have been noted as possible keys, by their numbers. -/
  noted : List (Nat × Nat) := []
  keyAllowed : Bool := true

abbrev ReadM := StateT Reading Option

namespace Reading

def ofBytes (data : Bytes) : Reading :=
  { cursor := Cursor.ofBytes data, candidate := { number := 0, line := 0, column := 0, index := 0 } }

def inFlow (r : Reading) : Bool := !r.outer.isEmpty

def depth (r : Reading) : Nat := r.outer.length

/-- The first column inside the innermost block. -/
def indent (r : Reading) : Nat :=
  match r.blocks with
  | [] => 0
  | column :: _ => column + 1

def nextNumber (r : Reading) : Nat := r.taken + r.queue.length

def push (r : Reading) (t : Token) : Reading := { r with queue := r.queue ++ [t] }

/-- Puts a token before the one with the given number, or at the end if that one has been taken. -/
def insert (r : Reading) (number : Nat) (t : Token) : Reading :=
  if number < r.taken then r.push t
  else
    let position := number - r.taken
    { r with queue := r.queue.take position ++ t :: r.queue.drop position }

def maxDepth : Nat := 10000

/-- Opens a block at a column, unless one is open there. The token that opens it stands before the one
with the given number. -/
def openBlock (r : Reading) (column number : Nat) (t : Token) : Option Reading :=
  if r.inFlow || column < r.indent then some r
  else if maxDepth ≤ r.blocks.length then none
  else some ({ r with blocks := column :: r.blocks }.insert number t)

def closeBlocks (r : Reading) (isClosed : Nat → Bool) : Reading :=
  if r.inFlow then r
  else
    let closed := r.blocks.takeWhile isClosed
    { r with
      queue := r.queue ++ List.replicate closed.length .blockEnd
      blocks := r.blocks.drop closed.length }

def unnote (r : Reading) (number : Nat) : List (Nat × Nat) := r.noted.filter (·.1 ≠ number)

/-- Gives up the candidate for a key. This fails if nothing but a key would fit there. -/
def dropCandidate (r : Reading) : Option Reading :=
  if !r.candidate.possible then some r
  else if r.candidate.required then none
  else
    some { r with
      candidate := { r.candidate with possible := false }
      noted := r.unnote r.candidate.number }

def noteCandidate (r : Reading) : Option Reading :=
  if !r.keyAllowed then some r
  else do
    let required := !r.inFlow && r.cursor.column + 1 = r.indent
    let number := r.nextNumber
    let r ← r.dropCandidate
    some { r with
      candidate :=
        ⟨true, required, number, r.cursor.line, r.cursor.column, r.cursor.index⟩
      noted := (number, r.depth) :: r.unnote number }

def candidateAt (r : Reading) (depth : Nat) : Option KeyPlace :=
  (r.candidate :: r.outer)[r.depth - depth]?

def setCandidateAt (r : Reading) (depth : Nat) (k : KeyPlace) : Reading :=
  if r.depth = depth then { r with candidate := k }
  else { r with outer := r.outer.set (r.depth - depth - 1) k }

/-- Decides whether a candidate can still be a key. One that cannot is given up, which fails if
nothing but a key would fit there. -/
def checkCandidate (r : Reading) (depth : Nat) : Option (Bool × Reading) := do
  let k ← r.candidateAt depth
  if k.reaches r.cursor then some (true, r)
  else if k.possible && k.required then none
  else some (false, r.setCandidateAt depth { k with possible := false })

end Reading

namespace ReadM

open Reading

def scan {α : Type} (x : Scan α) : ReadM α := fun r =>
  (x r.cursor).map fun (a, c) => (a, { r with cursor := c })

def update (f : Reading → Option Reading) : ReadM Unit := fun r => (f r).map ((), ·)

def push (t : Token) : ReadM Unit := modify (·.push t)

def allowKey (b : Bool) : ReadM Unit := modify ({ · with keyAllowed := b })

/-- Moves to the next token. Where a key may begin, a tab is no white space. Whenever a line begins
while the portion of the document that is being read begins with the mark of the byte order, one
character is left out. -/
def skipSpace : (fuel : Nat) → ReadM Unit
  | 0 => failure
  | fuel + 1 => do
    scan (Scan.need 1)
    let r ← get
    if r.cursor.column = 0 && r.cursor.source.front = byteOrderMark then scan Scan.skip
    scan (Scan.skipWhile fun c => c = ' ' || (c = '\t' && (r.inFlow || !r.keyAllowed)))
    if (← get).cursor.peek 0 = '#' then scan Scan.comments
    if isBreak ((← get).cursor.peek 0) then
      scan Scan.skipLine
      if !r.inFlow then allowKey true
      skipSpace fuel

/-- Leaves the document: the blocks end, and nothing before can be a key. -/
def leaveDocument : ReadM Unit := do
  update fun r => (r.closeBlocks fun _ => true).dropCandidate
  allowKey false

def streamEnd : ReadM Unit := do
  modify fun r =>
    if r.cursor.column = 0 then r
    else { r with cursor := { r.cursor with column := 0, line := r.cursor.line + 1 } }
  leaveDocument
  push .streamEnd

def directive : ReadM Unit := do
  leaveDocument
  push (.directive (← scan Scan.directive))

def documentMark (t : Token) : ReadM Unit := do
  leaveDocument
  scan (Scan.skips 3)
  push t

def openFlow (t : Token) : ReadM Unit := do
  update noteCandidate
  update fun r =>
    if maxDepth ≤ r.depth then none
    else
      some { r with
        outer := r.candidate :: r.outer
        candidate :=
          { number := r.nextNumber, line := r.cursor.line, column := r.cursor.column
            index := r.cursor.index } }
  allowKey true
  scan Scan.skip
  push t

def closeFlow (t : Token) : ReadM Unit := do
  update dropCandidate
  modify fun r =>
    match r.outer with
    | [] => r
    | k :: rest =>
      { r with candidate := k, outer := rest, noted := r.unnote r.candidate.number }
  allowKey false
  scan Scan.skip
  push t

def flowEntry : ReadM Unit := do
  update dropCandidate
  allowKey true
  scan Scan.skip
  push .flowEntry

/-- Reads a sign that begins an entry of a block: a dash or a question mark. -/
def entry (opening t : Token) (keyAllowed : Bool) : ReadM Unit := do
  let r ← get
  if !r.inFlow && !r.keyAllowed then failure
  update fun r => r.openBlock r.cursor.column r.nextNumber opening
  update dropCandidate
  allowKey keyAllowed
  scan Scan.skip
  push t

/-- Reads a colon. If the candidate for a key can be one, it is the key. -/
def value : ReadM Unit := do
  let depth := (← get).depth
  let isKey ← fun r => r.checkCandidate depth
  if isKey then
    let k := (← get).candidate
    modify (·.insert k.number .key)
    update (·.openBlock k.column k.number .blockMappingStart)
    modify fun r =>
      { r with candidate := { r.candidate with possible := false }, noted := r.unnote k.number }
    allowKey false
  else
    let r ← get
    if !r.inFlow && !r.keyAllowed then failure
    update fun r => r.openBlock r.cursor.column r.nextNumber .blockMappingStart
    allowKey (!r.inFlow)
  scan Scan.skip
  push .value

def content (token : Scan Token) : ReadM Unit := do
  update noteCandidate
  allowKey false
  push (← scan token)

def quoted (quote : Char) : ReadM Unit := content do
  Scan.skip
  return .scalar (← Scan.quoted quote [] (← get).size) false

def block (folded : Bool) : ReadM Unit := do
  update dropCandidate
  allowKey true
  let r ← get
  let text ← scan do
    Scan.skip
    Scan.block folded r.indent r.cursor.size
  push (.scalar text false)

/-- Reads a plain text. A key may begin after it if the line ends there. -/
def plain : ReadM Unit := do
  update noteCandidate
  allowKey false
  let r ← get
  let (text, broke) ← scan (Scan.plain r.inFlow r.indent {} [] r.cursor.size)
  if broke then allowKey true
  push (.scalar text true)

def contentToken (c d : Char) : ReadM Unit := do
  let flow := (← get).inFlow
  match c with
  | '[' => openFlow .flowSequenceStart
  | '\x7b' => openFlow .flowMappingStart
  | ']' => closeFlow .flowSequenceEnd
  | '\x7d' => closeFlow .flowMappingEnd
  | ',' => flowEntry
  | '-' => if isGap d then entry .blockSequenceStart .blockEntry true else plain
  | '?' => if flow || isGap d then entry .blockMappingStart .key (!flow) else plain
  | ':' => if flow || isGap d then value else plain
  | '*' => content (do return .aliasOf (← Scan.anchorName))
  | '&' => content (do return .anchor (← Scan.anchorName))
  | '!' => content Scan.tag
  | '\'' => quoted '\''
  | '"' => quoted '"'
  | '|' => if flow then failure else block false
  | '>' => if flow then failure else block true
  | _ => if isGap c || "#%@\x60".toList.contains c then failure else plain

/-- Reads the next token. Behind the end of the text the token for it comes again and again. -/
def next : ReadM Unit := do
  scan (Scan.need 1)
  skipSpace (← get).cursor.size
  modify fun r => r.closeBlocks (r.cursor.column < ·)
  scan (Scan.need 4)
  let c := (← get).cursor
  if c.peek 0 = endMark then streamEnd
  else if c.column = 0 && c.peek 0 = '%' then directive
  else if c.atMark '-' then documentMark .documentStart
  else if c.atMark '.' then documentMark .documentEnd
  else
    contentToken (c.peek 0) (c.peek 1)
    if (← get).queue.getLast? ≠ some .blockEntry then scan Scan.lineComment

/-- Is there enough in the queue to take its first token? Two tokens have to follow it, and it must not
be a possible key. -/
def ready : ReadM Bool := fun r =>
  if !Source.hasLength 3 r.queue then some (false, r)
  else
    match r.noted.lookup r.taken with
    | none => some (true, r)
    | some depth => (r.checkCandidate depth).map fun (valid, r) => (!valid, r)

def fillQueue : (fuel : Nat) → ReadM Unit
  | 0 => failure
  | fuel + 1 => do
    if !(← ready) then
      next
      fillQueue fuel

def peek : ReadM Token := do
  fillQueue ((← get).cursor.size + 4)
  (← get).queue.head?

def take : ReadM Token := do
  let t ← peek
  modify fun r => { r with queue := r.queue.drop 1, taken := r.taken + 1 }
  return t

def advance : ReadM Token := do
  let _ ← take
  peek

end ReadM

def Reading.start (data : Bytes) : Option Reading := do
  let (_, r) ← (ReadM.scan (Scan.need 1)) (Reading.ofBytes data)
  some (r.push .streamStart)

end VerboseExpr.Yaml
