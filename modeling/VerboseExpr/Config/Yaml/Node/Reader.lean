import VerboseExpr.Config.Yaml.Node.Basic
import VerboseExpr.Config.Yaml.Token.Reader

namespace VerboseExpr.Yaml

structure Building where
  reading : Reading
  handles : List (Bytes × Bytes) := []
  /-- The numbers of the nodes with names, the last first. -/
  anchors : List (List Char × Nat) := []
  /-- The nodes with names that are finished, by their numbers. -/
  named : List (Nat × Node) := []
  names : Nat := 0
  aliases : Nat := 0

abbrev BuildM := StateT Building Option

structure Properties where
  anchor : Option (List Char) := none
  tag : Option (Bytes × Bytes) := none

namespace BuildM

def read {α : Type} (x : ReadM α) : BuildM α := fun b =>
  (x b.reading).map fun (a, r) => (a, { b with reading := r })

def peek : BuildM Token := read ReadM.peek

def take : BuildM Token := read ReadM.take

def advance : BuildM Token := read ReadM.advance

/-- Reads at most one name and one tag, in any order. -/
def properties : BuildM Properties := do
  match ← peek with
  | .anchor a =>
    match ← advance with
    | .tag h s => do let _ ← take; return ⟨some a, some (h, s)⟩
    | _ => return ⟨some a, none⟩
  | .tag h s =>
    match ← advance with
    | .anchor a => do let _ ← take; return ⟨some a, some (h, s)⟩
    | _ => return ⟨none, some (h, s)⟩
  | _ => return {}

/-- The tag that a handle and a suffix write: nothing for a lone exclamation mark. Fails if the handle
is not declared. -/
def resolveTag (tag : Option (Bytes × Bytes)) : BuildM (Option Tag) := do
  match tag with
  | none => return none
  | some (handle, suffix) =>
    let name ←
      if handle.isEmpty then pure suffix
      else do
        let expansion ← (← get).handles.lookup handle
        pure (expansion ++ suffix)
    return if name = Bytes.ofString "!" then none else some (Tag.ofName name)

/-- Gives a node that begins its name. Gives the number of the node. -/
def beginNamed (anchor : Option (List Char)) : BuildM (Option Nat) := do
  match anchor with
  | none => return none
  | some a =>
    let b ← get
    set { b with anchors := (a, b.names) :: b.anchors, names := b.names + 1 }
    return some b.names

def endNamed (number : Option Nat) (n : Node) : BuildM Node := do
  match number with
  | none => return n
  | some k =>
    modify fun b => { b with named := (k, n) :: b.named }
    return n

def aliasNode (name : List Char) : BuildM Node := do
  let b ← get
  let target ← b.anchors.lookup name
  set { b with aliases := b.aliases + 1 }
  return .aliasOf name b.aliases target

/-- A node of which there is nothing but its properties. -/
def missing (p : Properties) (tag : Option Tag) : BuildM Node :=
  if p.anchor.isSome || p.tag.isSome then return .scalar tag true [] else failure

end BuildM

namespace Token

/-- May a value be missing before the token? -/
def endsBlockValue : Token → Bool
  | key | value | blockEnd => true
  | _ => false

/-- May an item be missing before the token? -/
def endsItem : Token → Bool
  | blockEntry | blockEnd => true
  | _ => false

/-- May an item be missing before the token, in a sequence that stands for a value? -/
def endsIndentlessItem (t : Token) : Bool := t = blockEntry || t.endsBlockValue

def endsFlowValue (closing t : Token) : Bool := t = flowEntry || t = closing

def endsFlowKey (closing t : Token) : Bool := t = value || endsFlowValue closing t

def endsDocument : Token → Bool
  | directive _ | documentStart | documentEnd | streamEnd => true
  | _ => false

end Token

namespace BuildM

/-- Moves to the next entry of a flow collection, over a comma unless it is the first. -/
def flowNext (first : Bool) (closing : Token) : BuildM Token := do
  let t ← peek
  if first || t = closing then return t
  else if t = .flowEntry then advance
  else failure

mutual

/-- Reads a node. Blocks are allowed only if `block` says so, and a sequence that is no deeper than
its key only if `indentless` does. -/
def node (block indentless : Bool) : (fuel : Nat) → BuildM Node
  | 0 => failure
  | fuel + 1 => do
    match ← peek with
    | .aliasOf a =>
      let _ ← take
      aliasNode a
    | _ =>
      let p ← properties
      let tag ← resolveTag p.tag
      let number ← beginNamed p.anchor
      let n ← content block indentless p tag fuel
      endNamed number n

def content (block indentless : Bool) (p : Properties) (tag : Option Tag) : (fuel : Nat) → BuildM Node
  | 0 => failure
  | fuel + 1 => do
    match ← peek with
    | .scalar text plain =>
      let _ ← take
      return .scalar tag plain text
    | .flowSequenceStart =>
      let _ ← take
      return .sequence tag (← flowItems true fuel)
    | .flowMappingStart =>
      let _ ← take
      return .mapping tag (← flowEntries true fuel)
    | .blockSequenceStart =>
      if !block then missing p tag
      else
        let _ ← take
        return .sequence tag (← blockItems fuel)
    | .blockMappingStart =>
      if !block then missing p tag
      else
        let _ ← take
        return .mapping tag (← blockEntries fuel)
    | .blockEntry =>
      if !indentless then missing p tag else return .sequence tag (← indentlessItems fuel)
    | _ => missing p tag

def blockItems : (fuel : Nat) → BuildM (List Node)
  | 0 => failure
  | fuel + 1 => do
    match ← peek with
    | .blockEnd =>
      let _ ← take
      return []
    | .blockEntry =>
      let t ← advance
      let item ← if t.endsItem then pure Node.empty else node true false fuel
      return item :: (← blockItems fuel)
    | _ => failure

/-- Reads the items of a block sequence that is no deeper than its key. -/
def indentlessItems : (fuel : Nat) → BuildM (List Node)
  | 0 => failure
  | fuel + 1 => do
    match ← peek with
    | .blockEntry =>
      let t ← advance
      let item ← if t.endsIndentlessItem then pure Node.empty else node true false fuel
      return item :: (← indentlessItems fuel)
    | _ => return []

def blockEntries : (fuel : Nat) → BuildM (List (Node × Node))
  | 0 => failure
  | fuel + 1 => do
    match ← peek with
    | .blockEnd =>
      let _ ← take
      return []
    | .key =>
      let t ← advance
      let k ← if t.endsBlockValue then pure Node.empty else node true true fuel
      let v ← blockValue fuel
      return (k, v) :: (← blockEntries fuel)
    | _ => failure

def blockValue : (fuel : Nat) → BuildM Node
  | 0 => failure
  | fuel + 1 => do
    match ← peek with
    | .value =>
      let t ← advance
      if t.endsBlockValue then return Node.empty else node true true fuel
    | _ => return Node.empty

/-- Reads the items of a flow sequence. `first` says whether none has been read yet. -/
def flowItems (first : Bool) : (fuel : Nat) → BuildM (List Node)
  | 0 => failure
  | fuel + 1 => do
    let t ← flowNext first .flowSequenceEnd
    match t with
    | .flowSequenceEnd =>
      let _ ← take
      return []
    | .key =>
      let t ← advance
      let k ←
        if Token.endsFlowKey .flowSequenceEnd t then do
          -- The token that shows that the key is missing is left out.
          let _ ← take
          pure Node.empty
        else node false false fuel
      let v ← flowValue .flowSequenceEnd fuel
      return .mapping none [(k, v)] :: (← flowItems false fuel)
    | _ =>
      let item ← node false false fuel
      return item :: (← flowItems false fuel)

def flowValue (closing : Token) : (fuel : Nat) → BuildM Node
  | 0 => failure
  | fuel + 1 => do
    match ← peek with
    | .value =>
      let t ← advance
      if Token.endsFlowValue closing t then return Node.empty else node false false fuel
    | _ => return Node.empty

def flowEntries (first : Bool) : (fuel : Nat) → BuildM (List (Node × Node))
  | 0 => failure
  | fuel + 1 => do
    let t ← flowNext first .flowMappingEnd
    match t with
    | .flowMappingEnd =>
      let _ ← take
      return []
    | .key =>
      let t ← advance
      let k ←
        if Token.endsFlowKey .flowMappingEnd t then pure Node.empty else node false false fuel
      let v ← flowValue .flowMappingEnd fuel
      return (k, v) :: (← flowEntries false fuel)
    | _ =>
      let k ← node false false fuel
      return (k, Node.empty) :: (← flowEntries false fuel)

end

def isSupported (major minor : List Char) : Bool :=
  Numeral.number? 10 major = some 1 && Numeral.number? 10 minor = some 1

/-- Reads the lines before a document: the version at most once, and each handle at most once. -/
def directives (version : Bool) : (fuel : Nat) → BuildM Unit
  | 0 => failure
  | fuel + 1 => do
    match ← peek with
    | .directive (.version major minor) =>
      if version || !isSupported major minor then failure
      let _ ← take
      directives true fuel
    | .directive (.tag handle expansion) =>
      let b ← get
      if (b.handles.lookup handle).isSome then failure
      set { b with handles := b.handles ++ [(handle, expansion)] }
      let _ ← take
      directives version fuel
    | _ => return ()

def defaultHandles : List (Bytes × Bytes) :=
  [(Bytes.ofString "!", Bytes.ofString "!"), (Bytes.ofString "!!", Bytes.ofString "tag:yaml.org,2002:")]

/-- Reads the root of a document that begins with a line of dashes. -/
def declaredRoot (fuel : Nat) : BuildM Node := do
  directives false fuel
  modify fun b => { b with handles := b.handles ++ defaultHandles }
  if (← peek) ≠ .documentStart then failure
  let t ← advance
  if t.endsDocument then return Node.empty else node true false fuel

/-- Reads the first document, if there is one, and looks at the token behind it. -/
def document (fuel : Nat) : BuildM (Option Node) := do
  match ← advance with
  | .streamEnd => return none
  | t =>
    let root ←
      if t ≠ .documentEnd && t.endsDocument then declaredRoot fuel
      else do
        modify ({ · with handles := defaultHandles })
        node true false fuel
    let _ ← peek
    return some root

end BuildM

/-- The first document in a text, or nothing if there is none. Fails if it is not well formed. -/
def document? (data : Bytes) : Option (Option Document) := do
  let reading ← Reading.start data
  let (root, b) ← BuildM.document (16 * reading.cursor.size) { reading := reading }
  some (root.map (⟨·, b.named⟩))

end VerboseExpr.Yaml
