import VerboseExpr.Config.Yaml.Resolve
import VerboseExpr.Text.Bytes

namespace VerboseExpr.Yaml

inductive Tag where
  | text
  | binary
  | null
  | bool
  | int
  | float
  | timestamp
  | merge
  /-- A tag without a meaning here. -/
  | other
  deriving DecidableEq, Repr

def Tag.ofName (name : Bytes) : Tag :=
  let known := Bytes.ofString "tag:yaml.org,2002:"
  let short := if name.startsWith known then Bytes.ofString "!!" ++ name.drop known.length else name
  if short = Bytes.ofString "!!str" then .text
  else if short = Bytes.ofString "!!binary" then .binary
  else if short = Bytes.ofString "!!null" then .null
  else if short = Bytes.ofString "!!bool" then .bool
  else if short = Bytes.ofString "!!int" then .int
  else if short = Bytes.ofString "!!float" then .float
  else if short = Bytes.ofString "!!timestamp" then .timestamp
  else if short = Bytes.ofString "!!merge" then .merge
  else .other

/-- The content of a document. Nodes with names are numbered, and an alias refers to such a number,
because a node may occur inside itself. -/
inductive Node where
  /-- A text; `plain` if it is not in quotes and no block. -/
  | scalar (tag : Option Tag) (plain : Bool) (text : List Char)
  | sequence (tag : Option Tag) (items : List Node)
  | mapping (tag : Option Tag) (entries : List (Node × Node))
  /-- A second occurrence of the node with the number `target`. Aliases are numbered as well. -/
  | aliasOf (name : List Char) (number target : Nat)

/-- A document: its root, and the nodes with names by their numbers. -/
structure Document where
  root : Node
  named : List (Nat × Node)

def Node.empty : Node := .scalar none true []

def base64Value? (c : Char) : Option Nat :=
  if 'A' ≤ c && c ≤ 'Z' then some (c.toNat - 'A'.toNat)
  else if 'a' ≤ c && c ≤ 'z' then some (c.toNat - 'a'.toNat + 26)
  else if c.isDigit then some (c.toNat - '0'.toNat + 52)
  else if c = '+' then some 62
  else if c = '/' then some 63
  else none

def base64Groups? : List Char → Option Bytes
  | [] => some []
  | [a, b, '=', '='] => do
    let n := (← base64Value? a) * 64 + (← base64Value? b)
    some [(n / 16).toUInt8]
  | [a, b, c, '='] => do
    let n := ((← base64Value? a) * 64 + (← base64Value? b)) * 64 + (← base64Value? c)
    some [(n / 1024).toUInt8, (n / 4).toUInt8]
  | a :: b :: c :: d :: rest => do
    let n := (((← base64Value? a) * 64 + (← base64Value? b)) * 64 + (← base64Value? c)) * 64 +
      (← base64Value? d)
    some ((n / 65536).toUInt8 :: (n / 256).toUInt8 :: n.toUInt8 :: (← base64Groups? rest))
  | _ => none

/-- The bytes that a text in base 64 writes. Line breaks in it do not count. -/
def base64? (cs : List Char) : Option Bytes :=
  base64Groups? (cs.filter fun c => c != '\n' && c != '\r')

/-- What a scalar stands for: its kind, and the text of it that is kept. -/
structure Scalar where
  value : Value
  text : Bytes
  deriving DecidableEq, Repr

/-- The meaning of a scalar, or nothing if its tag does not fit it. -/
def scalar? (tag : Option Tag) (plain : Bool) (cs : List Char) : Option Scalar :=
  let text := Bytes.ofChars cs
  let v := resolve cs
  let fits (b : Bool) : Option Scalar := if b then some ⟨v, text⟩ else none
  match tag with
  | none => some ⟨if plain then v else .text, text⟩
  | some .text | some .merge | some .other => some ⟨.text, text⟩
  | some .binary => (base64? cs).map (⟨.text, ·⟩)
  | some .null => fits (v = .null)
  | some .bool => fits (v = .bool true || v = .bool false)
  | some .int => fits v.isInt
  | some .float => fits (v = .float || v.isWord)
  | some .timestamp => fits (v = .timestamp)

namespace Node

/-- Does the key ask for the entries of another mapping? -/
def isMerge : Node → Bool
  | scalar tag plain cs => cs = ['<', '<'] && (tag = some .merge || (tag.isNone && plain))
  | _ => false

def sameKey : Node → Node → Bool
  | scalar _ _ cs, scalar _ _ ds => cs = ds
  | aliasOf m _ _, aliasOf n _ _ => m = n
  | sequence .., sequence .. => true
  | mapping .., mapping .. => true
  | _, _ => false

def uniqueKeys : List (Node × Node) → Bool
  | [] => true
  | (k, _) :: rest => rest.all (fun (j, _) => !sameKey k j) && uniqueKeys rest

end Node

namespace Document

def node? (d : Document) (target : Nat) : Option Node := d.named.lookup target

/-- Is the key, or what it refers to, marked as a text or a request for other entries? -/
def isTextKey (d : Document) : Node → Bool
  | .aliasOf _ _ target => (d.node? target).any own
  | n => own n
where
  own : Node → Bool
    | .scalar none plain cs => !plain || cs = ['<', '<'] || resolve cs = .text
    | .scalar (some tag) .. | .sequence (some tag) _ | .mapping (some tag) _ =>
      tag = .text || tag = .merge
    | _ => false

end Document

end VerboseExpr.Yaml
