import VerboseExpr.Text.Utf8

namespace VerboseExpr.Toml

/-- A key with its parts, which dots separate. -/
abbrev Key := List (List Char)

inductive Value where
  | text (cs : List Char)
  | bool (b : Bool)
  | number
  | time
  | array (items : List Value)
  | inlineTable (entries : List (Key × Value))

/-- A line of a document, as far as it says anything. -/
inductive Statement where
  | table (key : Key)
  /-- The keys that follow belong to a new table at the end of an array. -/
  | arrayTable (key : Key)
  | assignment (key : Key) (value : Value)

/-- May the character stand in a document at all? Carriage returns are looked at apart. -/
def isAllowed (c : Char) : Bool :=
  c = '\t' || c = '\n' || c = '\r' || (0x20 ≤ c.toNat && c.toNat ≠ 0x7F)

def returnsPaired : List Char → Bool
  | [] => true
  | '\r' :: rest => rest.head? = some '\n' && returnsPaired rest
  | _ :: rest => returnsPaired rest

/-- Drops a mark of the byte order, that of UTF-8 or one of UTF-16. -/
def dropMark (data : Bytes) : Bytes :=
  if Bytes.startsWith data [0xFF, 0xFE] || Bytes.startsWith data [0xFE, 0xFF] then data.drop 2
  else if Bytes.startsWith data [0xEF, 0xBB, 0xBF] then data.drop 3
  else data

def characters? (data : Bytes) : Option (List Char) :=
  let data := dropMark data
  let cs := Utf8.decode data
  if Utf8.isValid data && cs.all isAllowed && returnsPaired cs then some cs else none

def isBlank (c : Char) : Bool := c = ' ' || c = '\t'

def isBreak (c : Char) : Bool := c = '\n' || c = '\r'

def isSpace (c : Char) : Bool := isBlank c || isBreak c

end VerboseExpr.Toml
