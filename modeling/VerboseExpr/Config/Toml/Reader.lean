import VerboseExpr.Config.Basic
import VerboseExpr.Config.Toml.Document
import VerboseExpr.Config.Toml.Table

namespace VerboseExpr.Toml

/-- A character without its case, as far as ASCII letters come out. -/
def fold (c : Char) : Char :=
  if c.toNat = 0x17F then 's' else if c.toNat = 0x212A then 'k' else c.toLower

def names (key : List Char) (setting : String) : Bool := key.map fold == setting.toList

def asText? : Entry → Option Bytes
  | .value (.text cs) => some (Bytes.ofChars cs)
  | _ => none

def asBool? : Entry → Option Bool
  | .value (.bool b) => some b
  | _ => none

def asTexts? : Entry → Option (List Bytes)
  | .value (.array items) => items.mapM fun v => asText? (.value v)
  | _ => none

/-- The settings with one of them set, if the key names one. -/
def assign? (c : Config) (b : List Char × Entry) : Option Config :=
  let (key, e) := b
  if names key "name" then (asText? e).map ({ c with name := · })
  else if names key "package" then (asText? e).map ({ c with package := · })
  else if names key "output" then (asText? e).map ({ c with output := · })
  else if names key "engine" then (asText? e).map ({ c with engine := · })
  else if names key "verbose" then (asBool? e).map ({ c with verbose := · })
  else if names key "no_color" then (asBool? e).map ({ c with noColor := · })
  else if names key "test_file" then (asBool? e).map ({ c with testFile := · })
  else if names key "inputs" then (asTexts? e).map ({ c with inputs := · })
  else some c

/-- The settings that a document gives on top of the defaults. -/
def read? (data : Bytes) : Option Config := do
  let cs ← characters? data
  let t ← table? (← statements? cs (cs.length + 1))
  t.foldlM assign? Config.default

end VerboseExpr.Toml
