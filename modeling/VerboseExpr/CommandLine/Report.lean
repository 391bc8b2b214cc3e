import VerboseExpr.Analysis
import VerboseExpr.CommandLine.Style
import VerboseExpr.Text.Json

namespace VerboseExpr.CommandLine

def fieldLine (colours : Bool) (label : String) (value : Bytes) : Bytes :=
  paint colours .label ((Bytes.ofString label ++ Bytes.ofString ":").padRight 8 ++ [0x20]) ++
    value ++ [0x0A]

def riskWarning : Bytes :=
  Bytes.ofString "warning: nested unbounded quantifiers may backtrack catastrophically"

def analysisText (colours : Bool) (a : Analysis) : Bytes :=
  let list := Bytes.join (Bytes.ofString ", ")
  fieldLine colours "pattern" a.pattern ++ fieldLine colours "features" (list a.featureLabels) ++
    fieldLine colours "engine" (list a.engineLabels) ++
    fieldLine colours "groups" (Bytes.ofNat a.captureGroups) ++
    fieldLine colours "depth" (Bytes.ofNat a.depth) ++
    fieldLine colours "anchored" (Bytes.ofBool a.isAnchored) ++
    if a.hasCatastrophicRisk then paintLine colours .error riskWarning else []

def jsonMember (name : String) (value : Bytes) : Bytes :=
  Bytes.ofString "  " ++ Json.string .document (Bytes.ofString name) ++ Bytes.ofString ": " ++ value

/-- A list of texts in JSON, one a line, inside an object. -/
def jsonTexts (ts : List Bytes) : Bytes :=
  if ts.isEmpty then Bytes.ofString "[]"
  else
    Bytes.ofString "[\n" ++
      Bytes.join (Bytes.ofString ",\n")
        (ts.map fun t => Bytes.ofString "    " ++ Json.string .document t) ++
      Bytes.ofString "\n  ]"

def analysisJson (a : Analysis) : Bytes :=
  Bytes.ofString "\x7b\n" ++
    Bytes.join (Bytes.ofString ",\n")
      [jsonMember "pattern" (Json.string .document a.pattern),
        jsonMember "feature_labels" (jsonTexts a.featureLabels),
        jsonMember "engine_labels" (jsonTexts a.engineLabels),
        jsonMember "commands" (Bytes.ofNat a.commands),
        jsonMember "literals" (Bytes.ofNat a.literals),
        jsonMember "depth" (Bytes.ofNat a.depth),
        jsonMember "capture_groups" (Bytes.ofNat a.captureGroups),
        jsonMember "has_backrefs" (Bytes.ofBool a.hasBackrefs),
        jsonMember "has_catastrophic_risk" (Bytes.ofBool a.hasCatastrophicRisk),
        jsonMember "has_repeating_captures" (Bytes.ofBool a.hasRepeatingCaptures),
        jsonMember "is_anchored" (Bytes.ofBool a.isAnchored)] ++
    Bytes.ofString "\n\x7d\n"

def commandRow (c : Command) : List Bytes :=
  let aliases := Bytes.join (Bytes.ofString " ") c.aliases
  [c.name, if aliases.isEmpty then Bytes.ofString "-" else aliases, c.arity.text, Bytes.ofNat c.counts,
    c.summary]

/-- The cells of a row, each but the last filled up to the width of its column. -/
def tableRow : List Nat → List Bytes → Bytes
  | _, [] => []
  | _, [cell] => cell ++ [0x0A]
  | w :: ws, cell :: rest => cell.padRight (w + 2) ++ tableRow ws rest
  | [], cell :: rest => cell ++ tableRow [] rest

/-- Rows in columns that are as wide as their widest cell. -/
def table (rows : List (List Bytes)) : Bytes :=
  let columns := (rows.map List.length).foldl max 0
  let widths := (List.range columns).map fun i =>
    (rows.map fun r => (r.getD i []).length).foldl max 0
  rows.flatMap (tableRow widths)

def commandTable (cs : List Command) : Bytes :=
  table (["COMMAND", "ALIASES", "ARGUMENTS", "INTEGERS", "DESCRIPTION"].map Bytes.ofString ::
    cs.map commandRow)

end VerboseExpr.CommandLine
