import VerboseExpr.Text.Bytes

namespace VerboseExpr.Yaml

inductive Directive where
  | version (major minor : List Char)
  /-- What the first part of a tag stands for. -/
  | tag (handle expansion : Bytes)
  deriving DecidableEq, Repr

inductive Token where
  | streamStart
  | directive (d : Directive)
  | documentStart
  | documentEnd
  | streamEnd
  | blockSequenceStart
  | blockMappingStart
  | blockEnd
  | flowSequenceStart
  | flowSequenceEnd
  | flowMappingStart
  | flowMappingEnd
  | blockEntry
  | flowEntry
  | key
  | value
  | aliasOf (name : List Char)
  | anchor (name : List Char)
  /-- A tag: its handle, which is empty if the tag is written in full, and the rest of it. -/
  | tag (handle suffix : Bytes)
  /-- A text; `plain` if it is not in quotes and no block. -/
  | scalar (text : List Char) (plain : Bool)
  deriving DecidableEq, Repr

end VerboseExpr.Yaml
