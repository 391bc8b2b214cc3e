import VerboseExpr.Generated.Heading

namespace VerboseExpr.Generated

structure WrittenName where
  identifier : Bytes
  /-- All that stands before the identifier, carriage returns apart. -/
  lead : Bytes := []
  lines : Nat := 0
  /-- The comments in it. There are none if there are line breaks. -/
  comments : List Bytes := []
  deriving DecidableEq, Repr

namespace WrittenName

/-- Reads a name. A comment at its very beginning, or one before a line break, would end the comments
of the generated code too soon. -/
def read? (text : Bytes) : Option WrittenName := do
  let (ls, after) ← lexemes? text
  match ls, after with
  | [⟨comments, lines, .word identifier⟩], [] =>
    if keywords.contains identifier || !text.endsWith identifier || text.head? = some 0x2F then none
    if lines > 0 && !comments.isEmpty then none
    return {
      identifier, lines
      lead := (text.dropSuffix identifier).filter (· ≠ 0x0D)
      comments := comments.map (·.text) }
  | _, _ => none

def declared (n : WrittenName) (ending : String) : Bytes :=
  n.comments.flatMap (· ++ [0x20]) ++ n.identifier ++ Bytes.ofString ending

def bracketed (n : WrittenName) (ending : String) : Bytes :=
  if n.lines > 0 then breaks n.lines ++ [0x09] ++ n.declared ending
  else if n.comments.isEmpty then n.declared ending
  else [0x20] ++ n.declared ending

/-- The name after the last word of a line, which continues with `indent` if the name begins
another. -/
def continued (n : WrittenName) (indent : String) : Bytes :=
  if n.lines > 0 then breaks n.lines ++ Bytes.ofString indent ++ n.identifier
  else [0x20] ++ n.declared ""

/-- The comment over a declaration. It begins with the name and one ending, and mentions the name with
another one. -/
def remark (n : WrittenName) (ending middle other tail : String) : Bytes :=
  let first := n.identifier ++ Bytes.ofString (ending ++ middle)
  let second := n.identifier ++ Bytes.ofString (other ++ tail)
  if n.lines > 0 then
    Bytes.ofString "/*\n" ++ first ++ breaks n.lines ++ second ++ Bytes.ofString "\n*/\n"
  else
    Bytes.ofString "// " ++ n.lead.dropWhile (fun b => b = 0x20 ∨ b = 0x09) ++ first ++ [0x20] ++
      n.lead ++ second ++ [0x0A]

end WrittenName

end VerboseExpr.Generated
