import VerboseExpr.Generated.Lexeme
import VerboseExpr.Unicode.Printable

/-!
The head of a generated file: the package clause and the imports. The text given as the name of the
package may bring blanks, comments and imports of its own, as long as the file stays well formed. It is
then laid out in the usual way: one blank line is kept where there are some, an import begins a line,
and a comment stays on its line.
-/

namespace VerboseExpr.Generated

/-- An imported package and the name it gets, which is empty if it keeps its own. -/
structure Imported where
  name : Bytes := []
  path : Bytes
  line : Nat
  deriving DecidableEq, Repr

namespace Imported

/-- The characters that no path may hold although they are printable. -/
def refused : List Char :=
  " !\"#$%&'()*,:;<=>?[\\]^\x60\x7b|\x7d".toList ++ [Utf8.replacement]

def isPath (path : Bytes) : Bool :=
  let cs := Utf8.decode path
  !cs.isEmpty && cs.all fun c => Unicode.isPrintable c && !refused.contains c

def ofLexemes? : List Placed → Option Imported
  | [⟨[], line, .quoted path⟩] => if isPath path then some ⟨[], path, line⟩ else none
  | [⟨[], line, .word name⟩, ⟨[], _, .quoted path⟩] =>
    if isPath path && !keywords.contains name then some ⟨name, path, line⟩ else none
  | [⟨[], line, .dot⟩, ⟨[], _, .quoted path⟩] =>
    if isPath path then some ⟨Bytes.ofString ".", path, line⟩ else none
  | _ => none

def text (i : Imported) : Bytes :=
  (if i.name.isEmpty then [] else i.name ++ [0x20]) ++ Quoted.encode i.path

/-- Does an import come before another, or say the same? Paths are compared first. -/
def le (i j : Imported) : Bool := if i.path = j.path then i.name.le j.name else i.path.le j.path

/-- The imports without those that only say again what the one before them says. -/
def dropRepeated : List Imported → List Imported
  | i :: j :: rest =>
    if i.path = j.path ∧ i.name = j.name then dropRepeated (j :: rest)
    else i :: dropRepeated (j :: rest)
  | is => is

/-- The imports in runs between which there are blank lines. -/
def runs : List Imported → List (List Imported)
  | [] => []
  | i :: rest =>
    match runs rest with
    | [] => [[i]]
    | [] :: more => [i] :: more
    | (j :: run) :: more =>
      if j.line ≤ i.line + 1 then (i :: j :: run) :: more else [i] :: (j :: run) :: more

def runLines (run : List Imported) : Bytes :=
  (dropRepeated (run.mergeSort le)).flatMap fun i => [0x0A, 0x09] ++ i.text

def groupText (is : List Imported) : Bytes :=
  if is.isEmpty then "()"
  else Bytes.ofString "(" ++ Bytes.join [0x0A] ((runs is).map runLines) ++ Bytes.ofString "\n)"

end Imported

/-- The line breaks between two lines that are `n` apart: one blank line is kept. -/
def breaks (n : Nat) : Bytes := List.replicate (min n 2) 0x0A

structure ImportClause where
  comments : List Comment
  first : Nat
  last : Nat
  text : Bytes
  deriving DecidableEq, Repr

structure Heading where
  /-- The comments before the name of the package. -/
  comments : List Comment
  line : Nat
  name : Bytes
  imports : List ImportClause
  /-- The comments before what follows. -/
  trailing : List Comment
  deriving DecidableEq, Repr

/-- The statements of some lexemes, without their ends. The last one has no end. What stands between
brackets is not divided. -/
def statements (inGroup : Bool) : List Placed → List (List Placed)
  | [] => [[]]
  | l :: rest =>
    if l.lexeme = .stop ∧ !inGroup then [] :: statements false rest
    else
      match statements (l.lexeme = .openGroup || (inGroup && l.lexeme ≠ .closeGroup)) rest with
      | [] => [[l]]
      | s :: more => (l :: s) :: more

namespace ImportClause

/-- The imports between brackets. The last one needs no end. -/
def group? (ls : List Placed) : Option (List Imported) :=
  let ss := statements false ls
  (if ss.getLast? = some [] then ss.dropLast else ss).mapM Imported.ofLexemes?

def ofStatement? : List Placed → Option ImportClause
  | ⟨comments, line, .word w⟩ :: body => do
    if w ≠ Bytes.ofString "import" then none
    match body with
    | ⟨[], _, .openGroup⟩ :: more =>
      match more.getLast? with
      | some ⟨[], last, .closeGroup⟩ =>
        let is ← group? more.dropLast
        return ⟨comments, line, last, Imported.groupText is⟩
      | _ => none
    | _ =>
      let i ← Imported.ofLexemes? body
      return ⟨comments, line, (body.getLast?.map (·.line)).getD line, i.text⟩
  | _ => none

end ImportClause

namespace Heading

/-- The head that a text after the word `package` makes, if it is well formed. -/
def read? (text : Bytes) : Option Heading := do
  let (ls, trailing) ← lexemes? (text ++ [0x0A])
  match statements false ls with
  | [⟨comments, line, .word name⟩] :: rest =>
    if keywords.contains name || rest.getLast? ≠ some [] then none
    let imports ← rest.dropLast.mapM ImportClause.ofStatement?
    return { comments, line, name, imports, trailing }
  | _ => none

/-- Comments after something on the line `line`: each on its own line or, after a blank, on that of
what stands before it. -/
def commentsText (line : Nat) : List Comment → Bytes
  | [] => []
  | c :: rest =>
    (if c.line = line then [0x20] else breaks (c.line - line)) ++ c.text ++ commentsText c.line rest

def nameLead (line : Nat) (cs : List Comment) : Bytes :=
  commentsText 0 cs ++
    match cs.getLast? with
    | none => [0x20]
    | some c => if c.closed ∧ c.line = line then [0x20] else breaks (line - c.line)

/-- The line breaks and comments between something that ends on the line `last` and an import that
begins on the line `first`. Without comments there are at least `least` line breaks. A comment that
begins a line is set apart by a blank line. -/
def importLead (least last first : Nat) (cs : List Comment) : Bytes :=
  match cs with
  | [] => breaks (max least (first - last))
  | c :: rest =>
    (if c.line = last then [0x20] else breaks 2) ++ c.text ++ commentsText c.line rest ++
      let line := (cs.getLast?.map (·.line)).getD last
      breaks (max 1 (first - line))

def importsText (least last : Nat) : List ImportClause → Bytes
  | [] => []
  | i :: rest =>
    importLead least last i.first i.comments ++ Bytes.ofString "import " ++ i.text ++
      importsText 1 i.last rest

/-- The head of a file that imports one more package. `text` is what the head was read from. -/
def layOut (h : Heading) (text imported : Bytes) : Bytes :=
  let first := text.count 0x0A + 2
  Bytes.ofString "package" ++ nameLead h.line h.comments ++ h.name ++
    importsText 2 h.line (h.imports ++ [⟨h.trailing, first, first, imported⟩])

end Heading

end VerboseExpr.Generated
