import VerboseExpr.Text.Bytes

namespace VerboseExpr.CommandLine

inductive Style where
  | error
  | label
  | pattern
  | muted
  deriving DecidableEq, Repr

/-- The number of a colour in an escape sequence, with `bold` if the text is bold. -/
def Style.code : Style → Bytes
  | error => "31;1"
  | label => "36;1"
  | pattern => "32;1"
  | muted => "90"

def sequence (code : Bytes) : Bytes := [0x1B, 0x5B] ++ code ++ [0x6D]

def paint (colours : Bool) (style : Style) (b : Bytes) : Bytes :=
  if colours then sequence style.code ++ b ++ sequence (Bytes.ofString "0") else b

/-- A line in colour, if colours are on. After a bold line, bold is switched off by itself. -/
def paintLine (colours : Bool) (style : Style) (b : Bytes) : Bytes :=
  (if colours then
    sequence style.code ++ b ++
      sequence (if style = .muted then Bytes.ofString "0" else Bytes.ofString "0;22")
  else b) ++ [0x0A]

end VerboseExpr.CommandLine
