import VerboseExpr.Text.Utf8

namespace VerboseExpr.Pattern

/-- The bytes that a pattern reads as syntax. -/
def specialBytes : Bytes := Bytes.ofString "^$.[]-?+*()\x7b\x7d|\\"

def isSpecial (c : UInt8) : Bool := specialBytes.contains c

def escapeBytes (b : Bytes) : Bytes := b.flatMap fun c => if isSpecial c then [0x5C, c] else [c]

/-- The pattern that matches the text itself. A text without characters that are syntax is given back
as it is. -/
def escape (b : Bytes) : Bytes := if Utf8.containsAny b specialBytes then escapeBytes b else b

def isInteger (b : Bytes) : Bool := !b.isEmpty && b.all fun c => 0x30 ≤ c && c ≤ 0x39

end VerboseExpr.Pattern
