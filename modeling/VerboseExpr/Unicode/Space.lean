import VerboseExpr.Text.Utf8
import VerboseExpr.Unicode.Ranges

namespace VerboseExpr.Unicode

/-- The code points with the property White_Space. -/
def spaces : Ranges := #[
  (0x9, 0xD), (0x20, 0x20), (0x85, 0x85), (0xA0, 0xA0), (0x1680, 0x1680), (0x2000, 0x200A),
  (0x2028, 0x2029), (0x202F, 0x202F), (0x205F, 0x205F), (0x3000, 0x3000)]

def isSpace (c : Char) : Bool := spaces.contains c

/-- Is a character as it was read blank? A bad byte never is. -/
def isBlank (u : Utf8.Unit) : Bool := isSpace u.char

def trim (b : Bytes) : Bytes :=
  let us := Utf8.units b
  let lead := us.takeWhile isBlank
  let trail := us.reverse.takeWhile isBlank
  let skip := Utf8.width lead
  (b.drop skip).take (b.length - skip - Utf8.width trail)

end VerboseExpr.Unicode
