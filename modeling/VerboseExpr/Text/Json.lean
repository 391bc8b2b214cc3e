import VerboseExpr.Text.Utf8

namespace VerboseExpr.Json

/-- Which characters a JSON string escapes beyond those that must be. -/
inductive Style where
  | document
  | logField
  deriving DecidableEq, Repr

def numberEscape (n : Nat) : Bytes := [0x5C, 0x75] ++ Bytes.hex 4 n

def encodeUnit (style : Style) (u : Utf8.Unit) : Bytes :=
  let n := u.char.toNat
  if !u.valid then
    match style with
    | .document => Bytes.ofChar Utf8.replacement
    | .logField => numberEscape Utf8.replacement.toNat
  else if n = 0x22 || n = 0x5C then 0x5C :: u.bytes
  else if n = 0x0A then [0x5C, 0x6E]
  else if n = 0x0D then [0x5C, 0x72]
  else if n = 0x09 then [0x5C, 0x74]
  else if n < 0x20 then
    match style, n with
    | .document, 0x08 => [0x5C, 0x62]
    | .document, 0x0C => [0x5C, 0x66]
    | _, _ => numberEscape n
  else if style = .document && (n = 0x3C || n = 0x3E || n = 0x26 || n = 0x2028 || n = 0x2029) then
    numberEscape n
  else u.bytes

def string (style : Style) (b : Bytes) : Bytes :=
  [0x22] ++ (Utf8.units b).flatMap (encodeUnit style) ++ [0x22]

end VerboseExpr.Json
