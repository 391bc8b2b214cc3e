/-!
Text as the program sees it: a list of bytes, which need not be UTF-8. Sources, tokens, patterns,
files and messages are all of this type, and every offset counts bytes.
-/

namespace VerboseExpr

/-- Text of any kind, byte by byte. -/
abbrev Bytes := List UInt8

namespace Bytes

def ofChar (c : Char) : Bytes :=
  let n := c.toNat
  if n < 0x80 then [n.toUInt8]
  else if n < 0x800 then [(0xC0 + n / 0x40).toUInt8, (0x80 + n % 0x40).toUInt8]
  else if n < 0x10000 then
    [(0xE0 + n / 0x1000).toUInt8, (0x80 + n / 0x40 % 0x40).toUInt8, (0x80 + n % 0x40).toUInt8]
  else
    [(0xF0 + n / 0x40000).toUInt8, (0x80 + n / 0x1000 % 0x40).toUInt8,
      (0x80 + n / 0x40 % 0x40).toUInt8, (0x80 + n % 0x40).toUInt8]

def ofChars (cs : List Char) : Bytes := cs.flatMap ofChar

def ofString (s : String) : Bytes := ofChars s.toList

instance : Coe String Bytes := ⟨ofString⟩

def ofNat (n : Nat) : Bytes := ofChars (Nat.toDigits 10 n)

def ofInt (i : Int) : Bytes :=
  if i < 0 then ofString "-" ++ ofNat i.natAbs else ofNat i.natAbs

def ofBool (b : Bool) : Bytes := if b then ofString "true" else ofString "false"

def join (sep : Bytes) : List Bytes → Bytes
  | [] => []
  | [b] => b
  | b :: rest => b ++ sep ++ join sep rest

/-- Does a text come before another, or is it the same, in the order of bytes? -/
def le : Bytes → Bytes → Bool
  | [], _ => true
  | _ :: _, [] => false
  | a :: as, b :: bs => a < b || (a == b && le as bs)

def endsWith (b affix : Bytes) : Bool := affix.isSuffixOf b

def startsWith (b affix : Bytes) : Bool := affix.isPrefixOf b

/-- The text without `affix` at its end, or as it is if it ends otherwise. -/
def dropSuffix (b affix : Bytes) : Bytes :=
  if b.endsWith affix then b.take (b.length - affix.length) else b

def padRight (width : Nat) (b : Bytes) : Bytes := b ++ List.replicate (width - b.length) 0x20

def hexDigit (n : Nat) : UInt8 :=
  if n < 10 then (0x30 + n).toUInt8 else (0x57 + n).toUInt8

/-- The lower-case hexadecimal form of `n` in `width` digits, most significant first. -/
def hex (width n : Nat) : Bytes :=
  match width with
  | 0 => []
  | w + 1 => hexDigit (n / 16 ^ w % 16) :: hex w n

def hexUpper (width n : Nat) : Bytes :=
  (hex width n).map fun b => if 0x61 ≤ b ∧ b ≤ 0x66 then b - 0x20 else b

@[simp]
theorem ofChars_nil : ofChars [] = [] := rfl

@[simp]
theorem ofChars_cons (c : Char) (cs : List Char) : ofChars (c :: cs) = ofChar c ++ ofChars cs := rfl

theorem ofChars_append (cs ds : List Char) : ofChars (cs ++ ds) = ofChars cs ++ ofChars ds := by
  simp [ofChars]

end Bytes

end VerboseExpr
