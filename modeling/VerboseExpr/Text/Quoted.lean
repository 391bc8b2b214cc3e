import VerboseExpr.Text.Utf8
import VerboseExpr.Unicode.Printable

namespace VerboseExpr.Quoted

def shortEscape? (c : Char) : Option UInt8 :=
  match c.toNat with
  | 0x07 => some 0x61
  | 0x08 => some 0x62
  | 0x0C => some 0x66
  | 0x0A => some 0x6E
  | 0x0D => some 0x72
  | 0x09 => some 0x74
  | 0x0B => some 0x76
  | _ => none

def byteEscape (n : Nat) : Bytes := [0x5C, 0x78] ++ Bytes.hex 2 n

def encodeUnit (quote : UInt8) (u : Utf8.Unit) : Bytes :=
  let n := u.char.toNat
  if !u.valid then u.bytes.flatMap fun b => byteEscape b.toNat
  else if n = quote.toNat || n = 0x5C then 0x5C :: u.bytes
  else if Unicode.isPrintable u.char then u.bytes
  else
    match shortEscape? u.char with
    | some letter => [0x5C, letter]
    | none =>
      if n < 0x20 || n = 0x7F then byteEscape n
      else if n < 0x10000 then [0x5C, 0x75] ++ Bytes.hex 4 n
      else [0x5C, 0x55] ++ Bytes.hex 8 n

def encode (b : Bytes) : Bytes :=
  [0x22] ++ (Utf8.units b).flatMap (encodeUnit 0x22) ++ [0x22]

/-- One byte in single quotes, read as the character of that number. -/
def encodeByte (b : UInt8) : Bytes :=
  let c := Char.ofNat b.toNat
  [0x27] ++ encodeUnit 0x27 ⟨c, Bytes.ofChar c, true⟩ ++ [0x27]

def hexValue? (b : UInt8) : Option Nat :=
  if 0x30 ≤ b ∧ b ≤ 0x39 then some (b.toNat - 0x30)
  else if 0x61 ≤ b ∧ b ≤ 0x66 then some (b.toNat - 0x57)
  else if 0x41 ≤ b ∧ b ≤ 0x46 then some (b.toNat - 0x37)
  else none

def hexNumber? (ds : Bytes) : Option Nat :=
  ds.foldlM (fun n d => (hexValue? d).map (16 * n + ·)) 0

/-- The number in the first `width` bytes, and what follows them. -/
def takeHex? (width : Nat) (b : Bytes) : Option Nat :=
  if width ≤ b.length then hexNumber? (b.take width) else none

/-- The number of a byte in the first three bytes, which are octal digits. -/
def takeOctal? (b : Bytes) : Option Nat := do
  if b.length < 3 then none
  let n ← (b.take 3).foldlM
    (fun n d => if 0x30 ≤ d ∧ d ≤ 0x37 then some (8 * n + (d.toNat - 0x30)) else none) 0
  if n < 256 then some n else none

def shortValue? (letter : UInt8) : Option UInt8 :=
  match letter.toNat with
  | 0x61 => some 0x07
  | 0x62 => some 0x08
  | 0x66 => some 0x0C
  | 0x6E => some 0x0A
  | 0x72 => some 0x0D
  | 0x74 => some 0x09
  | 0x76 => some 0x0B
  | 0x22 => some 0x22
  | 0x5C => some 0x5C
  | _ => none

def isScalar (n : Nat) : Bool := n < 0xD800 || (0xE000 ≤ n && n < 0x110000)

/-- The text between the quotes, up to the closing quote, and what follows it. A line feed may not
stand for itself, and every backslash must begin an escape. -/
def decodeBody : Bytes → Option (Bytes × Bytes)
  | [] => none
  | b :: rest =>
    if b = 0x22 then some ([], rest)
    else if b = 0x0A then none
    else if b ≠ 0x5C then (decodeBody rest).map fun (t, r) => (b :: t, r)
    else
      match rest with
      | [] => none
      | e :: more =>
        if e = 0x78 then do
          let n ← takeHex? 2 more
          let (t, r) ← decodeBody (more.drop 2)
          return (n.toUInt8 :: t, r)
        else if e = 0x75 ∨ e = 0x55 then do
          let w := if e = 0x75 then 4 else 8
          let n ← takeHex? w more
          if isScalar n then
            let (t, r) ← decodeBody (more.drop w)
            return (Bytes.ofChar (Char.ofNat n) ++ t, r)
          else none
        else if 0x30 ≤ e ∧ e ≤ 0x37 then do
          let n ← takeOctal? (e :: more)
          let (t, r) ← decodeBody (more.drop 2)
          return (n.toUInt8 :: t, r)
        else do
          let v ← shortValue? e
          let (t, r) ← decodeBody more
          return (v :: t, r)
termination_by b => b.length
decreasing_by all_goals simp only [List.length_cons, List.length_drop]; omega

/-- Reads a double-quoted text from the front, and gives what follows it. -/
def decode? : Bytes → Option (Bytes × Bytes)
  | [] => none
  | b :: rest => if b = 0x22 then decodeBody rest else none

end VerboseExpr.Quoted
