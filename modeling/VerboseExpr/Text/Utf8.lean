import VerboseExpr.Text.Bytes

/-!
Reading bytes as UTF-8 characters. Reading is total: a byte that starts no well-formed character
stands for the replacement character and is a unit of its own, so that every text is the
concatenation of its units.
-/

namespace VerboseExpr.Utf8

/-- A character as it was read: which one, the bytes it took, and whether they were well formed. -/
structure Unit where
  char : Char
  bytes : Bytes
  valid : Bool
  deriving DecidableEq, Repr

def Unit.width (u : Unit) : Nat := u.bytes.length

/-- The character that stands for a byte no character starts with. -/
def replacement : Char := Char.ofNat 0xFFFD

def Unit.bad (b : UInt8) : Unit := ⟨replacement, [b], false⟩

def between (lo hi : Nat) (b : UInt8) : Bool := lo ≤ b.toNat && b.toNat ≤ hi

/-- The payload of a continuation byte. -/
def tail (b : UInt8) : Nat := b.toNat % 0x40

/-- The first character of a text that starts with the byte `b`. Overlong forms, surrogates and
values past U+10FFFF are not well formed. -/
def first (b : UInt8) (rest : Bytes) : Unit :=
  let n := b.toNat
  if n < 0x80 then ⟨Char.ofNat n, [b], true⟩
  else if n < 0xC2 then .bad b
  else if n < 0xE0 then
    match rest with
    | c :: _ =>
      if between 0x80 0xBF c then ⟨Char.ofNat (n % 0x20 * 0x40 + tail c), [b, c], true⟩ else .bad b
    | _ => .bad b
  else if n < 0xF0 then
    let lo := if n = 0xE0 then 0xA0 else 0x80
    let hi := if n = 0xED then 0x9F else 0xBF
    match rest with
    | c :: d :: _ =>
      if between lo hi c && between 0x80 0xBF d then
        ⟨Char.ofNat (n % 0x10 * 0x1000 + tail c * 0x40 + tail d), [b, c, d], true⟩
      else .bad b
    | _ => .bad b
  else if n < 0xF5 then
    let lo := if n = 0xF0 then 0x90 else 0x80
    let hi := if n = 0xF4 then 0x8F else 0xBF
    match rest with
    | c :: d :: e :: _ =>
      if between lo hi c && between 0x80 0xBF d && between 0x80 0xBF e then
        ⟨Char.ofNat (n % 8 * 0x40000 + tail c * 0x1000 + tail d * 0x40 + tail e), [b, c, d, e], true⟩
      else .bad b
    | _ => .bad b
  else .bad b

def units : Bytes → List Unit
  | [] => []
  | b :: rest =>
    let u := first b rest
    u :: units (rest.drop (u.width - 1))
termination_by bs => bs.length
decreasing_by simp only [List.length_drop, List.length_cons]; omega

/-- The text as characters, each bad byte as the replacement character. -/
def decode (b : Bytes) : List Char := (units b).map (·.char)

def containsAny (b chars : Bytes) : Bool :=
  let set := decode chars
  (decode b).any set.contains

def isValid (b : Bytes) : Bool := (units b).all (·.valid)

def count (b : Bytes) : Nat := (units b).length

def width : List Unit → Nat
  | [] => 0
  | u :: us => u.width + width us

/-- The byte offset at which character number `k` starts, or the length of the text if it has
no more than `k` characters. -/
def offset (b : Bytes) (k : Nat) : Nat := width ((units b).take k)

end VerboseExpr.Utf8
