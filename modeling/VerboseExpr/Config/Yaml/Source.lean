import VerboseExpr.Config.Yaml.Character
import VerboseExpr.Text.Utf8

/-!
Where the characters of a YAML document come from. Its bytes arrive in portions, and characters are
read from them only when somebody asks for more than there are, so what is wrong with a portion counts
only if the reader gets that far. That no more bytes arrive is known only after one more attempt.
-/

namespace VerboseExpr.Yaml

inductive Encoding where
  | utf8
  /-- Two bytes a unit, and two units for a character past U+FFFF. -/
  | utf16 (bigEndian : Bool)
  deriving DecidableEq, Repr

/-- What some bytes begin with. -/
inductive Piece where
  | character (c : Char) (width : Nat)
  | incomplete
  | malformed
  deriving DecidableEq, Repr

namespace Encoding

/-- How many bytes a character takes in UTF-8 that begins with the given byte; zero if none does. -/
def utf8Width (b : UInt8) : Nat :=
  let n := b.toNat
  if n < 0x80 then 1
  else if n < 0xC0 then 0
  else if n < 0xE0 then 2
  else if n < 0xF0 then 3
  else if n < 0xF8 then 4
  else 0

def utf8Piece (b : UInt8) (rest : Bytes) : Piece :=
  let width := utf8Width b
  if width = 0 then .malformed
  else if rest.length + 1 < width then .incomplete
  else
    let u := Utf8.first b rest
    if u.valid then .character u.char width else .malformed

def unit16 (bigEndian : Bool) (a b : UInt8) : Nat :=
  if bigEndian then a.toNat * 0x100 + b.toNat else b.toNat * 0x100 + a.toNat

def utf16Piece (bigEndian : Bool) : Bytes → Piece
  | a :: b :: rest =>
    let high := unit16 bigEndian a b
    if 0xDC00 ≤ high && high < 0xE000 then .malformed
    else if 0xD800 ≤ high && high < 0xDC00 then
      match rest with
      | c :: d :: _ =>
        let low := unit16 bigEndian c d
        if 0xDC00 ≤ low && low < 0xE000 then
          .character (Char.ofNat (0x10000 + (high - 0xD800) * 0x400 + (low - 0xDC00))) 4
        else .malformed
      | _ => .incomplete
    else .character (Char.ofNat high) 2
  | _ => .incomplete

def piece (e : Encoding) (b : UInt8) (rest : Bytes) : Piece :=
  match e with
  | utf8 => utf8Piece b rest
  | utf16 bigEndian => utf16Piece bigEndian (b :: rest)

/-- The characters that bytes write, and the bytes of an incomplete one at the end, which may stand
there only if more bytes can follow. Fails at a character that may not stand in a document. -/
def characters? (e : Encoding) (more : Bool) : Bytes → Option (List Char × Bytes)
  | [] => some ([], [])
  | b :: rest =>
    match e.piece b rest with
    | .character c width =>
      if isAllowed c then do
        let (cs, left) ← characters? e more (rest.drop (width - 1))
        some (c :: cs, left)
      else none
    | .incomplete => if more then some ([], b :: rest) else none
    | .malformed => none
termination_by bs => bs.length
decreasing_by simp only [List.length_drop, List.length_cons]; omega

/-- The encoding that the first bytes announce, and the bytes after the announcement. -/
def announced : Bytes → Encoding × Bytes
  | 0xFF :: 0xFE :: rest => (.utf16 false, rest)
  | 0xFE :: 0xFF :: rest => (.utf16 true, rest)
  | 0xEF :: 0xBB :: 0xBF :: rest => (.utf8, rest)
  | bs => (.utf8, bs)

end Encoding

/-- The characters of a document as far as they have been asked for. -/
structure Source where
  /-- The bytes that have not arrived. -/
  pending : Bytes
  /-- The bytes that have arrived and are not read. -/
  raw : Bytes := []
  encoding : Option Encoding := none
  /-- Is it known that no more bytes arrive? -/
  exhausted : Bool := false
  /-- The characters that have been read and not been used. -/
  window : List Char := []
  /-- The character that stood first when the last portion was read. -/
  front : Char := endMark

namespace Source

/-- How many bytes arrive at once at most. -/
def portion : Nat := 512

/-- A source of the given bytes. An empty document is an empty line. -/
def ofBytes (data : Bytes) : Source := { pending := if data.isEmpty then [0x0A] else data }

/-- Waits for the next portion. -/
def load (s : Source) : Source :=
  if s.exhausted then s
  else if s.pending.isEmpty then { s with exhausted := true }
  else
    let n := portion - s.raw.length
    { s with raw := s.raw ++ s.pending.take n, pending := s.pending.drop n }

/-- The source with its encoding, for which three bytes have to have arrived if there are as many. -/
def detect (s : Source) : Source :=
  if s.encoding.isSome then s
  else
    let s := s.load
    let s := if s.raw.length < 3 then s.load else s
    let (encoding, raw) := Encoding.announced s.raw
    { s with encoding := some encoding, raw := raw }

def hasLength {α : Type} : Nat → List α → Bool
  | 0, _ => true
  | _ + 1, [] => false
  | n + 1, _ :: rest => hasLength n rest

/-- Reads portions until there are `n` characters. After the last portion there is one more character
that stands for the end. -/
def fill? (n : Nat) (s : Source) : (fuel : Nat) → Option Source
  | 0 => none
  | fuel + 1 => do
    let s := if s.raw.isEmpty then s.load else s
    let (cs, raw) ← (s.encoding.getD .utf8).characters? (!s.exhausted) s.raw
    let s := { s with window := s.window ++ cs, raw := raw }
    if s.exhausted then some { s with window := s.window ++ [endMark] }
    else if hasLength n s.window then some s
    else fill? n s.load fuel

def need? (s : Source) (n : Nat) : Option Source :=
  if hasLength n s.window then some s
  else do
    let s := s.detect
    let s ← s.fill? n (s.pending.length + 3)
    some { s with front := s.window.headD endMark }

def peek (s : Source) (k : Nat) : Char := s.window.getD k endMark

def drop (s : Source) (k : Nat) : Source := { s with window := s.window.drop k }

end Source

end VerboseExpr.Yaml
