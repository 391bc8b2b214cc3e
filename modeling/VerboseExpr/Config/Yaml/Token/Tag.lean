import VerboseExpr.Config.Yaml.Token.Basic
import VerboseExpr.Config.Yaml.Token.Scalar

namespace VerboseExpr.Yaml.Scan

def anchorName : Scan (List Char) := do
  skip
  let name ← takeWhile isNameChar
  let c ← peek 0
  if name.isEmpty then failure
  if isGap c || "?:,]\x7d%@\x60".toList.contains c then return name else failure

def escapedByte : Scan UInt8 := do
  need 3
  if (← take) ≠ '%' then failure
  return (← hexNumber 0 2).toUInt8

/-- Reads so many escaped bytes, each of which continues a character. -/
def escapedTail : Nat → Scan Bytes
  | 0 => return []
  | n + 1 => do
    let b ← escapedByte
    if Utf8.between 0x80 0xBF b then return b :: (← escapedTail n) else failure

/-- Reads an escaped character, byte by byte. Only the form of its bytes counts. -/
def escapedCharacter : Scan Bytes := do
  let b ← escapedByte
  let width := Encoding.utf8Width b
  if width = 0 then failure
  return b :: (← escapedTail (width - 1))

def tagText (read : Bytes) : (fuel : Nat) → Scan Bytes
  | 0 => failure
  | fuel + 1 => do
    need 1
    let c ← peek 0
    if !isTagChar c then return read
    let b ← if c = '%' then escapedCharacter else do skip; pure (Bytes.ofChar c)
    tagText (read ++ b) fuel

def tagUri : Scan Bytes := do
  let text ← tagText [] (← get).size
  if text.isEmpty then failure else return text

/-- Reads the handle of a tag: an exclamation mark, or a name between two of them. Without a second
mark the name may belong to the rest of the tag. -/
def tagHandle : Scan (List Char) := do
  need 1
  if (← take) ≠ '!' then failure
  let name ← takeWhile isNameChar
  if (← peek 0) = '!' then
    skip
    return '!' :: name ++ ['!']
  else return '!' :: name

/-- Reads a tag in one of the forms `!<full>`, `!handle!rest` and `!rest`. -/
def tag : Scan Token := do
  need 2
  let t ←
    if (← peek 1) = '<' then do
      skips 2
      let text ← tagUri
      if (← take) ≠ '>' then failure
      pure (Token.tag [] text)
    else do
      let handle ← tagHandle
      if 1 < handle.length && handle.getLast? = some '!' then
        pure (Token.tag (Bytes.ofChars handle) (← tagUri))
      else
        let text ← tagText (Bytes.ofChars (handle.drop 1)) (← get).size
        pure (if text.isEmpty then Token.tag [] "!" else Token.tag "!" text)
  need 1
  if isGap (← peek 0) then return t else failure

def versionPart : Scan (List Char) := do
  let digits ← takeWhile Char.isDigit
  if digits.isEmpty || 2 < digits.length then failure else return digits

def directiveValue (name : String) : Scan Directive := do
  skipWhile isBlank
  match name with
  | "YAML" =>
    let major ← versionPart
    if (← take) ≠ '.' then failure
    return .version major (← versionPart)
  | "TAG" =>
    let handle ← tagHandle
    if handle.getLast? ≠ some '!' then failure
    need 1
    if !isBlank (← peek 0) then failure
    skipWhile isBlank
    let expansion ← tagUri
    if !isGap (← peek 0) then failure
    return .tag (Bytes.ofChars handle) expansion
  | _ => failure

def directive : Scan Directive := do
  skip
  let name ← takeWhile isNameChar
  if name.isEmpty || !isGap (← peek 0) then failure
  let d ← directiveValue (String.ofList name)
  skipWhile isBlank
  if (← peek 0) = '#' then skipWhile (!isLineEnd ·)
  if !isLineEnd (← peek 0) then failure
  if isBreak (← peek 0) then skipLine
  return d

end VerboseExpr.Yaml.Scan
