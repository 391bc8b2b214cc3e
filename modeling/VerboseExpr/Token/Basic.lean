import VerboseExpr.Text.Bytes

namespace VerboseExpr

/-- A piece of the source with the offset of its first byte. A quotation keeps its delimiters. -/
structure Token where
  text : Bytes
  /-- The byte offset in the source, -1 for a token that is not from the source. -/
  offset : Int
  deriving DecidableEq, Repr

namespace Token

def isBlank (c : UInt8) : Bool := c == 0x20 || c == 0x09 || c == 0x0A || c == 0x0D

def isQuote (c : UInt8) : Bool := c == 0x27 || c == 0x22

def isBracket (c : UInt8) : Bool := c == 0x28 || c == 0x29 || c == 0x5B || c == 0x5D

def isWordByte (c : UInt8) : Bool := !isBlank c && !isQuote c && !isBracket c

def synthetic (text : Bytes) : Token := ⟨text, -1⟩

def isQuoted (t : Token) : Bool :=
  match t.text with
  | c :: _ => isQuote c
  | [] => false

def isOpen (t : Token) : Bool := t.text == [0x28] || t.text == [0x5B]

def isClose (t : Token) : Bool := t.text == [0x29] || t.text == [0x5D]

inductive Class where
  | quoted
  | openBracket
  | closeBracket
  | word
  deriving DecidableEq, Repr

def classify (t : Token) : Class :=
  if t.isQuoted then .quoted
  else if t.isOpen then .openBracket
  else if t.isClose then .closeBracket
  else .word

end Token

end VerboseExpr
