import VerboseExpr.Config.Toml.Syntax
import VerboseExpr.Text.Numeral

namespace VerboseExpr.Toml

open Numeral

/-- Does every underscore stand between digits, and is the last character a digit? `after` says whether
a digit came right before. -/
def underscoresFit (after : Bool) : List Char → Bool
  | [] => after
  | c :: rest => (c != '_' || after) && underscoresFit (isDigitOf 16 c) rest

def hasLeadingZero (cs : List Char) : Bool :=
  match cs with
  | '0' :: c :: _ => !(['b', 'o', 'x'].contains c)
  | s :: '0' :: _ :: _ => s = '+' || s = '-'
  | _ => false

/-- Is the text an integer of 64 bits? -/
def isInteger (cs : List Char) : Bool :=
  let digits := cs.filter (· != '_')
  underscoresFit false cs && !hasLeadingZero cs &&
    match digits with
    | '0' :: 'x' :: ds => (number? 16 ds).any (· < Nat.pow 2 63)
    | '0' :: 'o' :: ds => (number? 8 ds).any (· < Nat.pow 2 63)
    | '0' :: 'b' :: ds => (number? 2 ds).any (· < Nat.pow 2 63)
    | _ =>
      let (negative, ds) := sign digits
      (number? 10 ds).any fun n => if negative = some true then n ≤ Nat.pow 2 63 else n < Nat.pow 2 63

def pointsFit : List Char → Bool
  | [] => true
  | '.' :: rest => rest.head?.any Char.isDigit && pointsFit rest
  | _ :: rest => pointsFit rest

def dividesParts (c : Char) : Bool := c = '.' || c = 'e' || c = 'E'

/-- Is the text a decimal number with a fraction or an exponent? -/
def isDecimal (cs : List Char) : Bool :=
  let parts := (cs.splitOnP dividesParts).filter (!·.isEmpty)
  parts.all (underscoresFit false) && !parts.head?.any hasLeadingZero && pointsFit cs &&
    isFloat (cs.filter (· != '_'))

def fixedNumber? (width : Nat) (cs : List Char) : Option (Nat × List Char) :=
  let ds := cs.take width
  if ds.length = width && ds.all Char.isDigit then (number? 10 ds).map (·, cs.drop width) else none

def date? (cs : List Char) : Option (List Char) := do
  let (year, cs) ← fixedNumber? 4 cs
  let '-' :: cs := cs | none
  let (month, cs) ← fixedNumber? 2 cs
  let '-' :: cs := cs | none
  let (day, cs) ← fixedNumber? 2 cs
  if 1 ≤ month && month ≤ 12 && 1 ≤ day && day ≤ daysIn year month then some cs else none

def clock? (cs : List Char) : Option (List Char) := do
  let (hour, cs) ← fixedNumber? 2 cs
  let ':' :: cs := cs | none
  let (minute, cs) ← fixedNumber? 2 cs
  let ':' :: cs := cs | none
  let (second, cs) ← fixedNumber? 2 cs
  if 24 ≤ hour || 60 ≤ minute || 60 ≤ second then none
  match cs with
  | '.' :: d :: rest => if d.isDigit then some (rest.dropWhile Char.isDigit) else some cs
  | _ => some cs

/-- Is the text a distance from the universal time, or nothing? -/
def isOffset (cs : List Char) : Bool :=
  match cs with
  | [] => true
  | ['Z'] => true
  | [s, a, b, ':', c, d] =>
    (s = '+' || s = '-') && (number? 10 [a, b]).any (· ≤ 24) && (number? 10 [c, d]).any (· ≤ 60)
  | _ => false

def isTime (cs : List Char) : Bool :=
  let cs := cs.map fun c => if c = 'z' then 'Z' else if c = 't' || c = ' ' then 'T' else c
  match date? cs with
  | some [] => true
  | some ('T' :: rest) => (clock? rest).any isOffset
  | some _ => false
  | none => (clock? cs).any List.isEmpty

def isTimeChar (c : Char) : Bool := c.isDigit || "-:Tt .Zz+".toList.contains c

def isDecimalChar (c : Char) : Bool := c.isDigit || "_.-+eE".toList.contains c

def trimRight (cs : List Char) : List Char := (cs.reverse.dropWhile (· = ' ')).reverse

/-- A number after its sign, if it has one, or a time. -/
def signedNumber? (sign cs : List Char) : Option (Value × List Char) :=
  let ds := cs.takeWhile Char.isDigit
  let ok (b : Bool) (v : Value) (cs : List Char) : Option (Value × List Char) :=
    if b then some (v, cs) else none
  match cs.drop ds.length with
  | c :: rest =>
    if sign.isEmpty && (c = '-' || c = ':') then
      let t := cs.takeWhile isTimeChar
      ok (isTime (trimRight t)) .time (cs.drop t.length)
    else if sign.isEmpty && ds = ['0'] && ['b', 'o', 'x'].contains c then
      let base := if c = 'x' then 16 else if c = 'o' then 8 else 2
      let t := rest.takeWhile fun d => isDigitOf base d || d = '_'
      ok (t.head? ≠ some '_' && isInteger ('0' :: c :: t)) .number (rest.drop t.length)
    else
      let whole := cs.takeWhile fun d => d.isDigit || d = '_'
      match cs.drop whole.length with
      | d :: _ =>
        if dividesParts d then
          let t := cs.takeWhile isDecimalChar
          ok (isDecimal (sign ++ t)) .number (cs.drop t.length)
        else ok (isInteger (sign ++ whole)) .number (cs.drop whole.length)
      | [] => ok (isInteger (sign ++ whole)) .number []
  | [] => ok (isInteger (sign ++ ds)) .number []

/-- A number, a time, an infinity or a value that is no number. -/
def numberOrTime? : List Char → Option (Value × List Char)
  | 'i' :: 'n' :: 'f' :: rest => some (.number, rest)
  | 'n' :: 'a' :: 'n' :: rest => some (.number, rest)
  | c :: rest =>
    if c = '+' || c = '-' then
      match rest with
      | 'i' :: 'n' :: 'f' :: more => some (.number, more)
      | 'n' :: 'a' :: 'n' :: more => some (.number, more)
      | d :: _ => if d.isDigit then signedNumber? [c] rest else none
      | [] => none
    else if c.isDigit then signedNumber? [] (c :: rest)
    else none
  | [] => none

end VerboseExpr.Toml
