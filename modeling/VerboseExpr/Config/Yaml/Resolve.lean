import VerboseExpr.Text.Numeral

namespace VerboseExpr.Yaml

open Numeral

inductive Value where
  | null
  | bool (b : Bool)
  | int (n : Int)
  | float
  | timestamp
  | text
  deriving DecidableEq, Repr

namespace Value

def isInt : Value → Bool
  | int _ => true
  | _ => false

/-- Is it an integer that fits into 64 bits with a sign? -/
def isWord : Value → Bool
  | int n => n < Nat.pow 2 63
  | _ => false

end Value

/-- A number with the prefix of its base: `0x`, `0o`, `0b`, a leading zero for octal, or none. -/
def prefixedNumber? (cs : List Char) : Option Nat :=
  match cs with
  | '0' :: c :: rest =>
    if c = 'x' || c = 'X' then number? 16 rest
    else if c = 'o' || c = 'O' then number? 8 rest
    else if c = 'b' || c = 'B' then number? 2 rest
    else number? 8 (c :: rest)
  | _ => number? 10 cs

/-- The integer with a sign, if it fits into 64 bits. Only one without a sign may need all of them. -/
def signed? (negative : Option Bool) (n : Nat) : Option Int :=
  match negative with
  | none => if n < Nat.pow 2 64 then some n else none
  | some false => if n < Nat.pow 2 63 then some n else none
  | some true => if n ≤ Nat.pow 2 63 then some (-n) else none

/-- The integer that a text writes. A base prefix may also stand before the sign. -/
def int? (cs : List Char) : Option Int :=
  let (negative, digits) := sign cs
  ((prefixedNumber? digits).bind (signed? negative)).or <|
    match cs with
    | '0' :: 'b' :: rest => let (s, ds) := sign rest; (number? 2 ds).bind (signed? s)
    | '0' :: 'o' :: rest => let (s, ds) := sign rest; (number? 8 ds).bind (signed? s)
    | _ => none

def shortNumber? (cs : List Char) : Option (Nat × List Char) :=
  let ds := (cs.take 2).takeWhile Char.isDigit
  (number? 10 ds).map (·, cs.drop ds.length)

def date? (cs : List Char) : Option (List Char) := do
  let year ← number? 10 (cs.takeWhile Char.isDigit)
  if (cs.takeWhile Char.isDigit).length ≠ 4 then none
  let '-' :: cs := cs.drop 4 | none
  let (month, cs) ← shortNumber? cs
  let '-' :: cs := cs | none
  let (day, cs) ← shortNumber? cs
  if 1 ≤ month && month ≤ 12 && 1 ≤ day && day ≤ daysIn year month then some cs else none

def time? (cs : List Char) : Option (List Char) := do
  let (hour, cs) ← shortNumber? cs
  let ':' :: cs := cs | none
  let (minute, cs) ← shortNumber? cs
  let ':' :: cs := cs | none
  let (second, cs) ← shortNumber? cs
  if 24 ≤ hour || 60 ≤ minute || 60 ≤ second then none
  match cs with
  | c :: d :: rest =>
    if (c = '.' || c = ',') && d.isDigit then some (rest.dropWhile Char.isDigit) else some cs
  | _ => some cs

def isZone (cs : List Char) : Bool :=
  match cs with
  | ['Z'] => true
  | [s, a, b, ':', c, d] =>
    (s = '+' || s = '-') && (number? 10 [a, b]).any (· ≤ 24) && (number? 10 [c, d]).any (· ≤ 60)
  | _ => false

/-- Is the text a date, with or without a time of day? Any number of blanks may stand between them. -/
def isTimestamp (cs : List Char) : Bool :=
  match date? cs with
  | none => false
  | some [] => true
  | some (c :: rest) =>
    if c = 'T' || c = 't' then (time? rest).any isZone
    else c = ' ' && (time? (rest.dropWhile (· = ' '))).any List.isEmpty

def withoutSeparators (cs : List Char) : List Char := cs.filter (· ≠ '_')

/-- Does every underscore stand between two digits? The first argument says whether a digit stands
before the text. -/
def separatorsFit (digitBefore : Bool) : List Char → Bool
  | [] => true
  | '_' :: rest => digitBefore && rest.head?.any Char.isDigit && separatorsFit false rest
  | c :: rest => separatorsFit c.isDigit rest

def word? (s : String) : Option Value :=
  if ["", "~", "null", "Null", "NULL"].contains s then some .null
  else if ["true", "True", "TRUE"].contains s then some (.bool true)
  else if ["false", "False", "FALSE"].contains s then some (.bool false)
  else if [".nan", ".NaN", ".NAN", ".inf", ".Inf", ".INF", "+.inf", "+.Inf", "+.INF", "-.inf",
      "-.Inf", "-.INF"].contains s then some .float
  else none

def resolve (cs : List Char) : Value :=
  match word? (String.ofList cs) with
  | some v => v
  | none =>
    match cs with
    | [] => .null
    | '.' :: _ => if isFloat (withoutSeparators cs) && separatorsFit false cs then .float else .text
    | c :: _ =>
      if c.isDigit || c = '+' || c = '-' then
        let digits := withoutSeparators cs
        if isTimestamp cs then .timestamp
        else
          match int? digits with
          | some n => .int n
          | none => if isFloat digits then .float else .text
      else .text

def oldBools : List String :=
  ["y", "Y", "yes", "Yes", "YES", "on", "On", "ON", "n", "N", "no", "No", "NO", "off", "Off", "OFF"]

/-- The old truth values that still count where a truth value is wanted. -/
def oldBool? (s : String) : Option Bool :=
  if ["y", "Y", "yes", "on"].contains s then some true
  else if ["n", "N", "no", "off"].contains s then some false
  else none

def isSixtieth : List Char → Bool
  | [a] => a.isDigit
  | [a, b] => a.isDigit && a ≤ '5' && b.isDigit
  | _ => false

/-- Is the text a number in base sixty, as older readers know it: digits, groups after colons, and
perhaps a fraction? -/
def isSexagesimal (cs : List Char) : Bool :=
  let body := (sign cs).2
  let whole := body.takeWhile (· != '.')
  let fraction := (body.drop whole.length).drop 1
  match whole.splitOnP (· == ':') with
  | first :: groups =>
    first.head?.any Char.isDigit && first.all (fun c => c.isDigit || c = '_') &&
      !groups.isEmpty && groups.all isSixtieth && fraction.all fun c => c.isDigit || c = '_'
  | [] => false

end VerboseExpr.Yaml
