namespace VerboseExpr.Numeral

def isDigitOf (base : Nat) (c : Char) : Bool :=
  let v :=
    if c.isDigit then c.toNat - '0'.toNat
    else if 'a' ≤ c && c ≤ 'f' then c.toNat - 'a'.toNat + 10
    else if 'A' ≤ c && c ≤ 'F' then c.toNat - 'A'.toNat + 10
    else base
  v < base

/-- The number that some digits denote in the given base, if all of them are digits. -/
def number? (base : Nat) (cs : List Char) : Option Nat :=
  if cs.isEmpty || !cs.all (isDigitOf base) then none
  else some <| cs.foldl (fun n c =>
    let v :=
      if c.isDigit then c.toNat - '0'.toNat
      else if 'a' ≤ c then c.toNat - 'a'.toNat + 10 else c.toNat - 'A'.toNat + 10
    base * n + v) 0

/-- Splits off a sign. The first component says whether there is a minus, if there is a sign. -/
def sign (cs : List Char) : Option Bool × List Char :=
  match cs with
  | '-' :: rest => (some true, rest)
  | '+' :: rest => (some false, rest)
  | _ => (none, cs)

/-- The exponent part at the end of a decimal number: its value, or nothing if it is malformed. -/
def exponent? (cs : List Char) : Option Int :=
  match cs with
  | [] => some 0
  | c :: rest =>
    if c = 'e' || c = 'E' then
      let (negative, digits) := sign rest
      (number? 10 digits).map fun n => if negative = some true then -(n : Int) else n
    else none

/-- The least number that is too large for a 64-bit float. -/
def tooLarge : Nat := Nat.pow 2 1024 - Nat.pow 2 970

/-- Is `digits · 10^e` below the largest float? -/
def isFinite (digits : List Char) (e : Int) : Bool :=
  match number? 10 digits with
  | none => false
  | some n =>
    if n = 0 then true
    else if (digits.length : Int) + e < 300 then true
    else if 400 < e then false
    else n * Nat.pow 10 e.toNat < tooLarge * Nat.pow 10 (-e).toNat

/-- Is the text a decimal number with a point or an exponent, or a plain run of digits? -/
def isFloat (cs : List Char) : Bool :=
  let body := (sign cs).2
  let whole := body.takeWhile Char.isDigit
  match body.drop whole.length with
  | '.' :: rest =>
    let fraction := rest.takeWhile Char.isDigit
    (!whole.isEmpty || !fraction.isEmpty) &&
      (exponent? (rest.drop fraction.length)).any fun e =>
        isFinite (whole ++ fraction) (e - fraction.length)
  | rest => !whole.isEmpty && (exponent? rest).any (isFinite whole)

def daysIn (year month : Nat) : Nat :=
  if month = 2 then
    if year % 4 = 0 && (year % 100 ≠ 0 || year % 400 = 0) then 29 else 28
  else if [4, 6, 9, 11].contains month then 30 else 31

end VerboseExpr.Numeral
