import VerboseExpr.Config.Toml.Syntax
import VerboseExpr.Text.Numeral
import VerboseExpr.Text.Quoted

namespace VerboseExpr.Toml

def escaped? (c : Char) : Option Char :=
  match c with
  | 'b' => some (Char.ofNat 0x08)
  | 't' => some '\t'
  | 'n' => some '\n'
  | 'f' => some (Char.ofNat 0x0C)
  | 'r' => some '\r'
  | '"' | '\\' => some c
  | _ => none

def escapeWidth? (c : Char) : Option Nat :=
  if c = 'u' then some 4 else if c = 'U' then some 8 else none

def numbered? (width : Nat) (cs : List Char) : Option Char := do
  if cs.length < width then none
  let n ← Numeral.number? 16 (cs.take width)
  if Quoted.isScalar n then some (Char.ofNat n) else none

def basic? : List Char → Option (List Char × List Char)
  | [] => none
  | c :: rest =>
    if c = '"' then some ([], rest)
    else if isBreak c then none
    else if c ≠ '\\' then (basic? rest).map fun (t, r) => (c :: t, r)
    else
      match rest with
      | [] => none
      | e :: more =>
        match escapeWidth? e with
        | some width => do
          let x ← numbered? width more
          let (t, r) ← basic? (more.drop width)
          some (x :: t, r)
        | none => do
          let x ← escaped? e
          let (t, r) ← basic? more
          some (x :: t, r)
termination_by cs => cs.length
decreasing_by all_goals simp only [List.length_cons, List.length_drop]; omega

def literal? : List Char → Option (List Char × List Char)
  | [] => none
  | c :: rest =>
    if c = '\'' then some ([], rest)
    else if isBreak c then none
    else (literal? rest).map fun (t, r) => (c :: t, r)

/-- A text on several lines does not begin with a line break. -/
def dropFirstBreak : List Char → List Char
  | '\n' :: rest => rest
  | '\r' :: '\n' :: rest => rest
  | cs => cs

/-- The end of a text on several lines, from the first of `count` quotes on: three quotes end it, and
up to two more right before them belong to the text. -/
def closing? (quote : Char) (count : Nat) (rest : List Char) : Option (List Char × List Char) :=
  if count < 6 then some (List.replicate (count - 3) quote, rest) else none

/-- The text up to three double quotes. `quotes` counts the quotes right before. -/
def multiBasic? (quotes : Nat) : List Char → Option (List Char × List Char)
  | [] => if quotes < 3 then none else closing? '"' quotes []
  | c :: rest =>
    if c = '"' then multiBasic? (quotes + 1) rest
    else if 3 ≤ quotes then closing? '"' quotes (c :: rest)
    else
      let before := List.replicate quotes '"'
      if c ≠ '\\' then (multiBasic? 0 rest).map fun (t, r) => (before ++ c :: t, r)
      else
        match rest with
        | [] => none
        | e :: more =>
          if isSpace e then
            let blanks := (e :: more).takeWhile isSpace
            if blanks.contains '\n' then
              (multiBasic? 0 ((e :: more).drop blanks.length)).map fun (t, r) => (before ++ t, r)
            else none
          else
            match escapeWidth? e with
            | some width => do
              let x ← numbered? width more
              let (t, r) ← multiBasic? 0 (more.drop width)
              some (before ++ x :: t, r)
            | none => do
              let x ← escaped? e
              let (t, r) ← multiBasic? 0 more
              some (before ++ x :: t, r)
termination_by cs => cs.length
decreasing_by all_goals simp only [List.length_cons, List.length_drop]; omega

/-- The text up to three single quotes. `quotes` counts the quotes right before. -/
def multiLiteral? (quotes : Nat) : List Char → Option (List Char × List Char)
  | [] => if quotes < 3 then none else closing? '\'' quotes []
  | c :: rest =>
    if c = '\'' then multiLiteral? (quotes + 1) rest
    else if 3 ≤ quotes then closing? '\'' quotes (c :: rest)
    else
      (multiLiteral? 0 rest).map fun (t, r) => (List.replicate quotes '\'' ++ c :: t, r)

/-- A text that begins with a quote, in any of the four forms. -/
def text? : List Char → Option (List Char × List Char)
  | '"' :: '"' :: '"' :: rest => multiBasic? 0 (dropFirstBreak rest)
  | '\'' :: '\'' :: '\'' :: rest => multiLiteral? 0 (dropFirstBreak rest)
  | '"' :: rest => basic? rest
  | '\'' :: rest => literal? rest
  | _ => none

end VerboseExpr.Toml
