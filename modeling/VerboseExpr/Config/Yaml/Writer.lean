import VerboseExpr.Config.Basic
import VerboseExpr.Config.Yaml.Character
import VerboseExpr.Config.Yaml.Resolve

/-!
Writing settings as a YAML document: one key a line in a fixed order, and the inputs as an indented
list. A text is written plain if it then reads back as the same text, in quotes if it does not, and
as an indented block if it has several lines. Bytes that are no text are written in base 64.
-/

namespace VerboseExpr.Yaml

/-- May the character stand in a document as it is? Characters past U+FFFF are always escaped. -/
def isPrintable (c : Char) : Bool :=
  let n := c.toNat
  n = 0x0A || (0x20 ≤ n && n ≤ 0x7E) ||
    (0xA0 ≤ n && n < 0x10000 && n ≠ 0xFEFF && n ≠ 0xFFFE && n ≠ 0xFFFF)

def beginsMarker (cs : List Char) : Bool :=
  "---".toList.isPrefixOf cs || "...".toList.isPrefixOf cs

/-- Would the first character be read as syntax? -/
def beginsIndicator (cs : List Char) : Bool :=
  match cs with
  | [] => false
  | c :: rest =>
    let blankNext := rest.head?.all isBlank
    "#,[]\x7b\x7d&*!|>'\"%@\x60".toList.contains c ||
      ((c = '?' || c = ':' || c = '-') && blankNext)

/-- Would some later character be read as syntax: a colon before a blank or a hash after one? -/
def hasIndicator : List Char → Bool
  | c :: d :: rest =>
    (d = ':' && rest.head?.all isBlank) ||
      (d = '#' && (isBlank c || isBreak c || c.toNat = 0)) || hasIndicator (d :: rest)
  | _ => false

def hasPair (p q : Char → Bool) (cs : List Char) : Bool :=
  (cs.zip (cs.drop 1)).any fun (c, d) => p c && q d

def isSpecial (c : Char) : Bool := c ≠ '\t' && !isPrintable c

def plainAllowed (cs : List Char) : Bool :=
  !cs.head?.any (· = ' ') && !cs.getLast?.any (· = ' ') && !cs.any isBreak && !cs.any (· = '\t') &&
    !cs.any isSpecial && !beginsMarker cs && !beginsIndicator cs && !hasIndicator cs

def singleAllowed (cs : List Char) : Bool :=
  !hasPair isBreak (· = ' ') cs && !hasPair (· = ' ') isBreak cs && !cs.any (· = '\t') &&
    !cs.any isSpecial

def blockAllowed (cs : List Char) : Bool :=
  !cs.isEmpty && !cs.getLast?.any (· = ' ') && !hasPair (· = ' ') isBreak cs && !cs.any isSpecial

inductive Style where
  | plain
  | singleQuoted
  | doubleQuoted
  | block
  deriving DecidableEq, Repr

/-- Would the text, written plain, be read as something else, by this reader or an older one? -/
def isAmbiguous (cs : List Char) : Bool :=
  resolve cs ≠ .text || isSexagesimal cs || oldBools.contains (String.ofList cs)

/-- The style for a text. Text with a tag of its own is never ambiguous. -/
def styleOf (tagged : Bool) (cs : List Char) : Style :=
  if cs.contains '\n' then if blockAllowed cs then .block else .doubleQuoted
  else if !tagged && isAmbiguous cs then .doubleQuoted
  else if plainAllowed cs then .plain
  else if singleAllowed cs then .singleQuoted
  else .doubleQuoted

def spaces (n : Nat) : List Char := List.replicate n ' '

/-- The text between single quotes. What follows a line break is indented. -/
def singleBody (indent : Nat) (afterBreak : Bool) : List Char → List Char
  | [] => []
  | c :: rest =>
    if isBreak c then c :: singleBody indent true rest
    else if c = ' ' then c :: singleBody indent afterBreak rest
    else
      (if afterBreak then spaces indent else []) ++ (if c = '\'' then ['\'', '\''] else [c]) ++
        singleBody indent false rest

def hexChars (width n : Nat) : List Char :=
  (Bytes.hexUpper width n).map fun b => Char.ofNat b.toNat

def escape (c : Char) : List Char :=
  let n := c.toNat
  '\\' :: match n with
    | 0x00 => ['0']
    | 0x07 => ['a']
    | 0x08 => ['b']
    | 0x09 => ['t']
    | 0x0A => ['n']
    | 0x0B => ['v']
    | 0x0C => ['f']
    | 0x0D => ['r']
    | 0x1B => ['e']
    | 0x22 => ['"']
    | 0x5C => ['\\']
    | 0x85 => ['N']
    | 0xA0 => ['_']
    | 0x2028 => ['L']
    | 0x2029 => ['P']
    | _ =>
      if n ≤ 0xFF then 'x' :: hexChars 2 n
      else if n ≤ 0xFFFF then 'u' :: hexChars 4 n
      else 'U' :: hexChars 8 n

/-- The text between double quotes. If it begins with the mark of the byte order, every character is
escaped. -/
def doubleBody (cs : List Char) : List Char :=
  let marked := cs.head? = some byteOrderMark
  cs.flatMap fun c =>
    if marked || !isPrintable c || isBreak c || c = '"' || c = '\\' then escape c else [c]

/-- How a block says that its first line is indented or empty, and what to do with the line breaks
at its end. -/
def blockHeader (cs : List Char) : List Char :=
  let hint := if cs.head?.any fun c => c = ' ' || isBreak c then ['4'] else []
  let chomp :=
    match cs.reverse with
    | [] => ['-']
    | [c] => if isBreak c then ['+'] else ['-']
    | c :: d :: _ => if !isBreak c then ['-'] else if isBreak d then ['+'] else []
  '|' :: hint ++ chomp

/-- The lines of a block. `fresh` says whether the line is new and has no indentation yet, and `open_`
whether the line of the header still has to be ended. -/
def blockBody (indent : Nat) (fresh open_ : Bool) : List Char → List Char
  | [] => []
  | c :: rest =>
    if isBreak c then c :: blockBody indent true false rest
    else
      (if fresh then (if open_ then ['\n'] else []) ++ spaces indent else []) ++ c ::
        blockBody indent false false rest

/-- A text in its style with the end of the line. A block that ends in a line break needs none. -/
def scalarLine (indent : Nat) (tagged : Bool) (cs : List Char) : List Char :=
  match styleOf tagged cs with
  | .plain => cs ++ ['\n']
  | .singleQuoted => '\'' :: singleBody indent false cs ++ ['\'', '\n']
  | .doubleQuoted => '"' :: doubleBody cs ++ ['"', '\n']
  | .block =>
    blockHeader cs ++ blockBody indent true true cs ++
      if cs.getLast?.any isBreak then [] else ['\n']

def base64Digits : List Char :=
  "ABCDEFGHIJKLMNOPQRSTUVWXYZabcdefghijklmnopqrstuvwxyz0123456789+/".toList

def base64Digit (n : Nat) : Char := base64Digits.getD (n % 64) 'A'

def base64 : Bytes → List Char
  | [] => []
  | [a] =>
    let n := a.toNat * 16
    [base64Digit (n / 64), base64Digit n, '=', '=']
  | [a, b] =>
    let n := (a.toNat * 256 + b.toNat) * 4
    [base64Digit (n / 4096), base64Digit (n / 64), base64Digit n, '=']
  | a :: b :: c :: rest =>
    let n := (a.toNat * 256 + b.toNat) * 256 + c.toNat
    base64Digit (n / 262144) :: base64Digit (n / 4096) :: base64Digit (n / 64) :: base64Digit n ::
      base64 rest

/-- Lines of seventy characters, each with its end. -/
def wrapLines (cs : List Char) : List Char :=
  if cs.isEmpty then []
  else cs.take 70 ++ '\n' :: wrapLines (cs.drop 70)
termination_by cs.length
decreasing_by
  rename_i h
  have : cs.length ≠ 0 := fun h' => h (List.isEmpty_iff_length_eq_zero.2 h')
  rw [List.length_drop]
  omega

/-- Bytes in base 64, on several lines if one is not enough. -/
def base64Text (b : Bytes) : List Char :=
  let cs := base64 b
  if cs.length < 70 then cs else wrapLines cs

def valueLine (indent : Nat) (b : Bytes) : List Char :=
  if Utf8.isValid b then scalarLine indent false (Utf8.decode b)
  else "!!binary ".toList ++ scalarLine indent true (base64Text b)

def textEntry (key : String) (b : Bytes) : List Char := key.toList ++ ": ".toList ++ valueLine 4 b

def boolEntry (key : String) (b : Bool) : List Char :=
  key.toList ++ (if b then ": true\n" else ": false\n").toList

def write (c : Config) : Bytes :=
  Bytes.ofChars <|
    textEntry "name" c.name ++ textEntry "package" c.package ++ textEntry "output" c.output ++
      textEntry "engine" c.engine ++ boolEntry "verbose" c.verbose ++
      boolEntry "no_color" c.noColor ++ boolEntry "test_file" c.testFile ++
      if c.inputs.isEmpty then []
      else "inputs:\n".toList ++ c.inputs.flatMap fun i => "    - ".toList ++ valueLine 6 i

end VerboseExpr.Yaml
