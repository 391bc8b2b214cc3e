import VerboseExpr.Generated.Identifier
import VerboseExpr.Text.Quoted
import VerboseExpr.Unicode.Space

/-!
The lexemes of Go text, as far as names and the head of a file need them: words, quoted texts, a few
marks, and comments. A line break ends a statement where one can end, and is a blank elsewhere.

Comments are no lexemes: they are kept with the lexeme that follows them, so that a reader can pass
over them and a writer can put them back.
-/

namespace VerboseExpr.Generated

structure Comment where
  line : Nat
  /-- Does it end by itself, and not only with its line? -/
  closed : Bool
  text : Bytes
  deriving DecidableEq, Repr

inductive Lexeme where
  | word (text : Bytes)
  | quoted (text : Bytes)
  | dot
  | openGroup
  | closeGroup
  /-- The end of a statement, written as a semicolon or as a line break. -/
  | stop
  deriving DecidableEq, Repr

/-- A lexeme with its line and the comments that stand before it. -/
structure Placed where
  comments : List Comment
  line : Nat
  lexeme : Lexeme
  deriving DecidableEq, Repr

namespace Lexeme

def endsStatement : Lexeme → Bool
  | word text => !keywords.contains text
  | quoted _ | closeGroup => true
  | dot | openGroup | stop => false

def ofMark? (c : Char) : Option Lexeme :=
  match c with
  | '.' => some dot
  | '(' => some openGroup
  | ')' => some closeGroup
  | ';' => some stop
  | _ => none

end Lexeme

def isLineBlank (c : Char) : Bool := c == ' ' || c == '\t' || c == '\r'

def dropReturns (cs : List Char) : List Char := cs.filter (· != '\r')

def trimEnd (cs : List Char) : List Char := (cs.reverse.dropWhile Unicode.isSpace).reverse

/-- The characters before the first `*/`, if it stands on the same line. -/
def beforeClose? : List Char → Option (List Char)
  | [] => none
  | '*' :: '/' :: _ => some []
  | c :: rest => if c = '\n' then none else (beforeClose? rest).map (c :: ·)

/-- The comment that follows a slash, and the number of characters it takes. -/
def comment? (line : Nat) (rest : List Char) : Option (Comment × Nat) :=
  match rest with
  | '/' :: body =>
    let text := body.takeWhile (· ≠ '\n')
    some (⟨line, false, Bytes.ofChars ('/' :: '/' :: trimEnd (dropReturns text))⟩, text.length + 1)
  | '*' :: body => do
    let text ← beforeClose? body
    return (⟨line, true, Bytes.ofChars ('/' :: '*' :: dropReturns text ++ ['*', '/'])⟩,
      text.length + 3)
  | _ => none

/-- The quoted text that follows a quote, and the number of characters it takes. Between back quotes
a backslash is an ordinary character. -/
def quoted? (quote : Char) (rest : List Char) : Option (Bytes × Nat) := do
  let body := rest.takeWhile (· ≠ quote)
  if body.length = rest.length then none
  let text ←
    if quote = '"' then (Quoted.decode? (Bytes.ofChars ('"' :: body ++ ['"']))).map (·.1)
    else some (Bytes.ofChars (dropReturns body))
  return (text, body.length + 1)

/-- The lexeme that begins with the character `c`, and the number of further characters it takes. -/
def lexeme? (c : Char) (rest : List Char) : Option (Lexeme × Nat) :=
  if isInitial c then
    let more := rest.takeWhile isNameChar
    some (.word (Bytes.ofChars (c :: more)), more.length)
  else if c = '"' || c = '\x60' then (quoted? c rest).map fun (text, n) => (.quoted text, n)
  else (Lexeme.ofMark? c).map (·, 0)

/-- The lexemes of some characters, and the comments after the last. `canStop` says whether a line
break would end a statement, and `comments` are those since the last lexeme. Comments before the end
of a statement go to the lexeme after it. -/
def lexemesFrom? (line : Nat) (canStop : Bool) (comments : List Comment) :
    List Char → Option (List Placed × List Comment)
  | [] => some ([], comments)
  | c :: rest =>
    if c = '\n' then do
      let (ls, last) ← lexemesFrom? (line + 1) false comments rest
      return (if canStop then ⟨[], line, .stop⟩ :: ls else ls, last)
    else if isLineBlank c then lexemesFrom? line canStop comments rest
    else if c = '/' then do
      let (comment, n) ← comment? line rest
      lexemesFrom? line canStop (comments ++ [comment]) (rest.drop n)
    else do
      let (l, n) ← lexeme? c rest
      if l = .stop then
        let (ls, last) ← lexemesFrom? line false comments (rest.drop n)
        return (⟨[], line, l⟩ :: ls, last)
      else
        let (ls, last) ← lexemesFrom? line l.endsStatement [] (rest.drop n)
        return (⟨comments, line, l⟩ :: ls, last)
termination_by cs => cs.length
decreasing_by all_goals simp only [List.length_cons, List.length_drop]; omega

/-- Is the character allowed nowhere, not even in a comment? -/
def isForbidden (c : Char) : Bool := c == '\x00' || c == Char.ofNat 0xFEFF

def lexemes? (text : Bytes) : Option (List Placed × List Comment) :=
  let cs := Utf8.decode text
  if Utf8.isValid text && !cs.any isForbidden then lexemesFrom? 0 false [] cs else none

end VerboseExpr.Generated
