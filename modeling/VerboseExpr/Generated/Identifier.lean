import VerboseExpr.Text.Utf8
import VerboseExpr.Unicode.Digit
import VerboseExpr.Unicode.Letter
import VerboseExpr.Unicode.Upper

namespace VerboseExpr.Generated

def isInitial (c : Char) : Bool := c == '_' || Unicode.isLetter c

def isNameChar (c : Char) : Bool := isInitial c || Unicode.isDigit c

def isIdentifier (b : Bytes) : Bool :=
  match Utf8.decode b with
  | [] => false
  | c :: rest => isInitial c && rest.all isNameChar

def keywords : List Bytes :=
  ["break", "case", "chan", "const", "continue", "default", "defer", "else", "fallthrough", "for",
    "func", "go", "goto", "if", "import", "interface", "map", "package", "range", "return",
    "select", "struct", "switch", "type", "var"]

def isDeclarable (b : Bytes) : Bool := isIdentifier b && !keywords.contains b

/-- The characters of an exported name. `begun` says whether the name has a character yet, and `upper`
whether one that cannot stand in a name came right before. A name that would begin with a digit gets a
letter in front. -/
def exportedChars (begun upper : Bool) : List Char → List Char
  | [] => []
  | c :: rest =>
    if isNameChar c then
      let name := (if upper then Unicode.toUpper c else c) :: exportedChars true false rest
      if !begun && Unicode.isDigit c then 'X' :: name else name
    else exportedChars begun true rest

/-- Makes an exported identifier of a free name: `email-address` becomes `EmailAddress`. -/
def exportedName (b : Bytes) : Bytes := Bytes.ofChars (exportedChars false true (Utf8.decode b))

def patternName (name : Bytes) : Bytes := name ++ Bytes.ofString "Pattern"

def sourceName (name : Bytes) : Bytes := name ++ Bytes.ofString "Source"

def matchName (name : Bytes) : Bytes := name ++ Bytes.ofString "MatchString"

def findName (name : Bytes) : Bytes := name ++ Bytes.ofString "FindString"

def testFileName (output : Bytes) : Bytes :=
  output.dropSuffix (Bytes.ofString ".go") ++ Bytes.ofString "_test.go"

end VerboseExpr.Generated
