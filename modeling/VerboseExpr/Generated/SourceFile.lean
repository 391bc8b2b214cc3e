import VerboseExpr.Generated.Name
import VerboseExpr.Matcher.Engine

namespace VerboseExpr.Generated

structure Case where
  input : Bytes
  found : Bool
  text : Bytes
  deriving DecidableEq, Repr

structure Declaration where
  source : Bytes
  pattern : Bytes
  name : Bytes
  package : Bytes
  engine : Engine
  cases : List Case := []
  deriving DecidableEq, Repr

def line (parts : List Bytes) : Bytes := parts.flatten ++ [0x0A]

def blank : Bytes := line []

def notice : List Bytes := [line ["// Code generated by verbex. DO NOT EDIT."], blank]

namespace Declaration

def imported (d : Declaration) : Bytes :=
  match d.engine with
  | .automaton => "\"regexp\""
  | .backtracking => "regexp2 \"github.com/dlclark/regexp2\""

def constructor (d : Declaration) (name : WrittenName) : Bytes :=
  match d.engine with
  | .automaton =>
    Bytes.ofString "regexp.MustCompile(" ++ name.bracketed "Pattern" ++ Bytes.ofString ")"
  | .backtracking =>
    Bytes.ofString "regexp2.MustCompile(" ++ name.bracketed "Pattern" ++
      Bytes.ofString ", regexp2.ECMAScript)"

def matchBody (d : Declaration) (name : WrittenName) : List Bytes :=
  match d.engine with
  | .automaton => [line ["\treturn", name.continued "\t", ".MatchString(input)"]]
  | .backtracking =>
    [line ["\tok, err :=", name.continued "\t\t", ".MatchString(input)"],
      line ["\treturn err == nil && ok"]]

def findBody (d : Declaration) (name : WrittenName) : List Bytes :=
  match d.engine with
  | .automaton =>
    [line ["\tloc :=", name.continued "\t\t", ".FindStringIndex(input)"],
      line ["\tif loc == nil \x7b"], line ["\t\treturn \"\", false"], line ["\t\x7d"],
      line ["\treturn input[loc[0]:loc[1]], true"]]
  | .backtracking =>
    [line ["\tm, err :=", name.continued "\t\t", ".FindStringMatch(input)"],
      line ["\tif err != nil || m == nil \x7b"], line ["\t\treturn \"\", false"], line ["\t\x7d"],
      line ["\treturn m.String(), true"]]

def constantLine (name text : Bytes) : Bytes := line ["const ", name, " = ", Quoted.encode text]

/-- The source file up to the constant that holds the expression. -/
def sourceHead (d : Declaration) (name : WrittenName) (heading : Heading) : Bytes :=
  List.flatten <|
    notice ++ [line [heading.layOut d.package d.imported], blank,
      name.remark "Source" " is the verbose expression" "Pattern" " was compiled from."]

/-- The source file between its two constants. -/
def sourceMiddle (name : WrittenName) : Bytes :=
  blank ++ name.remark "Pattern" " is the regular expression compiled from" "Source" "."

/-- The source file after the constant that holds the pattern. -/
def sourceTail (d : Declaration) (name : WrittenName) : Bytes :=
  List.flatten <|
    [blank, name.remark "" " is the compiled" "Pattern" ".",
      line ["var ", name.declared "", " = ", d.constructor name], blank,
      name.remark "MatchString" " reports whether input contains a match of" "Pattern" ".",
      line ["func ", name.declared "MatchString", "(input string) bool \x7b"]] ++
    d.matchBody name ++
    [line ["\x7d"], blank,
      name.remark "FindString" " returns the first match of" "Pattern" " in input.",
      line ["func ", name.declared "FindString", "(input string) (string, bool) \x7b"]] ++
    d.findBody name ++ [line ["\x7d"]]

/-- The source file, if it is well formed. The texts it holds cannot break it, only the names can. -/
def sourceFile? (d : Declaration) : Option Bytes := do
  let name ← WrittenName.read? d.name
  let heading ← Heading.read? d.package
  return d.sourceHead name heading ++ constantLine (name.declared "Source") d.source ++ sourceMiddle name ++
    constantLine (name.declared "Pattern") d.pattern ++ d.sourceTail name

def row (c : Case) : Bytes :=
  List.flatten ["\x7b", Quoted.encode c.input, ", ", Bytes.ofBool c.found, ", ",
    Quoted.encode c.text, "\x7d"]

def tableLine (cases : List Case) : Bytes :=
  line ["\t\x7d\x7b", Bytes.join (Bytes.ofString ", ") (cases.map row), "\x7d"]

/-- The input of the benchmark: that of the first case, or nothing. -/
def benchmarkInput : List Case → Bytes
  | [] => []
  | c :: _ => c.input

/-- The test file up to the rows of its table. -/
def testHead (d : Declaration) : Bytes :=
  List.flatten <|
    notice ++ [line ["package ", d.package], blank, line ["import \"testing\""], blank,
      line ["func Test", matchName d.name, "(t *testing.T) \x7b"],
      line ["\ttests := []struct \x7b"],
      line ["\t\tinput string"],
      line ["\t\twant  bool"],
      line ["\t\ttext  string"]]

/-- The test file between its table and the call that the benchmark repeats. -/
def testMiddle (d : Declaration) : Bytes :=
  let matcher := matchName d.name
  let find := findName d.name
  List.flatten [blank,
    line ["\tfor _, tt := range tests \x7b"],
    line ["\t\tif got := ", matcher, "(tt.input); got != tt.want \x7b"],
    line ["\t\t\tt.Errorf(\"", matcher, "(%q) = %v, want %v\", tt.input, got, tt.want)"],
    line ["\t\t\x7d"],
    line ["\t\tif got, _ := ", find, "(tt.input); got != tt.text \x7b"],
    line ["\t\t\tt.Errorf(\"", find, "(%q) = %q, want %q\", tt.input, got, tt.text)"],
    line ["\t\t\x7d"],
    line ["\t\x7d"],
    line ["\x7d"], blank,
    line ["func Benchmark", matcher, "(b *testing.B) \x7b"],
    line ["\tfor i := 0; i < b.N; i++ \x7b"]]

def callLine (d : Declaration) (input : Bytes) : Bytes :=
  line ["\t\t", matchName d.name, "(", Quoted.encode input, ")"]

def testTail : Bytes := line ["\t\x7d"] ++ line ["\x7d"]

def testFile (d : Declaration) : Bytes :=
  d.testHead ++ tableLine d.cases ++ d.testMiddle ++ d.callLine (benchmarkInput d.cases) ++ testTail

def testFile? (d : Declaration) : Option Bytes :=
  if isDeclarable d.name && isDeclarable d.package then some d.testFile else none

end Declaration

end VerboseExpr.Generated
