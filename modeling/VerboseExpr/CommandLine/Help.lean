import VerboseExpr.CommandLine.Subcommand

namespace VerboseExpr.CommandLine

def textLine (b : Bytes) : Bytes := b ++ [0x0A]

def texts (lines : List String) : List Bytes := lines.map Bytes.ofString

namespace Subcommand

def summary : Subcommand → Bytes
  | compile => "Compile a verbose expression and print the pattern"
  | search => "Compile an expression and test it against a subject"
  | gen => "Generate Go code declaring the compiled pattern"
  | analyze => "Report the features and engine requirements of an expression"
  | commands => "List the commands of the expression language"
  | init => "Write a default configuration file"
  | help => "Help about any command"
  | completion => "Generate the autocompletion script for the specified shell"

def description : Subcommand → List Bytes
  | compile =>
    ["Compiles a verbose expression into a regular expression.",
      "",
      "The expression is read from --file, from the arguments joined by spaces,",
      "or from standard input."]
  | search =>
    ["Compiles a verbose expression and prints the first match in the subject",
      "as \"OFFSET TEXT\", or \"[No match]\". Use \"compile\" to see the pattern."]
  | gen =>
    ["Compiles a verbose expression and generates a Go file declaring the pattern,",
      "the compiled regexp and MatchString/FindString helpers.",
      "",
      "Every --input is matched at generation time and recorded in a generated",
      "_test.go file next to --output. Without --output the code is printed."]
  | commands =>
    ["Lists every command with its aliases, argument count, leading integer",
      "arguments and emitted syntax. With a name, only that command is shown."]
  | help =>
    ["Help provides help for any command in the application.",
      "Simply type verbex help [path to command] for full details."]
  | c => [c.summary]

def usage : Subcommand → Bytes
  | compile => "compile [expression...]"
  | search => "match --subject TEXT [expression...]"
  | gen => "gen [expression...]"
  | analyze => "analyze [expression...]"
  | commands => "commands [name]"
  | init => "init"
  | help => "help [command]"
  | completion => "completion"

end Subcommand

def flagHelp (c : Option Subcommand) : Flag → Bytes
  | .config => "config file (default: ./.verbex.yaml if present)"
  | .engine =>
    if c = some .gen then "regex engine of the generated code: auto, re2 or regexp2"
    else "regex engine: auto, re2 or regexp2 (default from config)"
  | .file => "read the expression from a file"
  | .force => "overwrite an existing file"
  | .help => Bytes.ofString "help for " ++ (c.map Subcommand.name).getD (Bytes.ofString "verbex")
  | .input => "test input for the generated test file (repeatable)"
  | .json => "output the analysis as JSON"
  | .name => "identifier prefix of the generated declarations (default from config)"
  | .noColor => "disable colored output"
  | .output => "output file (default: stdout)"
  | .package => "package name of the generated file (default from config)"
  | .subject => "text to search"
  | .testFile => "generate a _test.go file"
  | .tokens => "print the token stream"
  | .tree => "print the expression tree"
  | .verbose => "log every compile stage"

/-- A flag with what it takes, as the left column of a table. -/
def flagColumn (f : Flag) : Bytes :=
  (match f.letter? with
    | some l => Bytes.ofString "  -" ++ [l] ++ Bytes.ofString ", --"
    | none => Bytes.ofString "      --") ++
  f.longName ++ (if f.kind = .switch then [] else Bytes.ofString " " ++ f.kind.word)

def sortFlags (fs : List Flag) : List Flag :=
  fs.mergeSort fun f g => Bytes.le f.longName g.longName

def flagTable (c : Option Subcommand) (fs : List Flag) : List Bytes :=
  let width := (fs.map fun f => (flagColumn f).length).foldl max 0
  (sortFlags fs).map fun f => (flagColumn f).padRight (width + 3) ++ flagHelp c f

def programDescription : List Bytes :=
  ["verbex translates a parenthesized command language into regular expressions.",
    "",
    "Example:",
    "  verbex compile \"begin (one-or-more (range 'a' 'z')) end\"",
    "  ^(?:[a-z])+$"]

def programUsage (flags : List Flag) : List Bytes :=
  texts ["Usage:", "  verbex [command]", "", "Available Commands:"] ++
    ((Subcommand.all.mergeSort fun a b => Bytes.le a.name b.name).map fun c =>
      Bytes.ofString "  " ++ c.name.padRight 12 ++ c.summary) ++
    texts ["", "Flags:"] ++ flagTable none flags ++
    texts ["", "Use \"verbex [command] --help\" for more information about a command."]

def helpText (c : Option Subcommand) : Bytes :=
  List.flatten <| List.map textLine <|
    match c with
    | none => programDescription ++ [[]] ++ programUsage (.help :: globalFlags)
    | some c =>
      c.description ++ texts ["", "Usage:"] ++
        [Bytes.ofString "  verbex " ++ c.usage ++ Bytes.ofString " [flags]"] ++
        texts ["", "Flags:"] ++ flagTable (some c) (.help :: c.flags) ++
        texts ["", "Global Flags:"] ++
        flagTable none globalFlags

end VerboseExpr.CommandLine
