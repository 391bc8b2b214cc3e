import VerboseExpr.File.Tree
import VerboseExpr.Main
import VerboseExpr.Proofs.Except
import VerboseExpr.Proofs.Pattern.Normal
import VerboseExpr.Proofs.Element.Grammar
import VerboseExpr.Proofs.Token.Tiling
import VerboseExpr.Proofs.Element.Brackets
import VerboseExpr.Proofs.Element.Represent
import VerboseExpr.Proofs.Element.Parse
import VerboseExpr.Proofs.Element.Diagnosis
import VerboseExpr.Proofs.Element.Preorder
import VerboseExpr.Proofs.Pattern.Violation
import VerboseExpr.Proofs.Regex.Flatten
import VerboseExpr.Proofs.Text.Utf8
import VerboseExpr.Proofs.Pattern.Escape
import VerboseExpr.Proofs.Pattern.Unescape
import VerboseExpr.Proofs.Regex.Lexing
import VerboseExpr.Proofs.Regex.Reading
import VerboseExpr.Proofs.Pattern.Denotation
import VerboseExpr.Proofs.Pattern.Correct
import VerboseExpr.Proofs.Pattern.Operands
import VerboseExpr.Proofs.Compilation.Faults
import VerboseExpr.Proofs.Element.Printing
import VerboseExpr.Proofs.Element.Relocation
import VerboseExpr.Proofs.Element.Layout
import VerboseExpr.Proofs.Element.Square
import VerboseExpr.Proofs.Element.FixedPoint
import VerboseExpr.Proofs.Element.Descent
import VerboseExpr.Proofs.Compilation.Append
import VerboseExpr.Proofs.Compilation.Layout
import VerboseExpr.Proofs.Regex.Search
import VerboseExpr.Proofs.Text.Occurrence
import VerboseExpr.Proofs.Regex.Literal
import VerboseExpr.Proofs.Matcher.Offset
import VerboseExpr.Proofs.Matcher.Quotation
import VerboseExpr.Proofs.Regex.Extent
import VerboseExpr.Proofs.Matcher.Slice
import VerboseExpr.Proofs.Pattern.Pieces
import VerboseExpr.Proofs.Regex.Unreferring
import VerboseExpr.Proofs.Analysis.Tables
import VerboseExpr.Proofs.Analysis.References
import VerboseExpr.Proofs.Pattern.Neighbours
import VerboseExpr.Proofs.Regex.Preference
import VerboseExpr.Proofs.Regex.Repetition
import VerboseExpr.Proofs.Regex.Counting
import VerboseExpr.Proofs.Pattern.Oversize
import VerboseExpr.Proofs.Text.Copies
import VerboseExpr.Proofs.Matcher.Repetition
import VerboseExpr.Proofs.Analysis.Census
import VerboseExpr.Proofs.Pattern.WellBracketed
import VerboseExpr.Proofs.Element.Blank
import VerboseExpr.Proofs.Pattern.Skeleton
import VerboseExpr.Proofs.Regex.Nesting
import VerboseExpr.Proofs.Regex.Dialect
import VerboseExpr.Proofs.Regex.Depth
import VerboseExpr.Proofs.Regex.Anchored
import VerboseExpr.Proofs.Matcher.Anchored
import VerboseExpr.Proofs.Regex.Row
import VerboseExpr.Proofs.Regex.Exception
import VerboseExpr.Proofs.Matcher.Except
import VerboseExpr.Proofs.Pattern.Bare
import VerboseExpr.Proofs.Element.Relabel
import VerboseExpr.Proofs.Analysis.Relabel
import VerboseExpr.Proofs.Analysis.Alias
import VerboseExpr.Proofs.Text.Quoted
import VerboseExpr.Proofs.Generated.Identifier
import VerboseExpr.Proofs.Generated.Scan
import VerboseExpr.Proofs.Generated.Texts
import VerboseExpr.Proofs.Generated.Exported
import VerboseExpr.Proofs.File.Tree
import VerboseExpr.Proofs.Generated.Writing
import VerboseExpr.Proofs.Generation.Files
import VerboseExpr.Proofs.Generation.Naming
import VerboseExpr.Proofs.Generation.Settings
import VerboseExpr.Proofs.CommandLine.Spelling
import VerboseExpr.Proofs.CommandLine.Override
import VerboseExpr.Proofs.Pattern.Straddling
import VerboseExpr.Proofs.Regex.Spans
import VerboseExpr.Proofs.Pattern.Built
import VerboseExpr.Proofs.Pattern.Structure
import VerboseExpr.Proofs.Pattern.Mending
import VerboseExpr.Proofs.Analysis.Structure
import VerboseExpr.Proofs.Config.Toml
import VerboseExpr.Proofs.Config.Yaml.Source
import VerboseExpr.Proofs.Config.Yaml.Cursor
import VerboseExpr.Proofs.Config.Yaml.Gap
import VerboseExpr.Proofs.Config.Yaml.Plain
import VerboseExpr.Proofs.Config.Yaml.Quoted
import VerboseExpr.Proofs.Config.Yaml.Block
import VerboseExpr.Proofs.Config.Yaml.Reading
import VerboseExpr.Proofs.Config.Yaml.Scalar
import VerboseExpr.Proofs.Config.Yaml.Line
import VerboseExpr.Proofs.Config.Yaml.Stream
import VerboseExpr.Proofs.Config.Yaml.Node
import VerboseExpr.Proofs.Config.Yaml.Document
import VerboseExpr.Proofs.Config.Yaml.Settings
import VerboseExpr.Proofs.Config.RoundTrip
