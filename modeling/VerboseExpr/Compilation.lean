import VerboseExpr.Element.Reader
import VerboseExpr.Pattern.Emit
import VerboseExpr.Text.Quoted

namespace VerboseExpr

/-- A source text with what each stage made of it. -/
structure Compilation where
  source : Bytes
  tokens : List Token
  tree : Element
  pattern : Bytes

namespace Compilation

/-- Compiles a source text. The first stage that fails ends the compilation. -/
def run (source : Bytes) : Except Fault Compilation := do
  let tokens ← Token.read source
  let tree ← Element.represent (Element.seed tokens)
  let pattern ← Pattern.emit tree
  return ⟨source, tokens, tree, pattern⟩

def heading (name : Bytes) : Bytes := Bytes.ofString "=== " ++ name ++ Bytes.ofString " ==="

def failure (stage : String) (f : Fault) : Bytes :=
  Bytes.ofString stage ++ Bytes.ofString " failed: " ++ f.text

def tokenTexts (tokens : List Token) : Bytes :=
  Bytes.join (Bytes.ofString " ") (tokens.map (·.text))

/-- The account of a compilation, message by message. -/
def account (source : Bytes) : List Bytes :=
  heading (Bytes.ofString "Tokenize") ::
    match Token.read source with
    | .error f => [failure "Tokenize" f]
    | .ok tokens =>
      (Bytes.ofString "Tokens (" ++ Bytes.ofNat tokens.length ++ Bytes.ofString "): " ++
          tokenTexts tokens) ::
        heading (Bytes.ofString "Represent") ::
        match Element.represent (Element.seed tokens) with
        | .error f => [failure "Represent" f]
        | .ok tree =>
          (Bytes.ofString "Tree: " ++ tree.dump) ::
            heading (Bytes.ofString "Emit") ::
            match Pattern.emit tree with
            | .error f => [failure "Emit" f]
            | .ok pattern => [Bytes.ofString "Pattern: " ++ pattern]

end Compilation

def compile (source : Bytes) : Except Fault Bytes := (Compilation.run source).map (·.pattern)

/-- The report that ends a program which relies on an expression that is rejected. -/
def Fault.report (f : Fault) (source : Bytes) : Bytes :=
  Bytes.ofString "verbex: Compile(" ++ Quoted.encode source ++ Bytes.ofString "): " ++ f.text

end VerboseExpr
