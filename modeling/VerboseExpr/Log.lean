import VerboseExpr.Text.Bytes

namespace VerboseExpr

/-- A destination of log messages: under a name, or none at all. -/
structure Logger where
  name : Option Bytes
  deriving DecidableEq, Repr

namespace Logger

def silent : Logger := ⟨none⟩

def verbose : Logger := ⟨some "verbex"⟩

/-- The logger of a compiler inside a program that reports more than the stages. -/
def compiler : Logger := ⟨some "compiler"⟩

def enabled (l : Logger) : Bool := l.name.isSome

def line (parts : List Bytes) : Bytes := Bytes.join (Bytes.ofString "\t") parts ++ [0x0A]

def record (l : Logger) (messages : List Bytes) : Bytes :=
  match l.name with
  | none => []
  | some name => messages.flatMap fun m => line ["DEBUG", name, m]

end Logger

end VerboseExpr
