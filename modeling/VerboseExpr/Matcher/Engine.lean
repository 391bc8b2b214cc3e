import VerboseExpr.Text.Quoted
import VerboseExpr.Unicode.Lower
import VerboseExpr.Unicode.Space

namespace VerboseExpr

inductive Engine where
  /-- Linear in the subject, without back references. -/
  | automaton
  /-- With back references. -/
  | backtracking
  deriving DecidableEq, Repr

def Engine.text : Engine → Bytes
  | .automaton => "re2"
  | .backtracking => "regexp2"

inductive Engine.Choice where
  /-- The automaton if it accepts the pattern, and backtracking otherwise. -/
  | auto
  | only (engine : Engine)
  deriving DecidableEq, Repr

inductive MatcherError where
  | unknownSetting (name : Bytes)
  | unknownEngine (name : Bytes)
  | invalidPattern (engine : Engine)
  deriving DecidableEq, Repr

/-- The error as a message. What is wrong with a pattern is not said in detail. -/
def MatcherError.message : MatcherError → Bytes
  | .unknownSetting name =>
    Bytes.ofString "unknown engine " ++ Quoted.encode name ++
      Bytes.ofString " (want auto, re2 or regexp2)"
  | .unknownEngine name => Bytes.ofString "unknown engine " ++ Quoted.encode name
  | .invalidPattern engine =>
    Bytes.ofString "invalid pattern for " ++ engine.text ++ Bytes.ofString ": ..."

namespace Engine.Choice

def text : Choice → Bytes
  | auto => "auto"
  | only e => e.text

/-- The choice with exactly this name; the empty name leaves it open. -/
def ofName? (name : Bytes) : Option Choice :=
  if name.isEmpty || name == Choice.auto.text then some auto
  else if name == Engine.automaton.text then some (only .automaton)
  else if name == Engine.backtracking.text then some (only .backtracking)
  else none

/-- The choice that a setting makes. Blanks around it and the case of its letters do not matter. -/
def ofSetting (setting : Bytes) : Except MatcherError Choice :=
  match ofName? (Unicode.lower (Unicode.trim setting)) with
  | some c => .ok c
  | none => .error (.unknownSetting setting)

end Engine.Choice

end VerboseExpr
