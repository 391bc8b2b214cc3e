import VerboseExpr.Command.Arity

namespace VerboseExpr

/-- The stage of compilation that rejects an expression. -/
inductive Stage where
  | tokenize
  | parse
  | emit
  | other
  deriving DecidableEq, Repr

def Stage.text : Stage → Bytes
  | .tokenize => "tokenize error"
  | .parse => "parse error"
  | .emit => "emit error"
  | .other => "error"

inductive Cause where
  | unterminatedQuotation
  | emptyGroup
  | mismatchedParentheses
  | unfinishedExpression
  | unknownCommand (name : Bytes)
  | argumentCount (name : Bytes) (arity : Arity) (found : Nat)
  /-- A count argument is not a run of digits. -/
  | notAnInteger (position command value : Bytes)
  /-- Something was taken from a place past the end. No source text leads to this; tokens and trees
  that were made by hand may. -/
  | outOfRange
  | remark (message : Bytes)
  deriving DecidableEq, Repr

def Cause.argumentWord (n : Int) : Bytes := if n = 1 then "argument" else "arguments"

def Cause.message : Cause → Bytes
  | .unterminatedQuotation => "unterminated quotation"
  | .emptyGroup => "empty group"
  | .mismatchedParentheses => "mismatched parentheses"
  | .unfinishedExpression => "unfinished expression"
  | .unknownCommand name => Bytes.ofString "unknown command: " ++ name
  | .argumentCount name arity found =>
    Bytes.ofString "command '" ++ name ++ Bytes.ofString "' expects " ++
      (if arity.max = arity.min then [] else Bytes.ofString "at least ") ++
      Bytes.ofInt arity.min ++ Bytes.ofString " " ++ argumentWord arity.min ++
      Bytes.ofString " but found " ++ Bytes.ofNat found
  | .notAnInteger position command value =>
    Bytes.ofString "an integer must be specified as the " ++ position ++
      Bytes.ofString " argument of '" ++ command ++ Bytes.ofString "', but '" ++ value ++
      Bytes.ofString "' was encountered"
  | .outOfRange => "index out of range"
  | .remark message => message

structure Fault where
  stage : Stage
  cause : Cause
  /-- The byte offset in the source; a negative number if the place is unknown. -/
  offset : Int := -1
  /-- The offending token, empty if there is none. -/
  token : Bytes := []
  deriving DecidableEq, Repr

namespace Fault

/-- The fault as one line: stage, place if known, and message. -/
def text (f : Fault) : Bytes :=
  if 0 ≤ f.offset then
    f.stage.text ++ Bytes.ofString " at offset " ++ Bytes.ofInt f.offset ++ Bytes.ofString ": " ++
      f.cause.message
  else f.stage.text ++ Bytes.ofString ": " ++ f.cause.message

/-- The fault for a reader of the command line, who need not know the stages. -/
def brief (f : Fault) : Bytes :=
  if 0 ≤ f.offset then
    f.cause.message ++ Bytes.ofString " (offset " ++ Bytes.ofInt f.offset ++ Bytes.ofString ")"
  else f.cause.message

def outOfRange : Fault := { stage := .other, cause := .outOfRange }

end Fault

end VerboseExpr
