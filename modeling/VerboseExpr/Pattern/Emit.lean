import VerboseExpr.Element.Normal
import VerboseExpr.Fault
import VerboseExpr.Pattern.Escape

/-!
The pattern of a tree. Literals are escaped. A command is looked up, the bare commands among its
arguments are applied, its arguments are counted, and the pattern is put together from those of the
arguments. Leading count arguments are taken as they are written.
-/

namespace VerboseExpr.Pattern

def position? (index : Nat) : Option Bytes :=
  match index with
  | 0 => some "first"
  | 1 => some "second"
  | 2 => some "third"
  | _ => none

def unknownCommand (name : Bytes) : Fault :=
  { stage := .emit, cause := .unknownCommand name, token := name }

def argumentCount (name : Bytes) (arity : Arity) (found : Nat) : Fault :=
  { stage := .emit, cause := .argumentCount name arity found, token := name }

def notAnInteger (index : Nat) (name value : Bytes) : Fault :=
  match position? index with
  | some p => { stage := .emit, cause := .notAnInteger p name value, token := value }
  | none => Fault.outOfRange

/-- The text of a count argument, which has to be a run of digits. -/
def count (index : Nat) (name value : Bytes) : Except Fault Bytes :=
  if isInteger value then .ok value else .error (notAnInteger index name value)

mutual

def emit : Element → Except Fault Bytes
  | .node k v args =>
    if k = .literal then .ok (escape v)
    else
      match Command.ofName? v with
      | none => .error (unknownCommand v)
      | some c =>
        let operands := Element.fold args
        if c.arity.accepts operands.length then do
          let parts ← emitAll v c.counts 0 operands
          match c.render v parts with
          | some p => .ok p
          | none => .error Fault.outOfRange
        else .error (argumentCount v c.arity operands.length)
termination_by e => 2 * e.size
decreasing_by
  simp only [Element.size, Element.sizeAll_fold]
  omega

/-- The patterns of the arguments of a command, of which those before number `counts` are integers. -/
def emitAll (name : Bytes) (counts index : Nat) : List Element → Except Fault (List Bytes)
  | [] => .ok []
  | e :: rest => do
    let part ← if index < counts then count index name e.value else emit e
    let parts ← emitAll name counts (index + 1) rest
    return part :: parts
termination_by es => 2 * Element.sizeAll es + 1
decreasing_by
  all_goals
    simp only [Element.sizeAll]
    have := Element.size_pos e
    omega

end

end VerboseExpr.Pattern
