import VerboseExpr.Element.Normal
import VerboseExpr.Pattern.Escape
import VerboseExpr.Regex.Lexeme
import VerboseExpr.Text.Utf8

namespace VerboseExpr.Pattern

def number (e : Element) : Nat := Regex.decimal (Utf8.decode e.value)

def characters (es : List Element) : List Char := es.flatMap fun e => Utf8.decode e.value

def controlChar (called : Bytes) : Char :=
  if called = Bytes.ofString "\\n" then '\n'
  else if called = Bytes.ofString "\\r" then '\r'
  else '\t'

/-- What a command denotes when `index` is the number of the group that it begins, if it does, and `rs` is
what its arguments after the counts denote. -/
def meaning (c : Command) (called : Bytes) (index : Nat) (args : List Element) (rs : List Regex) : Regex :=
  match c, args with
  | .control, _ => .char (controlChar called)
  | .anyCharacter, _ => .set (.allBut ['\n'])
  | .start, _ => .anchor .textStart
  | .finish, _ => .anchor .textEnd
  | .except, _ => .set (.allBut (characters args))
  | .group, _ => .group index (.concat rs)
  | .concatenation, _ => .concat rs
  | .oneOrMore, _ => .rep 1 none true (.concat rs)
  | .optional, _ => .rep 0 (some 1) true (.concat rs)
  | .zeroOrMore, _ => .rep 0 none true (.concat rs)
  | .alternation, _ => .choice rs
  | .range, _ =>
    match characters args with
    | [lo, hi] => .set (.ranges false [(lo, hi)])
    | _ => .empty
  | .reference, e :: _ => .reference (number e)
  | .times, e :: _ => .rep (number e) (some (number e)) true (.concat rs)
  | .minTimes, e :: _ => .rep (number e) none true (.concat rs)
  | .minMaxTimes, e :: e' :: _ => .rep (number e) (some (number e')) true (.concat rs)
  | _, _ => .empty

def ownGroups (c : Command) : Nat := if c = .group then 1 else 0

mutual

def groupCount : Element → Nat
  | .node k v args =>
    if k = .literal then 0
    else
      match Command.ofName? v with
      | none => 0
      | some c => ownGroups c + groupCountAll c.counts args

def groupCountAll (counts : Nat) : List Element → Nat
  | [] => 0
  | e :: rest =>
    match counts with
    | 0 => groupCount e + groupCountAll 0 rest
    | counts + 1 => groupCountAll counts rest

end

mutual

/-- The regular expression of a tree that comes after `n` groups. -/
def denote (n : Nat) : Element → Regex
  | .node k v args =>
    if k = .literal then .concat ((Utf8.decode v).map .char)
    else
      match Command.ofName? v with
      | none => .empty
      | some c => meaning c v (n + 1) args (denoteAll c.counts (n + ownGroups c) args)

def denoteAll (counts n : Nat) : List Element → List Regex
  | [] => []
  | e :: rest =>
    match counts with
    | 0 => denote n e :: denoteAll 0 (n + groupCount e) rest
    | counts + 1 => denoteAll counts n rest

end

def isText (e : Element) : Bool := e.isLiteral && Utf8.isValid e.value

/-- Is the element an integer without arguments and without leading zeros? -/
def isCount (e : Element) : Bool :=
  e.args.isEmpty && isInteger e.value && (e.value.head? != some 0x30 || e.value.length == 1)

/-- Are the elements two literals of one character each, in order? -/
def isRange (args : List Element) : Bool :=
  match args.map fun e => Utf8.decode e.value with
  | [[lo], [hi]] => args.all isText && lo.toNat ≤ hi.toNat
  | _ => false

def isExcept (args : List Element) : Bool := args.all isText && !(characters args).isEmpty

mutual

/-- Is the tree built from valid literals and from commands that do not refer back, each with the number
of arguments that it needs? Classes are over literals and counts are canonical. -/
def isPlain : Element → Bool
  | .node k v args =>
    if k = .literal then Utf8.isValid v
    else
      match Command.ofName? v with
      | none => false
      | some c =>
        c.arity.accepts args.length &&
          match c with
          | .reference => false
          | .range => isRange args
          | .except => isExcept args
          | _ => arePlain c.counts args

def arePlain (counts : Nat) : List Element → Bool
  | [] => true
  | e :: rest =>
    match counts with
    | 0 => isPlain e && arePlain 0 rest
    | counts + 1 => isCount e && arePlain counts rest

end

end VerboseExpr.Pattern
