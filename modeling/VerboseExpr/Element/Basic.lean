import VerboseExpr.Text.Bytes

namespace VerboseExpr

/-- What an element of the tree is. Elements that were made by hand may be of neither kind. -/
inductive Kind where
  | literal
  | command
  | unknown
  deriving DecidableEq, Repr

def Kind.text : Kind → Bytes
  | .literal => "literal"
  | .command => "command"
  | .unknown => "unknown"

/-- A node of the tree. A literal holds its text, a command its name. -/
inductive Element where
  | node (kind : Kind) (value : Bytes) (args : List Element)
  deriving Repr

instance : Inhabited Element := ⟨.node .literal [] []⟩

namespace Element

mutual

def decEq : (a b : Element) → Decidable (a = b)
  | node k v args, node k' v' args' =>
    if hk : k = k' then
      if hv : v = v' then
        match decEqAll args args' with
        | isTrue ha => isTrue (by rw [hk, hv, ha])
        | isFalse ha => isFalse fun h => ha (by injection h)
      else isFalse fun h => hv (by injection h)
    else isFalse fun h => hk (by injection h)

def decEqAll : (as bs : List Element) → Decidable (as = bs)
  | [], [] => isTrue rfl
  | [], _ :: _ => isFalse (by simp)
  | _ :: _, [] => isFalse (by simp)
  | a :: as, b :: bs =>
    match decEq a b, decEqAll as bs with
    | isTrue ha, isTrue hs => isTrue (by rw [ha, hs])
    | isFalse ha, _ => isFalse fun h => ha (by injection h)
    | _, isFalse hs => isFalse fun h => hs (by injection h)

end

instance : DecidableEq Element := decEq

def kind : Element → Kind
  | node k _ _ => k

def value : Element → Bytes
  | node _ v _ => v

def args : Element → List Element
  | node _ _ as => as

/-- The command of every root and of every group in square brackets. -/
def rootName : Bytes := Bytes.ofString "match"

def literal (text : Bytes) : Element := node .literal text []

def command (name : Bytes) (args : List Element) : Element := node .command name args

def isLiteral (e : Element) : Bool := e.kind == .literal

def isCommand (e : Element) : Bool := e.kind == .command

def isNamed (e : Element) (names : List Bytes) : Bool := e.isCommand && names.contains e.value

mutual

def size : Element → Nat
  | node _ _ args => sizeAll args + 1

def sizeAll : List Element → Nat
  | [] => 0
  | e :: rest => e.size + sizeAll rest

end

mutual

/-- The elements of a tree in preorder, each with its depth, where `enter` says below which elements
to go. -/
def walkFrom (enter : Element → Bool) (depth : Nat) : Element → List (Nat × Element)
  | e@(node _ _ args) => (depth, e) :: if enter e then walkAllFrom enter (depth + 1) args else []

def walkAllFrom (enter : Element → Bool) (depth : Nat) : List Element → List (Nat × Element)
  | [] => []
  | e :: rest => walkFrom enter depth e ++ walkAllFrom enter depth rest

end

/-- The elements of a tree, parents before children, without those below an element that `enter`
refuses. -/
def walk (enter : Element → Bool) (e : Element) : List Element :=
  (walkFrom enter 0 e).map (·.2)

def preorder (e : Element) : List (Nat × Element) := walkFrom (fun _ => true) 0 e

mutual

/-- A tree on one line, for instance `{command match : {literal a}}`. -/
def dump : Element → Bytes
  | node k v args =>
    Bytes.ofString "\x7b" ++ k.text ++ Bytes.ofString " " ++ v ++
      (if args.isEmpty then [] else Bytes.ofString " :") ++ dumpAll args ++ Bytes.ofString "\x7d"

def dumpAll : List Element → Bytes
  | [] => []
  | e :: rest => Bytes.ofString " " ++ dump e ++ dumpAll rest

end

mutual

/-- The number of levels below an element. -/
def depth : Element → Nat
  | node _ _ args => depthAll args

/-- One more than the greatest depth in a list of trees, or nothing for an empty list. -/
def depthAll : List Element → Nat
  | [] => 0
  | e :: rest => max (e.depth + 1) (depthAll rest)

end

theorem size_pos (e : Element) : 0 < e.size := by
  cases e
  simp [size]

theorem sizeAll_append (xs ys : List Element) : sizeAll (xs ++ ys) = sizeAll xs + sizeAll ys := by
  induction xs with
  | nil => simp [sizeAll]
  | cons x xs ih => simp only [List.cons_append, sizeAll, ih]; omega

end Element

end VerboseExpr
