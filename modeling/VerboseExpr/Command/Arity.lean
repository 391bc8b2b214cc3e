import VerboseExpr.Text.Bytes

namespace VerboseExpr

/-- The numbers of arguments that a command accepts: from `min` to `max`, or from `min` on. -/
structure Arity where
  min : Int
  /-- The largest number, or `Arity.unbounded`. -/
  max : Int
  deriving DecidableEq, Repr

namespace Arity

/-- Marks an arity without an upper limit. -/
def unbounded : Int := -1

def exactly (n : Nat) : Arity := ⟨n, n⟩

def atLeast (n : Nat) : Arity := ⟨n, unbounded⟩

def isOpen (a : Arity) : Bool := a.max == unbounded

def accepts (a : Arity) (n : Int) : Bool := a.min ≤ n && (a.isOpen || n ≤ a.max)

/-- How many of `available` operands a command of this arity takes. -/
def taken (a : Arity) (available : Nat) : Nat :=
  if a.isOpen then available else Nat.min a.max.toNat available

/-- The arity in words: a number, `any`, a lower limit or both limits. -/
def text (a : Arity) : Bytes :=
  if a.max = a.min then Bytes.ofInt a.min
  else if a.isOpen && a.min = 0 then "any"
  else if a.isOpen then Bytes.ofString "at least " ++ Bytes.ofInt a.min
  else Bytes.ofInt a.min ++ Bytes.ofString " to " ++ Bytes.ofInt a.max

theorem taken_le (a : Arity) (n : Nat) : a.taken n ≤ n := by
  unfold taken
  split
  · exact Nat.le_refl n
  · exact Nat.min_le_right _ _

end Arity

end VerboseExpr
