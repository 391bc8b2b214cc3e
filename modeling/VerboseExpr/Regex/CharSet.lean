namespace VerboseExpr

inductive CharSet where
  /-- The characters in some ranges, both ends included, or all the others. -/
  | ranges (negated : Bool) (items : List (Char × Char))
  | without (base removed : CharSet)
  deriving DecidableEq, Repr

namespace CharSet

def inRanges (items : List (Char × Char)) (c : Char) : Bool :=
  items.any fun (lo, hi) => lo.toNat ≤ c.toNat && c.toNat ≤ hi.toNat

def contains : CharSet → Char → Bool
  | ranges negated items, c => inRanges items c != negated
  | without base removed, c => base.contains c && !removed.contains c

def single (c : Char) : CharSet := ranges false [(c, c)]

def allBut (cs : List Char) : CharSet := ranges true (cs.map fun c => (c, c))

def bounds : Char × Char := (Char.ofNat 0, Char.ofNat 0x10FFFF)

/-- The ranges between some ascending ranges, from the character number `lo` on. -/
def gaps (lo : Nat) : List (Char × Char) → List (Char × Char)
  | [] => [(Char.ofNat lo, bounds.2)]
  | (a, b) :: rest =>
    if lo < a.toNat then (Char.ofNat lo, Char.ofNat (a.toNat - 1)) :: gaps (b.toNat + 1) rest
    else gaps (b.toNat + 1) rest

def complement (items : List (Char × Char)) : List (Char × Char) := gaps 0 items

def digits : List (Char × Char) := [('0', '9')]

def wordChars : List (Char × Char) := [('0', '9'), ('A', 'Z'), ('_', '_'), ('a', 'z')]

end CharSet

end VerboseExpr
