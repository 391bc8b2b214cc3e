namespace VerboseExpr.Unicode

/-- A table of code point ranges, both ends included, in increasing order. -/
abbrev Ranges := Array (Nat × Nat)

def Ranges.contains (table : Ranges) (c : Char) : Bool :=
  table.any fun (lo, hi) => lo ≤ c.toNat && c.toNat ≤ hi

end VerboseExpr.Unicode
