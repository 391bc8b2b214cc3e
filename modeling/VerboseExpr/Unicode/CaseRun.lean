namespace VerboseExpr.Unicode

/-- A run of characters whose other cases lie at one distance: every `step`-th code point from `lo`
to `hi`, of which `lo` goes to `target`. -/
structure CaseRun where
  lo : Nat
  hi : Nat
  step : Nat
  target : Nat

def CaseRun.contains (run : CaseRun) (c : Char) : Bool :=
  run.lo ≤ c.toNat && c.toNat ≤ run.hi && (c.toNat - run.lo) % run.step == 0

/-- A character in the other case of a table, or the character itself if it is in none of its runs. -/
def mapCase (table : Array CaseRun) (c : Char) : Char :=
  match table.find? (·.contains c) with
  | some run => Char.ofNat (run.target + (c.toNat - run.lo))
  | none => c

end VerboseExpr.Unicode
