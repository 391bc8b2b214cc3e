import VerboseExpr.Regex.Automaton.Program

/-!
Searching a subject with an automaton. A thread is a place in the program and one in the subject. The
search follows the preferred thread first and visits no pair of places twice, since what a second visit
could find the first has found already. It is therefore bounded by the size of the program times that
of the subject.
-/

namespace VerboseExpr.Regex.Automaton

/-- A thread of the search: where it is in the program and in the subject, and where it started. -/
structure Thread where
  pc : Nat
  pos : Nat
  start : Nat
  deriving DecidableEq, Repr

/-- The threads that follow a thread, in order of preference. -/
def follow (inst : Inst) (subject : Array Char) (t : Thread) : List Thread :=
  match inst with
  | .accept | .fail => []
  | .one s next =>
    match subject[t.pos]? with
    | some c => if s.contains c then [{ t with pc := next, pos := t.pos + 1 }] else []
    | none => []
  | .test a next => if a.holds subject t.pos then [{ t with pc := next }] else []
  | .split first second => [{ t with pc := first }, { t with pc := second }]

/-- The number of a pair of places. -/
def slot (subject : Array Char) (t : Thread) : Nat := t.pc * (subject.size + 1) + t.pos

theorem count_set_lt (visited : Array Bool) {i : Nat} (h : i < visited.size)
    (hv : visited[i] = false) : (visited.set i true).count false < visited.count false := by
  have hmem : 0 < visited.count false := Array.count_pos_iff.2 (hv ▸ Array.getElem_mem h)
  have ht : (true == false) = false := rfl
  have hf : (false == false) = true := rfl
  rw [Array.count_set, hv, ht, hf]
  simp only [Bool.false_eq_true, if_false, if_true]
  omega

/-- The first thread that accepts, as the places where it started and ended. `visited` has an entry
for every pair of places. -/
def search (p : Program) (subject : Array Char) (visited : Array Bool) (threads : List Thread) :
    Option (Nat × Nat) :=
  match threads with
  | [] => none
  | t :: rest =>
    if h : slot subject t < visited.size then
      if hv : visited[slot subject t] = true then search p subject visited rest
      else
        let visited' := visited.set (slot subject t) true
        match p[t.pc]? with
        | none => search p subject visited' rest
        | some .accept => some (t.start, t.pos)
        | some inst => search p subject visited' (follow inst subject t ++ rest)
    else search p subject visited rest
termination_by (visited.count false, threads.length)
decreasing_by
  · exact Prod.Lex.right _ (by simp)
  · exact Prod.Lex.left _ _ (count_set_lt visited h (Bool.eq_false_iff.2 hv))
  · exact Prod.Lex.left _ _ (count_set_lt visited h (Bool.eq_false_iff.2 hv))
  · exact Prod.Lex.right _ (by simp)

/-- The places where the first match begins and ends, counted in characters: of all matches the ones
that start first, and of these the preferred one. -/
def find? (r : Regex) (subject : Array Char) : Option (Nat × Nat) :=
  let (entry, p) := automaton r
  let starts := (List.range (subject.size + 1)).map fun i => ⟨entry, i, i⟩
  search p subject (Array.replicate (p.size * (subject.size + 1)) false) starts

end VerboseExpr.Regex.Automaton
