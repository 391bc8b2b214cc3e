import VerboseExpr.Command.Basic
import VerboseExpr.Element.Basic

/-!
Commands that stand bare among the arguments of another. A command that needs arguments and has none
is applied to the elements that follow it: to as many as its arity asks for, or to all of them if the
arity is open. The normal form of a tree has this done at every level.
-/

namespace VerboseExpr.Element

/-- The command of an element that has no arguments though it needs some. -/
def bareCommand? (e : Element) : Option Command :=
  if e.isCommand && e.args.isEmpty then
    match Command.ofName? e.value with
    | some c => if c.arity.min = 0 then none else some c
    | none => none
  else none

/-- Applies bare commands to the elements after them. -/
def fold : List Element → List Element
  | [] => []
  | e :: rest =>
    match e.bareCommand? with
    | none => e :: fold rest
    | some c =>
      let n := c.arity.taken rest.length
      command e.value (rest.take n) :: fold (rest.drop n)
termination_by es => es.length
decreasing_by all_goals simp only [List.length_cons, List.length_drop]; omega

theorem size_bare {e : Element} {c : Command} (h : e.bareCommand? = some c) : e.size = 1 := by
  obtain ⟨k, v, args⟩ := e
  unfold bareCommand? at h
  split at h
  next hc =>
    simp only [Bool.and_eq_true, List.isEmpty_iff, Element.args] at hc
    simp [size, sizeAll, hc.2]
  next => simp at h

theorem sizeAll_fold (es : List Element) : sizeAll (fold es) = sizeAll es := by
  fun_induction fold es with
  | case1 => rfl
  | case2 e rest _ ih => simp [sizeAll, ih]
  | case3 e rest c hc n ih =>
    have hsplit : sizeAll (rest.take n) + sizeAll (rest.drop n) = sizeAll rest := by
      rw [← sizeAll_append, List.take_append_drop]
    simp only [sizeAll, command, size, ih, size_bare hc]
    omega

mutual

/-- The tree with bare commands applied at every level. Literals lose arguments they may have. -/
def normalize : Element → Element
  | node k v args =>
    if k = .literal then literal v else node k v (normalizeAll (fold args))
termination_by e => 2 * e.size
decreasing_by
  simp only [size, sizeAll_fold]
  omega

def normalizeAll : List Element → List Element
  | [] => []
  | e :: rest => normalize e :: normalizeAll rest
termination_by es => 2 * sizeAll es + 1
decreasing_by
  · simp only [sizeAll]
    omega
  · simp only [sizeAll]
    have := size_pos e
    omega

end

end VerboseExpr.Element
