import VerboseExpr.Proofs.Element.Preorder

/-!
The trees that normalizing leaves as they are. A command that needs arguments and has none takes what follows it, so
it keeps its place exactly where nothing follows: as the root, or as the last argument of another. Main statement:
normalizing leads to such a tree at once, and changes nothing in one.
-/

namespace VerboseExpr.Element

/-- Is the element a command without arguments whose arity does not allow that? -/
def LacksArguments (e : Element) : Prop :=
  e.isCommand ∧ e.args = [] ∧ ∃ c, Command.ofName? e.value = some c ∧ ¬c.arity.accepts 0

/-- Does nothing follow the commands of the tree that lack arguments? -/
def LackingLast (e : Element) : Prop :=
  ∀ p ∈ e.walk fun _ => true, ∀ front x back, p.args = front ++ x :: back → LacksArguments x → back = []

theorem accepts_zero_iff (c : Command) : c.arity.accepts 0 ↔ c.arity.min = 0 := by
  cases c <;> decide

theorem lacksArguments_iff (e : Element) : LacksArguments e ↔ e.bareCommand? ≠ none := by
  rw [Option.ne_none_iff_exists']
  constructor
  . rintro ⟨hcommand, hargs, c, hname, harity⟩
    rw [accepts_zero_iff] at harity
    refine ⟨c, ?_⟩
    unfold bareCommand?
    simp [hcommand, hargs, hname, harity]
  . rintro ⟨c, hbare⟩
    obtain ⟨heq, hname, hmin⟩ := bareCommand?_eq_some hbare
    rw [heq]
    refine ⟨rfl, rfl, c, hname, ?_⟩
    rw [accepts_zero_iff]
    exact hmin

theorem folded_iff (es : List Element) :
    Folded es ↔ ∀ front x back, es = front ++ x :: back → LacksArguments x → back = [] := by
  constructor
  . intro h front x back heq hx
    rw [lacksArguments_iff] at hx
    by_contra hback
    apply hx
    apply h
    rw [heq, List.dropLast_append_of_ne_nil (by simp), List.dropLast_cons_of_ne_nil hback]
    simp
  . intro h x hx
    by_contra hbare
    rw [← ne_eq, ← lacksArguments_iff] at hbare
    have hne : es ≠ [] := by
      rintro rfl
      simp at hx
    obtain ⟨front, back, hsplit⟩ := List.append_of_mem hx
    have heq : es = front ++ x :: (back ++ [es.getLast hne]) := by
      rw [← List.cons_append, ← List.append_assoc, ← hsplit, List.dropLast_concat_getLast]
    have hnil := h front x _ heq hbare
    simp at hnil

theorem lackingLast_iff (k : Kind) (v : Bytes) (args : List Element) :
    LackingLast (node k v args) ↔ Folded args ∧ ∀ e ∈ args, LackingLast e := by
  unfold LackingLast
  rw [walk_of_enter rfl, List.forall_mem_cons, List.forall_mem_flatMap, folded_iff]
  rfl

theorem LackingLast.normalize (e : Element) : LackingLast (normalize e) := by
  induction e using foldInduction with
  | literal v args =>
    rw [normalize_literal, literal, lackingLast_iff]
    simp [Folded]
  | operands k v args hk ih =>
    rw [normalize_of_ne_literal hk, lackingLast_iff]
    constructor
    . apply Folded.normalizeAll
      apply folded_fold
    . rw [normalizeAll_eq_map]
      intro x hx
      obtain ⟨o, ho, rfl⟩ := List.mem_map.1 hx
      apply ih o ho

theorem normalize_eq_self {e : Element} (hliterals : LiteralsBare e) (hlast : LackingLast e) : normalize e = e := by
  induction e using argsInduction with
  | node k v args ih =>
    rw [literalsBare_iff] at hliterals
    rw [lackingLast_iff] at hlast
    by_cases hk : k = .literal
    . rw [hliterals.1 hk, hk, normalize_literal, literal]
    . have hargs : args.map normalize = args.map id := by
        apply List.map_congr_left
        intro e he
        apply ih e he (hliterals.2 e he) (hlast.2 e he)
      rw [normalize_of_ne_literal hk, fold_eq_self hlast.1, normalizeAll_eq_map, hargs, List.map_id]

/-- One pass is enough: normalizing again changes nothing. What is left of commands that lack arguments is the root or
the last argument of another command. The trees without such commands elsewhere, and without arguments of literals, are
all that normalizing leaves as they are. -/
theorem normalize_fixedPoint (e : Element) :
    normalize (normalize e) = normalize e ∧ LackingLast (normalize e) ∧
      (normalize e = e ↔ LiteralsBare e ∧ LackingLast e) := by
  have hliterals := LiteralsBare.normalize e
  have hlast := LackingLast.normalize e
  refine ⟨normalize_eq_self hliterals hlast, hlast, ?_⟩
  constructor
  . intro hsame
    rw [hsame] at hliterals hlast
    exact ⟨hliterals, hlast⟩
  . rintro ⟨hliterals, hlast⟩
    exact normalize_eq_self hliterals hlast

-- The operands that a bare command takes are folded among each other, and the last of them may lack arguments.
example :
    let e := command rootName [command "range" [], command "or" [], command "times" [], literal "a"]
    normalize e = command rootName [command "range" [command "or" [command "times" []]], literal "a"] := by
  decide +kernel

end VerboseExpr.Element
