import VerboseExpr.Proofs.Compilation.Faults
import VerboseExpr.Proofs.Element.Preorder

/-!
Why a tree has no pattern. A tree in normal form is gone through from the root on, parents before children, and
each element is looked at: a command has to exist and to accept the number of its arguments, and a count has to
be a run of digits. Main statement: there is no pattern exactly if one of these elements breaks its rule, and
the fault is that of the first one that does.
-/

namespace VerboseExpr

def fault? {α : Type} : Except Fault α → Option Fault
  | .error f => some f
  | .ok _ => none

section Faults

variable {α β : Type}

theorem fault?_eq_some_iff (x : Except Fault α) (f : Fault) : fault? x = some f ↔ x = .error f := by
  cases x <;> simp [fault?]

theorem fault?_map (x : Except Fault α) (g : α → β) : fault? (x.map g) = fault? x := by
  cases x <;> rfl

theorem fault?_bind {x : Except Fault α} {k : α → Except Fault β} {later : Option Fault}
    (hk : ∀ a, x = .ok a → fault? (k a) = later) : fault? (x.bind k) = (fault? x).or later := by
  cases x with
  | error f => rfl
  | ok a => exact hk a rfl

end Faults

namespace Pattern

open Element

section Visits

inductive Site where
  | count (index : Nat) (command : Bytes)
  | operand
  deriving DecidableEq, Repr

structure Visit where
  site : Site
  element : Element

mutual

/-- The elements of a tree in the order in which they are looked at, parents before children. What is below a
literal or below a count is left out. -/
def visits : Element → List Visit
  | .node k v args =>
    ⟨.operand, .node k v args⟩ ::
      if k = .literal then [] else visitsAll v ((Command.ofName? v).elim 0 (·.counts)) 0 args

def visitsAll (name : Bytes) (counts index : Nat) : List Element → List Visit
  | [] => []
  | e :: rest =>
    (if index < counts then [⟨.count index name, e⟩] else visits e) ++ visitsAll name counts (index + 1) rest

end

def ordinal : Nat → Bytes
  | 0 => "first"
  | 1 => "second"
  | _ => "third"

def Visit.violation? : Visit → Option Fault
  | ⟨.count index name, e⟩ =>
    if isInteger e.value then none
    else some { stage := .emit, cause := .notAnInteger (ordinal index) name e.value, token := e.value }
  | ⟨.operand, e⟩ =>
    if e.isLiteral then none
    else
      match Command.ofName? e.value with
      | none => some { stage := .emit, cause := .unknownCommand e.value, token := e.value }
      | some c =>
        if c.arity.accepts e.args.length then none
        else some { stage := .emit, cause := .argumentCount e.value c.arity e.args.length, token := e.value }

def firstViolation? (xs : List Visit) : Option Fault := xs.findSome? Visit.violation?

theorem visits_literal (v : Bytes) (args : List Element) :
    visits (.node .literal v args) = [⟨.operand, .node .literal v args⟩] := by
  rw [visits, if_pos rfl]

theorem visits_of_ne_literal {k : Kind} (hk : k ≠ .literal) (v : Bytes) (args : List Element) :
    visits (.node k v args) =
      ⟨.operand, .node k v args⟩ :: visitsAll v ((Command.ofName? v).elim 0 (·.counts)) 0 args := by
  rw [visits, if_neg hk]

theorem elements_visitsAll_sublist (name : Bytes) (counts index : Nat) {es : List Element}
    (h : ∀ e ∈ es, ((visits e).map (·.element)).Sublist (e.walk fun _ => true)) :
    ((visitsAll name counts index es).map (·.element)).Sublist (es.flatMap (walk fun _ => true)) := by
  induction es generalizing index with
  | nil => exact List.Sublist.refl _
  | cons e rest ih =>
    rw [visitsAll, List.map_append, List.flatMap_cons]
    apply List.Sublist.append _ (ih (index + 1) fun x hx => h x (List.mem_cons_of_mem e hx))
    split
    . obtain ⟨k, v, args⟩ := e
      rw [walk_of_enter rfl]
      exact List.singleton_sublist.2 List.mem_cons_self
    . exact h e List.mem_cons_self

theorem elements_visits_sublist (e : Element) :
    ((visits e).map (·.element)).Sublist (e.walk fun _ => true) := by
  induction e using argsInduction with
  | node k v args ih =>
    rw [walk_of_enter rfl]
    by_cases hk : k = .literal
    . subst hk
      rw [visits_literal]
      exact List.singleton_sublist.2 List.mem_cons_self
    . rw [visits_of_ne_literal hk, List.map_cons]
      exact (elements_visitsAll_sublist v _ 0 ih).cons_cons _

end Visits

section Emitting

theorem notAnInteger_eq {c : Command} {index : Nat} (h : index < c.counts) (name value : Bytes) :
    notAnInteger index name value =
      { stage := .emit, cause := .notAnInteger (ordinal index) name value, token := value } := by
  have hcounts : c.counts ≤ 2 := by cases c <;> decide
  obtain rfl | rfl : index = 0 ∨ index = 1 := by omega
  . rfl
  . rfl

theorem fault?_operand (name : Bytes) (c : Command) (index : Nat) {e : Element}
    (h : fault? (emit e) = firstViolation? (visits (normalize e))) :
    fault? (operand name c.counts index e) = firstViolation?
      (if index < c.counts then [⟨.count index name, normalize e⟩] else visits (normalize e)) := by
  rw [operand]
  split
  . next hindex =>
    rw [count, firstViolation?, List.findSome?_singleton, Visit.violation?, value_normalize]
    split
    . rfl
    . rw [notAnInteger_eq hindex]
      rfl
  . exact h

theorem fault?_emitAll (name : Bytes) (c : Command) (index : Nat) {es : List Element}
    (h : ∀ e ∈ es, fault? (emit e) = firstViolation? (visits (normalize e))) :
    fault? (emitAll name c.counts index es) =
      firstViolation? (visitsAll name c.counts index (normalizeAll es)) := by
  induction es generalizing index with
  | nil =>
    rw [emitAll, normalizeAll, visitsAll]
    rfl
  | cons e rest ih =>
    have hrest := ih (index + 1) fun x hx => h x (List.mem_cons_of_mem e hx)
    rw [emitAll_cons, normalizeAll, visitsAll, firstViolation?, List.findSome?_append]
    rw [fault?_bind fun part _ => fault?_map _ _, hrest, fault?_operand name c index (h e List.mem_cons_self)]
    rfl

theorem fault?_assemble {k : Kind} (hk : k ≠ .literal) (v : Bytes) {es : List Element}
    (h : ∀ e ∈ es, fault? (emit e) = firstViolation? (visits (normalize e))) :
    fault? (assemble v es) = firstViolation? (visits (.node k v (normalizeAll es))) := by
  have hliteral : (Element.node k v (normalizeAll es)).isLiteral = false := by simp [isLiteral, kind, hk]
  rw [assemble, visits_of_ne_literal hk, firstViolation?, List.findSome?_cons, Visit.violation?, hliteral]
  simp only [Bool.false_eq_true, if_false, Element.value, Element.args, length_normalizeAll]
  cases hc : Command.ofName? v with
  | none => rfl
  | some c =>
    dsimp only [Option.elim]
    by_cases haccepts : c.arity.accepts es.length
    . rw [if_pos haccepts, if_pos haccepts]
      calc fault? _
        _ = (fault? (emitAll v c.counts 0 es)).or none := by
          -- with its arguments at hand a command is always written
          apply fault?_bind
          intro parts hparts
          rw [← length_of_emitAll hparts] at haccepts
          obtain ⟨p, hp⟩ := Option.isSome_iff_exists.1 (render_isSome v haccepts)
          rw [hp]
          rfl
        _ = fault? (emitAll v c.counts 0 es) := Option.or_none
        _ = firstViolation? (visitsAll v c.counts 0 (normalizeAll es)) := fault?_emitAll v c 0 h
    . rw [if_neg haccepts, if_neg haccepts]
      rfl

theorem fault?_emit (e : Element) : fault? (emit e) = firstViolation? (visits (normalize e)) := by
  induction e using foldInduction with
  | literal v args =>
    rw [emit_literal, normalize_literal, literal, visits_literal]
    rfl
  | operands k v args hk ih =>
    rw [emit_of_ne_literal hk, normalize_of_ne_literal hk]
    exact fault?_assemble hk v ih

end Emitting

/-- A tree has no pattern exactly if an element of its normal form breaks its rule, and the fault is that of
the first such element in the order of the tree. -/
theorem emit_eq_error_iff_violation (e : Element) :
    ((∃ f, emit e = .error f) ↔ ∃ x ∈ visits (normalize e), x.violation?.isSome) ∧
    (∀ f, emit e = .error f ↔ firstViolation? (visits (normalize e)) = some f) ∧
    ((visits (normalize e)).map (·.element)).Sublist ((normalize e).walk fun _ => true) := by
  refine ⟨?_, ?_, elements_visits_sublist (normalize e)⟩
  . simp only [← fault?_eq_some_iff, fault?_emit, firstViolation?]
    rw [← Option.isSome_iff_exists, List.findSome?_isSome_iff]
  . intro f
    rw [← fault?_eq_some_iff, fault?_emit]

end Pattern

end VerboseExpr
