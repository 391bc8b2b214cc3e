import VerboseExpr.Pattern.Emit
import VerboseExpr.Proofs.Element.Fold
import VerboseExpr.Proofs.Except

namespace VerboseExpr.Pattern

theorem emit_literal (v : Bytes) (args : List Element) :
    emit (.node .literal v args) = .ok (escape v) := by
  rw [emit]
  simp

/-- What `emit` does with a command, seen through its operands. -/
def assemble (v : Bytes) (operands : List Element) : Except Fault Bytes :=
  match Command.ofName? v with
  | none => .error (unknownCommand v)
  | some c =>
    if c.arity.accepts operands.length then do
      let parts ← emitAll v c.counts 0 operands
      match c.render v parts with
      | some p => .ok p
      | none => .error Fault.outOfRange
    else .error (argumentCount v c.arity operands.length)

theorem assemble_eq_ok_iff {v p : Bytes} {c : Command} {operands : List Element} (hc : Command.ofName? v = some c) :
    assemble v operands = .ok p ↔ c.arity.accepts operands.length ∧
      ∃ parts, emitAll v c.counts 0 operands = .ok parts ∧ c.render v parts = some p := by
  rw [assemble, hc]
  dsimp only
  by_cases harity : c.arity.accepts operands.length
  . rw [if_pos harity, and_iff_right harity]
    refine Except.bind_eq_ok_iff.trans (exists_congr fun parts => and_congr_right fun _ => ?_)
    cases c.render v parts <;> simp
  . simp [harity]

theorem exists_of_assemble {v p : Bytes} {operands : List Element} (h : assemble v operands = .ok p) :
    ∃ c parts, Command.ofName? v = some c ∧ c.arity.accepts operands.length ∧
      emitAll v c.counts 0 operands = .ok parts ∧ c.render v parts = some p := by
  cases hc : Command.ofName? v with
  | none => simp [assemble, hc] at h
  | some c =>
    obtain ⟨harity, parts, hparts, hrender⟩ := (assemble_eq_ok_iff hc).1 h
    exact ⟨c, parts, rfl, harity, hparts, hrender⟩

theorem emit_of_ne_literal {k : Kind} (hk : k ≠ .literal) (v : Bytes) (args : List Element) :
    emit (.node k v args) = assemble v (Element.fold args) := by
  rw [emit]
  simp only [hk, if_false]
  rfl

theorem emitAll_normalizeAll (name : Bytes) (counts index : Nat) {es : List Element}
    (h : ∀ e ∈ es, emit (Element.normalize e) = emit e) :
    emitAll name counts index (Element.normalizeAll es) = emitAll name counts index es := by
  induction es generalizing index with
  | nil => rw [Element.normalizeAll]
  | cons e rest ih =>
    have he : emit (Element.normalize e) = emit e := h e List.mem_cons_self
    have hrest : ∀ x ∈ rest, emit (Element.normalize x) = emit x :=
      fun x hx => h x (List.mem_cons_of_mem e hx)
    rw [Element.normalizeAll, emitAll, emitAll]
    rw [Element.value_normalize, he, ih (index + 1) hrest]

theorem assemble_normalizeAll (v : Bytes) {es : List Element}
    (h : ∀ e ∈ es, emit (Element.normalize e) = emit e) :
    assemble v (Element.normalizeAll es) = assemble v es := by
  unfold assemble
  split
  . rfl
  . rw [Element.length_normalizeAll, emitAll_normalizeAll v _ 0 h]

theorem emit_normalize (e : Element) : emit (Element.normalize e) = emit e := by
  induction e using Element.foldInduction with
  | literal v args =>
    rw [Element.normalize_literal, Element.literal, emit_literal, emit_literal]
  | operands k v args hk ih =>
    rw [Element.normalize_of_ne_literal hk, emit_of_ne_literal hk, emit_of_ne_literal hk]
    rw [Element.fold_normalizeAll_fold]
    rw [assemble_normalizeAll v ih]

end VerboseExpr.Pattern
