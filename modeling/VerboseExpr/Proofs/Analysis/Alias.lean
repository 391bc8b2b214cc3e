import Mathlib
import VerboseExpr.Proofs.Analysis.Relabel

/-!
The names of a command. Main statement: every name may be exchanged for the first one of its command, wherever
it stands in a tree, without a change to the pattern or to the analysis. Only the control characters are told
apart by their names.
-/

namespace VerboseExpr

namespace Command

/-- The first name of the command that is called, if it is one and no control character. -/
def canonicalName (v : Bytes) : Bytes :=
  match ofName? v with
  | none | some control => v
  | some c => c.name

theorem canonicalName_of_ne {v : Bytes} {c : Command} (hc : ofName? v = some c) (hne : c ≠ control) :
    canonicalName v = c.name := by
  unfold canonicalName
  rw [hc]
  cases c with
  | control => contradiction
  | _ => rfl

theorem ofName?_canonicalName (v : Bytes) : ofName? (canonicalName v) = ofName? v := by
  cases hc : ofName? v with
  | none =>
    unfold canonicalName
    rw [hc]
    exact hc
  | some c =>
    by_cases hcontrol : c = control
    . unfold canonicalName
      rw [hc, hcontrol]
      rw [hcontrol] at hc
      exact hc
    . rw [canonicalName_of_ne hc hcontrol]
      apply Pattern.ofName?_of_mem_names
      exact List.mem_cons_self

theorem canonicalName_integer {v : Bytes} (h : Pattern.isInteger v) : canonicalName v = v := by
  unfold canonicalName
  rw [Pattern.ofName?_integer h]

theorem isInteger_canonicalName (v : Bytes) : Pattern.isInteger (canonicalName v) = Pattern.isInteger v := by
  rw [Bool.eq_iff_iff]
  constructor
  . intro h
    -- a number calls no command, and neither does the name that it came from
    have hnone : ofName? v = none := by rw [← ofName?_canonicalName, Pattern.ofName?_integer h]
    unfold canonicalName at h
    rwa [hnone] at h
  . intro h
    rwa [canonicalName_integer h]

theorem render_canonicalName {v : Bytes} {c : Command} (hc : ofName? v = some c) (parts : List Bytes) :
    c.render (canonicalName v) parts = c.render v parts := by
  cases c with
  | control =>
    unfold canonicalName
    rw [hc]
  | range | reference | times | minTimes | minMaxTimes => obtain _ | ⟨n, _ | ⟨m, body⟩⟩ := parts <;> rfl
  | _ => rfl

end Command

namespace Element

mutual

def canonical : Element → Element
  | node k v args => node k (if k = .literal then v else Command.canonicalName v) (canonicalAll args)

def canonicalAll : List Element → List Element
  | [] => []
  | e :: rest => canonical e :: canonicalAll rest

end

theorem canonicalAll_eq_map (es : List Element) : canonicalAll es = es.map canonical := by
  induction es with
  | nil => rfl
  | cons e rest ih => rw [canonicalAll, ih, List.map_cons]

theorem relabels_canonical :
    Relabels canonical fun k v => if k = .literal then v else Command.canonicalName v where
  node_eq k v args := by rw [canonical, canonicalAll_eq_map]
  ofName?_eq k v hk := by rw [if_neg hk, Command.ofName?_canonicalName]

theorem count_canonical (e : Element) :
    Pattern.isInteger (canonical e).value = Pattern.isInteger e.value ∧
      (Pattern.isInteger e.value → (canonical e).value = e.value) := by
  rw [relabels_canonical.value_eq]
  split
  . exact ⟨rfl, fun _ => rfl⟩
  . exact ⟨Command.isInteger_canonicalName e.value, Command.canonicalName_integer⟩

end Element

namespace Pattern

open Element

theorem toOption_bind {α β : Type} (x : Except Fault α) (k : α → Except Fault β) :
    (x.bind k).toOption = x.toOption.bind fun a => (k a).toOption := by
  cases x <;> rfl

theorem toOption_map {α β : Type} (x : Except Fault α) (k : α → β) : (x.map k).toOption = x.toOption.map k := by
  cases x <;> rfl

theorem toOption_assemble (v : Bytes) (es : List Element) :
    (assemble v es).toOption = (Command.ofName? v).bind fun c =>
      if c.arity.accepts es.length then (emitAll v c.counts 0 es).toOption.bind (c.render v) else none := by
  unfold assemble
  cases Command.ofName? v with
  | none => rfl
  | some c =>
    dsimp only [Option.bind_some]
    split
    . cases emitAll v c.counts 0 es with
      | error f => rfl
      | ok parts =>
        simp only [bind, Except.bind, Except.toOption, Option.bind_some]
        cases c.render v parts <;> rfl
    . rfl

theorem toOption_operand_canonical (name name' : Bytes) (counts index : Nat) {e : Element}
    (ih : (emit (canonical e)).toOption = (emit e).toOption) :
    (operand name counts index (canonical e)).toOption = (operand name' counts index e).toOption := by
  unfold operand
  split
  . obtain ⟨hinteger, hvalue⟩ := count_canonical e
    unfold count
    rw [hinteger]
    split
    . next h => rw [hvalue h]
    . rfl
  . exact ih

theorem toOption_emitAll_canonical (name name' : Bytes) (counts index : Nat) {es : List Element}
    (ih : ∀ e ∈ es, (emit (canonical e)).toOption = (emit e).toOption) :
    (emitAll name counts index (es.map canonical)).toOption = (emitAll name' counts index es).toOption := by
  induction es generalizing index with
  | nil =>
    rw [List.map_nil, emitAll, emitAll]
  | cons e rest ihrest =>
    rw [List.forall_mem_cons] at ih
    rw [List.map_cons, emitAll_cons, emitAll_cons, toOption_bind, toOption_bind,
      toOption_operand_canonical name name' counts index ih.1]
    simp only [toOption_map, ihrest (index + 1) ih.2]

theorem toOption_emit_canonical (e : Element) : (emit (canonical e)).toOption = (emit e).toOption := by
  induction e using foldInduction with
  | literal v args => rw [canonical, if_pos rfl, emit_literal, emit_literal]
  | operands k v args hk ih =>
    rw [canonical, if_neg hk, emit_of_ne_literal hk, emit_of_ne_literal hk, canonicalAll_eq_map,
      relabels_canonical.fold_map, toOption_assemble, toOption_assemble, Command.ofName?_canonicalName,
      List.length_map]
    cases hc : Command.ofName? v with
    | none => rfl
    | some c =>
      simp only [Option.bind_some, toOption_emitAll_canonical _ v c.counts 0 ih, Command.render_canonicalName hc]

theorem toOption_eq_some_iff {x : Except Fault Bytes} {p : Bytes} : x.toOption = some p ↔ x = .ok p := by
  cases x <;> simp [Except.toOption]

end Pattern

open Element Pattern

/-- All names of a command may be used in its place: neither the pattern nor anything that is known of a tree
depends on them. -/
theorem canonical_interchangeable (e : Element) :
    (∀ p, emit e.canonical = .ok p ↔ emit e = .ok p) ∧
      ∀ p, Analysis.ofTree e.canonical.normalize p = Analysis.ofTree e.normalize p := by
  constructor
  . intro p
    rw [← toOption_eq_some_iff, ← toOption_eq_some_iff, toOption_emit_canonical]
  . intro p
    rw [relabels_canonical.normalize_eq, relabels_canonical.ofTree_eq]

example : canonical (command "|" [command "^" [], command "?" [literal "?"], command "\\t" []]) =
    command "or" [command "begin" [], command "optional" [literal "?"], command "\\t" []] := by decide +kernel

end VerboseExpr
