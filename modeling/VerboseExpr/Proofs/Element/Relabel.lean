import VerboseExpr.Proofs.Element.Fold

namespace VerboseExpr.Element

@[elab_as_elim]
theorem argsInduction {P : Element → Prop} (e : Element)
    (node : ∀ k v args, (∀ e ∈ args, P e) → P (.node k v args)) : P e := by
  apply Element.rec (motive_1 := P) (motive_2 := fun es => ∀ e ∈ es, P e)
  . exact node
  . simp
  . intro e rest he hrest
    exact List.forall_mem_cons.2 ⟨he, hrest⟩

/-- The map gives every element another value according to `f`, but no other command. -/
structure Relabels (g : Element → Element) (f : Kind → Bytes → Bytes) : Prop where
  node_eq : ∀ k v args, g (.node k v args) = .node k (f k v) (args.map g)
  ofName?_eq : ∀ k v, k ≠ .literal → Command.ofName? (f k v) = Command.ofName? v

namespace Relabels

variable {g : Element → Element} {f : Kind → Bytes → Bytes}

theorem command_eq (h : Relabels g f) (v : Bytes) (args : List Element) :
    g (command v args) = command (f .command v) (args.map g) := h.node_eq .command v args

theorem value_eq (h : Relabels g f) (e : Element) : (g e).value = f e.kind e.value := by
  obtain ⟨k, v, args⟩ := e
  rw [h.node_eq]
  rfl

theorem bareCommand?_eq (h : Relabels g f) (e : Element) : (g e).bareCommand? = e.bareCommand? := by
  obtain ⟨k, v, args⟩ := e
  rw [h.node_eq]
  cases k with
  | literal | unknown => rfl
  | command =>
    have hname := h.ofName?_eq .command v (by decide)
    unfold bareCommand?
    simp [isCommand, kind, Element.args, value, hname]

theorem fold_map (h : Relabels g f) (es : List Element) : fold (es.map g) = (fold es).map g := by
  fun_induction fold es with
  | case1 => rw [List.map_nil, fold]
  | case2 e rest hbare ih =>
    rw [List.map_cons, fold, h.bareCommand?_eq, hbare]
    dsimp only
    rw [ih, List.map_cons]
  | case3 e rest c hbare n ih =>
    have hkind : e.kind = .command := by
      rw [(bareCommand?_eq_some hbare).1]
      rfl
    rw [List.map_cons, fold, h.bareCommand?_eq, hbare]
    dsimp only
    rw [List.length_map, ← List.map_take, ← List.map_drop, ih, List.map_cons, h.command_eq, h.value_eq, hkind]

theorem normalize_eq (h : Relabels g f) (e : Element) : normalize (g e) = g (normalize e) := by
  induction e using foldInduction with
  | literal v args =>
    rw [h.node_eq, normalize_literal, normalize_literal, literal, literal, h.node_eq, List.map_nil]
  | operands k v args hk ih =>
    rw [h.node_eq, normalize_of_ne_literal hk, normalize_of_ne_literal hk, h.node_eq, h.fold_map,
      normalizeAll_eq_map, normalizeAll_eq_map, List.map_map, List.map_map]
    congr 1
    exact List.map_congr_left ih

end Relabels

end VerboseExpr.Element
