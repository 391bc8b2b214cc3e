import Mathlib.Data.List.Basic
import VerboseExpr.Proofs.Element.Relabel

/-!
The elements of a tree in the order in which they are written. A bare command stands right before the elements
that it is applied to, so applying it neither loses nor moves anything: only the depth of elements grows. Main
statement: a tree and its normal form have the same elements in the same order, which is why emitting and
normalizing end though they may go deeper than the tree.
-/

namespace VerboseExpr.Element

section Walks

mutual

theorem map_walkFrom (enter : Element → Bool) (d d' : Nat) :
    ∀ e, (walkFrom enter d e).map (·.2) = (walkFrom enter d' e).map (·.2)
  | node k v args => by
    rw [walkFrom, walkFrom]
    split
    . rw [List.map_cons, List.map_cons, map_walkAllFrom enter (d + 1) (d' + 1) args]
    . rfl

theorem map_walkAllFrom (enter : Element → Bool) (d d' : Nat) :
    ∀ es, (walkAllFrom enter d es).map (·.2) = (walkAllFrom enter d' es).map (·.2)
  | [] => rfl
  | e :: rest => by
    rw [walkAllFrom, walkAllFrom, List.map_append, List.map_append, map_walkFrom enter d d' e,
      map_walkAllFrom enter d d' rest]

end

theorem map_walkAllFrom_eq_flatMap (enter : Element → Bool) (d : Nat) (es : List Element) :
    (walkAllFrom enter d es).map (·.2) = es.flatMap (walk enter) := by
  induction es with
  | nil => rfl
  | cons e rest ih => rw [walkAllFrom, List.map_append, ih, map_walkFrom enter d 0, List.flatMap_cons, walk]

theorem walk_of_enter {enter : Element → Bool} {k : Kind} {v : Bytes} {args : List Element}
    (h : enter (node k v args)) : walk enter (node k v args) = node k v args :: args.flatMap (walk enter) := by
  rw [walk, walkFrom, if_pos h, List.map_cons, map_walkAllFrom_eq_flatMap]

theorem walk_of_not_enter {enter : Element → Bool} {k : Kind} {v : Bytes} {args : List Element}
    (h : ¬ enter (node k v args)) : walk enter (node k v args) = [node k v args] := by
  rw [walk, walkFrom, if_neg h]
  rfl

end Walks

section Entries

/-- The kind and the value of every element of a tree, parents before children and none below a literal. -/
def entries (e : Element) : List (Kind × Bytes) := (e.walk (!·.isLiteral)).map fun x => (x.kind, x.value)

@[simp]
theorem entries_literal (v : Bytes) (args : List Element) : entries (.node .literal v args) = [(.literal, v)] := by
  rw [entries, walk_of_not_enter (by simp [isLiteral, kind])]
  rfl

theorem entries_of_ne_literal {k : Kind} (hk : k ≠ .literal) (v : Bytes) (args : List Element) :
    entries (.node k v args) = (k, v) :: args.flatMap entries := by
  rw [entries, walk_of_enter (by simp [isLiteral, kind, hk]), List.map_cons, List.map_flatMap]
  rfl

@[simp]
theorem entries_command (name : Bytes) (args : List Element) :
    entries (command name args) = (.command, name) :: args.flatMap entries :=
  entries_of_ne_literal (by decide) name args

theorem flatMap_entries_fold (es : List Element) : (fold es).flatMap entries = es.flatMap entries := by
  fun_induction fold es with
  | case1 => rfl
  | case2 e rest _ ih => rw [List.flatMap_cons, ih, List.flatMap_cons]
  | case3 e rest c hbare n ih =>
    have he : entries e = [(.command, e.value)] := by
      rw [(bareCommand?_eq_some hbare).1, entries_command]
      rfl
    rw [List.flatMap_cons, entries_command, ih, List.cons_append, ← List.flatMap_append, List.take_append_drop,
      List.flatMap_cons, he]
    rfl

theorem entries_normalize (e : Element) : entries (normalize e) = entries e := by
  induction e using foldInduction with
  | literal v args => rw [normalize_literal, literal, entries_literal, entries_literal]
  | operands k v args hk ih =>
    rw [normalize_of_ne_literal hk, entries_of_ne_literal hk, entries_of_ne_literal hk, normalizeAll_eq_map,
      List.flatMap_map, List.flatMap_congr ih, flatMap_entries_fold]

end Entries

section Literals

def LiteralsBare (e : Element) : Prop := ∀ x ∈ e.walk fun _ => true, x.isLiteral → x.args = []

theorem literalsBare_iff (k : Kind) (v : Bytes) (args : List Element) :
    LiteralsBare (node k v args) ↔ (k = .literal → args = []) ∧ ∀ e ∈ args, LiteralsBare e := by
  unfold LiteralsBare
  rw [walk_of_enter rfl, List.forall_mem_cons, List.forall_mem_flatMap]
  simp [isLiteral, kind, Element.args]

theorem LiteralsBare.walk_eq {e : Element} (h : LiteralsBare e) :
    (e.walk fun _ => true) = e.walk (!·.isLiteral) := by
  induction e using argsInduction with
  | node k v args ih =>
    obtain ⟨hk, hargs⟩ := (literalsBare_iff k v args).1 h
    rw [walk_of_enter rfl]
    by_cases hliteral : k = .literal
    . rw [walk_of_not_enter (by simp [isLiteral, kind, hliteral]), hk hliteral, List.flatMap_nil]
    . rw [walk_of_enter (by simp [isLiteral, kind, hliteral])]
      congr 1
      exact List.flatMap_congr fun e he => ih e he (hargs e he)

theorem LiteralsBare.map_preorder {e : Element} (h : LiteralsBare e) :
    e.preorder.map (fun (_, x) => (x.kind, x.value)) = entries e := by
  rw [entries, ← h.walk_eq, walk, List.map_map]
  rfl

theorem mem_of_mem_fold {o : Element} {es : List Element} (h : o ∈ fold es) :
    o ∈ es ∨ ∃ v operands, o = command v operands ∧ operands ⊆ es := by
  fun_induction fold es with
  | case1 => exact .inl h
  | case2 e rest _ ih =>
    cases List.mem_cons.1 h with
    | inl heq => exact .inl (heq ▸ List.mem_cons_self)
    | inr hmem =>
      obtain hrest | ⟨v, operands, heq, hsub⟩ := ih hmem
      . exact .inl (List.mem_cons_of_mem e hrest)
      . exact .inr ⟨v, operands, heq, fun x hx => List.mem_cons_of_mem e (hsub hx)⟩
  | case3 e rest c _ n ih =>
    have hdrop : ∀ x ∈ rest.drop n, x ∈ e :: rest := fun x hx => List.mem_cons_of_mem e (List.mem_of_mem_drop hx)
    cases List.mem_cons.1 h with
    | inl heq =>
      exact .inr ⟨e.value, rest.take n, heq, fun x hx => List.mem_cons_of_mem e (List.mem_of_mem_take hx)⟩
    | inr hmem =>
      obtain hrest | ⟨v, operands, heq, hsub⟩ := ih hmem
      . exact .inl (hdrop o hrest)
      . exact .inr ⟨v, operands, heq, fun x hx => hdrop x (hsub hx)⟩

theorem LiteralsBare.of_mem_fold {o : Element} {args : List Element} (hargs : ∀ e ∈ args, LiteralsBare e)
    (h : o ∈ fold args) : LiteralsBare o := by
  obtain hmem | ⟨v, operands, rfl, hsub⟩ := mem_of_mem_fold h
  . exact hargs o hmem
  . rw [command, literalsBare_iff]
    exact ⟨by simp, fun x hx => hargs x (hsub hx)⟩

theorem LiteralsBare.normalize (e : Element) : LiteralsBare (normalize e) := by
  induction e using foldInduction with
  | literal v args =>
    rw [normalize_literal, literal, literalsBare_iff]
    simp
  | operands k v args hk ih =>
    rw [normalize_of_ne_literal hk, literalsBare_iff, normalizeAll_eq_map]
    refine ⟨fun hliteral => absurd hliteral hk, ?_⟩
    intro x hx
    obtain ⟨o, ho, rfl⟩ := List.mem_map.1 hx
    exact ih o ho

end Literals

section Sizes

theorem length_flatMap_eq_sizeAll {f : Element → List Element} {es : List Element}
    (h : ∀ e ∈ es, (f e).length = e.size) : (es.flatMap f).length = sizeAll es := by
  induction es with
  | nil => rfl
  | cons e rest ih =>
    have he := h e List.mem_cons_self
    have hrest := ih fun x hx => h x (List.mem_cons_of_mem e hx)
    rw [List.flatMap_cons, List.length_append, he, hrest, sizeAll]

theorem length_walk (e : Element) : (e.walk fun _ => true).length = e.size := by
  induction e using argsInduction with
  | node k v args ih => rw [walk_of_enter rfl, List.length_cons, length_flatMap_eq_sizeAll ih, size]

theorem size_eq_length_preorder (e : Element) : e.size = e.preorder.length := by
  rw [← length_walk, walk, List.length_map]
  rfl

theorem size_le_sizeAll {e : Element} {es : List Element} (h : e ∈ es) : e.size ≤ sizeAll es := by
  induction es with
  | nil => simp at h
  | cons x rest ih =>
    rw [sizeAll]
    cases List.mem_cons.1 h with
    | inl heq =>
      rw [heq]
      omega
    | inr hmem =>
      have := ih hmem
      omega

theorem size_lt_of_mem_fold {e o : Element} (h : o ∈ fold e.args) : o.size < e.size := by
  obtain ⟨k, v, args⟩ := e
  have hle := size_le_sizeAll h
  rw [sizeAll_fold] at hle
  rw [size]
  exact Nat.lt_succ_of_le hle

end Sizes

section Depths

theorem depthAll_append (xs ys : List Element) : depthAll (xs ++ ys) = max (depthAll xs) (depthAll ys) := by
  induction xs with
  | nil => simp [depthAll]
  | cons x xs ih => rw [List.cons_append, depthAll, ih, depthAll, Nat.max_assoc]

theorem depthAll_le_fold (es : List Element) : depthAll es ≤ depthAll (fold es) := by
  fun_induction fold es with
  | case1 => exact Nat.le_refl _
  | case2 e rest _ ih =>
    rw [depthAll, depthAll]
    omega
  | case3 e rest c hbare n ih =>
    have he : e.depth = 0 := by
      rw [(bareCommand?_eq_some hbare).1]
      rfl
    have hrest : depthAll rest = max (depthAll (rest.take n)) (depthAll (rest.drop n)) := by
      rw [← depthAll_append, List.take_append_drop]
    rw [depthAll, depthAll, command, depth, he, hrest]
    omega

theorem depthAll_le_map {f : Element → Element} {es : List Element} (h : ∀ e ∈ es, e.depth ≤ (f e).depth) :
    depthAll es ≤ depthAll (es.map f) := by
  induction es with
  | nil => exact Nat.le_refl _
  | cons e rest ih =>
    have he := h e List.mem_cons_self
    have hrest := ih fun x hx => h x (List.mem_cons_of_mem e hx)
    rw [List.map_cons, depthAll, depthAll]
    omega

theorem LiteralsBare.depth_le {e : Element} (h : LiteralsBare e) : e.depth ≤ (Element.normalize e).depth := by
  induction e using foldInduction with
  | literal v args =>
    rw [((literalsBare_iff _ v args).1 h).1 rfl, depth]
    exact Nat.zero_le _
  | operands k v args hk ih =>
    have hargs := ((literalsBare_iff k v args).1 h).2
    rw [normalize_of_ne_literal hk, normalizeAll_eq_map, depth, depth]
    calc depthAll args
      _ ≤ depthAll (fold args) := depthAll_le_fold args
      _ ≤ depthAll ((fold args).map Element.normalize) :=
        depthAll_le_map fun o ho => ih o ho (LiteralsBare.of_mem_fold hargs ho)

theorem fold_bare_oneOrMore (rest : List Element) : fold (command "+" [] :: rest) = [command "+" rest] := by
  have hbare : (command "+" []).bareCommand? = some .oneOrMore := by decide
  have htaken : Command.oneOrMore.arity.taken rest.length = rest.length := rfl
  rw [fold, hbare]
  dsimp only
  rw [htaken, List.take_length, List.drop_length, fold]
  rfl

theorem depthAll_normalizeAll_fold_row (n : Nat) :
    depthAll (normalizeAll (fold (List.replicate n (command "+" []) ++ [literal "a"]))) = n + 1 := by
  induction n with
  | zero =>
    have hbare : (literal "a").bareCommand? = none := by decide
    rw [List.replicate_zero, List.nil_append, fold, hbare]
    dsimp only
    rw [fold, normalizeAll, normalizeAll, literal, normalize_literal]
    rfl
  | succ n ih =>
    rw [List.replicate_succ, List.cons_append, fold_bare_oneOrMore, normalizeAll, normalizeAll, command,
      normalize_of_ne_literal (by decide), depthAll, depthAll, depth, ih]
    omega

theorem depthAll_row (n : Nat) : depthAll (List.replicate n (command "+" []) ++ [literal "a"]) = 1 := by
  induction n with
  | zero => rfl
  | succ n ih =>
    rw [List.replicate_succ, List.cons_append, depthAll, ih]
    rfl

theorem exists_depth_normalize (n : Nat) : ∃ e, LiteralsBare e ∧ e.depth = 1 ∧ (Element.normalize e).depth = n + 1 := by
  refine ⟨command rootName (List.replicate n (command "+" []) ++ [literal "a"]), ?_, ?_, ?_⟩
  . rw [command, literalsBare_iff]
    refine ⟨by simp, ?_⟩
    intro e he
    rw [List.mem_append, List.mem_replicate, List.mem_singleton] at he
    obtain ⟨-, rfl⟩ | rfl := he
    . simp [command, literalsBare_iff]
    . simp [literal, literalsBare_iff]
  . rw [command, depth, depthAll_row]
  . rw [command, normalize_of_ne_literal (by decide), depth, depthAll_normalizeAll_fold_row]

end Depths

/-- Normalizing changes neither the elements of a tree nor their order. What emitting and normalizing go on
with has fewer elements than what they come from, although the tree may become deeper by any amount. -/
theorem preorder_normalize :
    (∀ e, LiteralsBare e →
      (normalize e).preorder.map (fun (_, x) => (x.kind, x.value)) = e.preorder.map (fun (_, x) => (x.kind, x.value)) ∧
        (normalize e).size = e.size ∧ e.depth ≤ (normalize e).depth) ∧
    (∀ e o : Element, o ∈ fold e.args → o.size < e.size) ∧
    ∀ n, ∃ e, LiteralsBare e ∧ e.depth = 1 ∧ (normalize e).depth = n + 1 := by
  refine ⟨?_, fun e o => size_lt_of_mem_fold, exists_depth_normalize⟩
  intro e h
  have horder := entries_normalize e
  rw [← (LiteralsBare.normalize e).map_preorder, ← h.map_preorder] at horder
  have hlength := congrArg List.length horder
  rw [List.length_map, List.length_map, ← size_eq_length_preorder, ← size_eq_length_preorder] at hlength
  exact ⟨horder, hlength, h.depth_le⟩

def chainedArgs : List Element :=
  [command "range" [], literal "a", literal "z", .node .unknown "range" [], command "times" [], command "2" [],
    literal "!"]

def chainedTree : Element := command rootName (command "begin" [] :: command "?" [] :: chainedArgs)

theorem preorder_normalize_chained :
    (LiteralsBare chainedTree ∧
      (normalize chainedTree).preorder.map (fun (_, x) => (x.kind, x.value)) =
          chainedTree.preorder.map (fun (_, x) => (x.kind, x.value)) ∧
        (normalize chainedTree).size = chainedTree.size ∧ chainedTree.depth ≤ (normalize chainedTree).depth) ∧
    command "?" chainedArgs ∈ fold chainedTree.args ∧ (command "?" chainedArgs).size < chainedTree.size := by
  have he : LiteralsBare chainedTree := by
    unfold LiteralsBare
    decide
  have ho : command "?" chainedArgs ∈ fold chainedTree.args := by decide +kernel
  exact ⟨⟨he, preorder_normalize.1 chainedTree he⟩, ho, preorder_normalize.2.1 chainedTree _ ho⟩

end VerboseExpr.Element
