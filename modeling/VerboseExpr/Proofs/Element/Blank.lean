import VerboseExpr.Proofs.Element.Relabel

namespace VerboseExpr.Element

mutual

/-- The tree with the texts of its literals taken out. -/
def blank : Element → Element
  | node k v args => node k (if k = .literal then [] else v) (blankAll args)

def blankAll : List Element → List Element
  | [] => []
  | e :: rest => blank e :: blankAll rest

end

mutual

/-- The values of the count arguments in a tree, in its order. What stands below a count is left out. -/
def countTexts : Element → List Bytes
  | node k v args =>
    if k = .literal then [] else countTextsAll ((Command.ofName? v).elim 0 (·.counts)) args

def countTextsAll (counts : Nat) : List Element → List Bytes
  | [] => []
  | e :: rest =>
    match counts with
    | 0 => countTexts e ++ countTextsAll 0 rest
    | n + 1 => e.value :: countTextsAll n rest

end

/-- Two trees differ in nothing but the texts of literals that are not counts in the normal form. -/
structure SameButTexts (e e' : Element) : Prop where
  blank_eq : e.blank = e'.blank
  countTexts_eq : e.normalize.countTexts = e'.normalize.countTexts

theorem blankAll_eq_map (es : List Element) : blankAll es = es.map blank := by
  induction es with
  | nil => rfl
  | cons e rest ih => rw [blankAll, ih, List.map_cons]

theorem blank_literal (v : Bytes) (args : List Element) :
    blank (.node .literal v args) = .node .literal [] (blankAll args) := by
  rw [blank, if_pos rfl]

theorem blank_of_ne_literal {k : Kind} (hk : k ≠ .literal) (v : Bytes) (args : List Element) :
    blank (.node k v args) = .node k v (blankAll args) := by
  rw [blank, if_neg hk]

theorem relabels_blank : Relabels blank fun k v => if k = .literal then [] else v where
  node_eq k v args := by rw [blank, blankAll_eq_map]
  ofName?_eq k v hk := by rw [if_neg hk]

theorem fold_blankAll (es : List Element) : fold (blankAll es) = blankAll (fold es) := by
  rw [blankAll_eq_map, blankAll_eq_map, relabels_blank.fold_map]

theorem normalize_blank (e : Element) : normalize (blank e) = blank (normalize e) := relabels_blank.normalize_eq e

mutual

theorem length_countTexts_blank : ∀ e, (countTexts (blank e)).length = (countTexts e).length
  | node k v args => by
    by_cases hk : k = .literal
    . subst hk
      rw [blank_literal, countTexts, countTexts, if_pos rfl, if_pos rfl]
    . rw [blank_of_ne_literal hk, countTexts, countTexts, if_neg hk, if_neg hk, length_countTextsAll_blankAll]

theorem length_countTextsAll_blankAll :
    ∀ es (counts : Nat), (countTextsAll counts (blankAll es)).length = (countTextsAll counts es).length
  | [], _ => by rw [blankAll]
  | e :: rest, 0 => by
    rw [blankAll, countTextsAll, countTextsAll, List.length_append, List.length_append, length_countTexts_blank e,
      length_countTextsAll_blankAll rest]
  | e :: rest, n + 1 => by
    rw [blankAll, countTextsAll, countTextsAll, List.length_cons, List.length_cons,
      length_countTextsAll_blankAll rest]

end

theorem length_countTexts_normalize {e e' : Element} (h : e.blank = e'.blank) :
    (countTexts (normalize e)).length = (countTexts (normalize e')).length := by
  rw [← length_countTexts_blank, ← normalize_blank, h, normalize_blank, length_countTexts_blank]

/-- Arguments of which the first `counts` have the same values and the others differ in texts only. -/
inductive SameOperands : (counts : Nat) → List Element → List Element → Prop where
  | nil {counts : Nat} : SameOperands counts [] []
  | count {counts : Nat} {e e' : Element} {es es' : List Element} :
    e.value = e'.value → SameOperands counts es es' → SameOperands (counts + 1) (e :: es) (e' :: es')
  | operand {e e' : Element} {es es' : List Element} :
    SameButTexts e e' → SameOperands 0 es es' → SameOperands 0 (e :: es) (e' :: es')

theorem SameOperands.length_eq {counts : Nat} {es es' : List Element} (h : SameOperands counts es es') :
    es.length = es'.length := by
  induction h with
  | nil => rfl
  | count _ _ ih | operand _ _ ih => rw [List.length_cons, List.length_cons, ih]

theorem sameOperands_of_eq {counts : Nat} {es es' : List Element} (hblank : blankAll es = blankAll es')
    (hcounts : countTextsAll counts (normalizeAll es) = countTextsAll counts (normalizeAll es')) :
    SameOperands counts es es' := by
  induction es generalizing counts es' with
  | nil =>
    cases es' with
    | nil => exact .nil
    | cons e' es' => simp [blankAll] at hblank
  | cons e es ih =>
    cases es' with
    | nil => simp [blankAll] at hblank
    | cons e' es' =>
      rw [blankAll, blankAll, List.cons.injEq] at hblank
      rw [normalizeAll, normalizeAll] at hcounts
      cases counts with
      | zero =>
        rw [countTextsAll, countTextsAll] at hcounts
        -- equal skeletons have equally many texts, so that the texts of the first operand can be told from the rest
        obtain ⟨hfirst, hrest⟩ := List.append_inj hcounts (length_countTexts_normalize hblank.1)
        exact .operand ⟨hblank.1, hfirst⟩ (ih hblank.2 hrest)
      | succ counts =>
        rw [countTextsAll, countTextsAll, List.cons.injEq, value_normalize, value_normalize] at hcounts
        exact .count hcounts.1 (ih hblank.2 hcounts.2)

theorem SameButTexts.exists_literal {v : Bytes} {args : List Element} {e' : Element}
    (h : SameButTexts (.node .literal v args) e') : ∃ v' args', e' = .node .literal v' args' := by
  obtain ⟨k', v', args'⟩ := e'
  have hkind := congrArg kind h.blank_eq
  rw [blank, blank, kind, kind] at hkind
  exact ⟨v', args', by rw [hkind]⟩

theorem SameButTexts.exists_operands {k : Kind} {v : Bytes} {args : List Element} {e' : Element} (hk : k ≠ .literal)
    (h : SameButTexts (.node k v args) e') :
    ∃ args', e' = .node k v args' ∧
      SameOperands ((Command.ofName? v).elim 0 (·.counts)) (fold args) (fold args') := by
  obtain ⟨k', v', args'⟩ := e'
  obtain ⟨hblank, hcounts⟩ := h
  obtain rfl : k = k' := by
    have hkind := congrArg kind hblank
    rwa [blank, blank, kind, kind] at hkind
  rw [blank_of_ne_literal hk, blank_of_ne_literal hk, node.injEq] at hblank
  obtain ⟨-, rfl, hargs⟩ := hblank
  rw [normalize_of_ne_literal hk, normalize_of_ne_literal hk, countTexts, countTexts, if_neg hk, if_neg hk] at hcounts
  refine ⟨args', rfl, sameOperands_of_eq ?_ hcounts⟩
  rw [← fold_blankAll, hargs, fold_blankAll]

end VerboseExpr.Element
