import VerboseExpr.Element.Normal

namespace VerboseExpr

theorem Command.taken_pos {c : Command} {n : Nat} (hmin : c.arity.min ≠ 0) (hn : 0 < n) :
    0 < c.arity.taken n := by
  cases c with
  | control | anyCharacter | start | finish | group | concatenation => exact absurd rfl hmin
  | reference =>
    have : Command.reference.arity.taken n = Nat.min 1 n := rfl
    rw [this]
    exact Nat.lt_min.2 ⟨by omega, hn⟩
  | range =>
    have : Command.range.arity.taken n = Nat.min 2 n := rfl
    rw [this]
    exact Nat.lt_min.2 ⟨by omega, hn⟩
  | except | oneOrMore | optional | alternation | zeroOrMore | times | minTimes | minMaxTimes =>
    exact hn

namespace Element

theorem bareCommand?_eq_some {e : Element} {c : Command} (h : e.bareCommand? = some c) :
    e = command e.value [] ∧ Command.ofName? e.value = some c ∧ c.arity.min ≠ 0 := by
  obtain ⟨k, v, args⟩ := e
  unfold bareCommand? at h
  split at h
  . next hbare =>
    simp only [Bool.and_eq_true, List.isEmpty_iff, isCommand, kind, Element.args, value,
      beq_iff_eq] at hbare h
    obtain ⟨rfl, rfl⟩ := hbare
    split at h
    . next d hd =>
      split at h
      . simp at h
      . next hmin =>
        simp only [Option.some.injEq] at h
        subst h
        exact ⟨rfl, hd, hmin⟩
    . simp at h
  . simp at h

theorem bareCommand?_of_args_ne_nil {e : Element} (h : e.args ≠ []) : e.bareCommand? = none := by
  have hempty : e.args.isEmpty = false := by simpa using h
  unfold bareCommand?
  simp [hempty]

/-- Only the last element may be a bare command. -/
def Folded (es : List Element) : Prop := ∀ e ∈ es.dropLast, e.bareCommand? = none

theorem Folded.cons {e : Element} {es : List Element} (he : es ≠ [] → e.bareCommand? = none)
    (hes : Folded es) : Folded (e :: es) := by
  intro x hx
  cases es with
  | nil => simp at hx
  | cons y ys =>
    rw [List.dropLast_cons_cons] at hx
    cases List.mem_cons.1 hx with
    | inl heq =>
      rw [heq]
      exact he (by simp)
    | inr hmem => exact hes x hmem

@[simp]
theorem fold_eq_nil_iff (es : List Element) : fold es = [] ↔ es = [] := by
  cases es with
  | nil => rw [fold]
  | cons e rest =>
    rw [fold]
    split <;> simp

theorem folded_fold (es : List Element) : Folded (fold es) := by
  fun_induction fold es with
  | case1 => simp [Folded]
  | case2 e rest hbare ih => exact ih.cons fun _ => hbare
  | case3 e rest c hbare n ih =>
    apply ih.cons
    intro hne
    have hmin := (bareCommand?_eq_some hbare).2.2
    have hdrop : rest.drop n ≠ [] := fun hnil => hne ((fold_eq_nil_iff _).2 hnil)
    have hlen : 0 < rest.length := by
      rw [← List.length_pos_iff, List.length_drop] at hdrop
      omega
    -- an element that is left over means that the command took at least one
    have hn : 0 < n := Command.taken_pos hmin hlen
    apply bareCommand?_of_args_ne_nil
    rw [← List.length_pos_iff]
    simp only [command, args, List.length_take]
    omega

theorem fold_eq_self {es : List Element} (h : Folded es) : fold es = es := by
  induction es with
  | nil => rw [fold]
  | cons e rest ih =>
    cases rest with
    | nil =>
      rw [fold]
      split
      . rw [fold]
      . next c hbare =>
        simp only [List.take_nil, List.drop_nil]
        rw [← (bareCommand?_eq_some hbare).1, fold]
    | cons x xs =>
      have he : e.bareCommand? = none := h e (by simp)
      have hrest : Folded (x :: xs) := by
        intro y hy
        exact h y (List.mem_cons_of_mem e hy)
      rw [fold, he]
      simp only
      rw [ih hrest]

/-- The induction that follows the operands of a command: what holds of the elements that a command has
after folding, holds of the command. -/
@[elab_as_elim]
theorem foldInduction {P : Element → Prop} (e : Element)
    (literal : ∀ v args, P (.node .literal v args))
    (operands : ∀ k v args, k ≠ .literal → (∀ e ∈ fold args, P e) → P (.node k v args)) : P e := by
  apply normalize.induct P (fun es => ∀ e ∈ es, P e)
  . exact literal
  . exact operands
  . intro e he
    simp at he
  . intro e rest he hrest x hx
    cases List.mem_cons.1 hx with
    | inl heq =>
      rw [heq]
      exact he
    | inr hmem => exact hrest x hmem

@[simp]
theorem normalize_literal (v : Bytes) (args : List Element) :
    normalize (.node .literal v args) = literal v := by
  rw [normalize]
  simp

theorem normalize_of_ne_literal {k : Kind} (hk : k ≠ .literal) (v : Bytes) (args : List Element) :
    normalize (.node k v args) = .node k v (normalizeAll (fold args)) := by
  rw [normalize]
  simp [hk]

theorem normalizeAll_eq_map (es : List Element) : normalizeAll es = es.map normalize := by
  induction es with
  | nil => rw [normalizeAll, List.map_nil]
  | cons e rest ih => rw [normalizeAll, ih, List.map_cons]

@[simp]
theorem length_normalizeAll (es : List Element) : (normalizeAll es).length = es.length := by
  rw [normalizeAll_eq_map, List.length_map]

@[simp]
theorem value_normalize (e : Element) : (normalize e).value = e.value := by
  obtain ⟨k, v, args⟩ := e
  by_cases hk : k = .literal
  . subst hk
    rw [normalize_literal]
    rfl
  . rw [normalize_of_ne_literal hk]
    rfl

@[simp]
theorem bareCommand?_normalize (e : Element) : (normalize e).bareCommand? = e.bareCommand? := by
  obtain ⟨k, v, args⟩ := e
  by_cases hk : k = .literal
  . subst hk
    rw [normalize_literal]
    rfl
  . rw [normalize_of_ne_literal hk]
    cases args with
    | nil => rw [fold, normalizeAll]
    | cons a as =>
      rw [bareCommand?_of_args_ne_nil (e := .node k v (a :: as)) (by simp [Element.args])]
      apply bareCommand?_of_args_ne_nil
      intro hnil
      rw [Element.args, normalizeAll_eq_map, List.map_eq_nil_iff, fold_eq_nil_iff] at hnil
      simp at hnil

theorem Folded.normalizeAll {es : List Element} (h : Folded es) : Folded (normalizeAll es) := by
  intro e he
  rw [normalizeAll_eq_map, ← List.map_dropLast] at he
  obtain ⟨x, hx, rfl⟩ := List.mem_map.1 he
  rw [bareCommand?_normalize]
  exact h x hx

theorem fold_normalizeAll_fold (es : List Element) :
    fold (normalizeAll (fold es)) = normalizeAll (fold es) := by
  apply fold_eq_self
  apply Folded.normalizeAll
  apply folded_fold

end Element

end VerboseExpr
