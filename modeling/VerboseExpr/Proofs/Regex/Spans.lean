import VerboseExpr.Proofs.Regex.Flatten

namespace VerboseExpr.Regex

/-- The groups and the repetitions in a regular expression, in the order in which they begin. -/
def spans : Regex → List Regex
  | group n r => group n r :: spans r
  | rep min max greedy r => rep min max greedy r :: spans r
  | cat r s => spans r ++ spans s
  | alt r s => spans r ++ spans s
  | _ => []

def body : Regex → Regex
  | group _ r => r
  | rep _ _ _ r => r
  | r => r

def isGroup : Regex → Bool
  | group _ _ => true
  | _ => false

def isRep : Regex → Bool
  | rep _ _ _ _ => true
  | _ => false

def isLoop : Regex → Bool
  | rep _ none _ _ => true
  | _ => false

def captures (r : Regex) : List Regex := (spans r).filter isGroup

/-- The regular expression after `n` more groups. References stay as they are written. -/
def shift (n : Nat) : Regex → Regex
  | group k r => group (k + n) (shift n r)
  | rep min max greedy r => rep min max greedy (shift n r)
  | cat r s => cat (shift n r) (shift n s)
  | alt r s => alt (shift n r) (shift n s)
  | r => r

/-- Does something of which `isInner` holds stand inside of something of which `isOuter` holds? `inside` says
whether there is one around all of the given groups and repetitions. -/
def nests (isOuter isInner : Regex → Bool) (inside : Bool) (xs : List Regex) : Bool :=
  (inside && xs.any isInner) || xs.any fun x => isOuter x && (spans (body x)).any isInner

section Spans

theorem spans_concat (rs : List Regex) : spans (concat rs) = rs.flatMap spans :=
  flatMap_concat rfl (fun _ _ => rfl) rs

theorem spans_choice (rs : List Regex) : spans (choice rs) = rs.flatMap spans := by
  induction rs with
  | nil => rfl
  | cons r rs ih =>
    by_cases h : rs = []
    . subst h
      simp [choice]
    . rw [choice_cons h, spans, ih, List.flatMap_cons]

theorem spans_concat_cons (r : Regex) (rs : List Regex) : spans (concat (r :: rs)) = spans r ++ spans (concat rs) := by
  rw [spans_concat, spans_concat, List.flatMap_cons]

theorem captures_concat_cons (r : Regex) (rs : List Regex) :
    captures (concat (r :: rs)) = captures r ++ captures (concat rs) := by
  unfold captures
  rw [spans_concat_cons, List.filter_append]

theorem captures_group (n : Nat) (r : Regex) : captures (group n r) = group n r :: captures r := rfl

theorem captures_rep (min : Nat) (max : Option Nat) (greedy : Bool) (r : Regex) :
    captures (rep min max greedy r) = captures r := rfl

theorem spans_flatten (r : Regex) : spans r.flatten = (spans r).map flatten := by
  have hwhole (s : Regex) : spans (concat (members s)) = (members s).flatMap spans := spans_concat _
  induction r with
  | group n r ih | rep min max greedy r ih =>
    rw [flatten] at ih
    rw [flatten, spans_concat, members, List.flatMap_singleton, spans, spans, List.map_cons, ih]
    rfl
  | cat r s ihr ihs =>
    rw [flatten, hwhole] at ihr ihs
    rw [flatten, hwhole, members, List.flatMap_append, ihr, ihs, spans, List.map_append]
  | alt r s ihr ihs =>
    rw [flatten] at ihr ihs
    rw [flatten, spans_concat, members, List.flatMap_singleton, spans, spans, List.map_append, ihr, ihs]
  | _ => rfl

theorem isGroup_or_isRep {r x : Regex} (h : x ∈ spans r) : x.isGroup ∨ x.isRep := by
  induction r with
  | group n r ih =>
    obtain rfl | hx := List.mem_cons.1 h
    . exact .inl rfl
    . exact ih hx
  | rep min max greedy r ih =>
    obtain rfl | hx := List.mem_cons.1 h
    . exact .inr rfl
    . exact ih hx
  | cat r s ihr ihs | alt r s ihr ihs =>
    obtain hx | hx := List.mem_append.1 h
    . exact ihr hx
    . exact ihs hx
  | _ => simp [spans] at h

theorem flatten_of_isGroup_or_isRep {x : Regex} (h : x.isGroup ∨ x.isRep) :
    x.flatten.isGroup = x.isGroup ∧ x.flatten.isRep = x.isRep ∧ x.flatten.isLoop = x.isLoop ∧
      x.flatten.body = x.body.flatten := by
  cases x with
  | group n r => exact ⟨rfl, rfl, rfl, rfl⟩
  | rep min max greedy r => cases max <;> exact ⟨rfl, rfl, rfl, rfl⟩
  | _ => simp [isGroup, isRep] at h

theorem captures_flatten (r : Regex) : captures r.flatten = (captures r).map flatten := by
  unfold captures
  rw [spans_flatten, List.filter_map]
  congr 1
  apply List.filter_congr
  intro x hx
  exact (flatten_of_isGroup_or_isRep (isGroup_or_isRep hx)).1

end Spans

section Nests

variable {P Q : Regex → Bool}

theorem any_congr {xs : List Regex} (h : ∀ x ∈ xs, P x = Q x) : xs.any P = xs.any Q := by
  rw [Bool.eq_iff_iff, List.any_eq_true, List.any_eq_true]
  apply exists_congr
  intro x
  apply and_congr_right
  intro hx
  rw [h x hx]

theorem nests_nil (inside : Bool) : nests P Q inside [] = false := by
  simp [nests]

theorem nests_append (inside : Bool) (xs ys : List Regex) :
    nests P Q inside (xs ++ ys) = (nests P Q inside xs || nests P Q inside ys) := by
  unfold nests
  rw [List.any_append, List.any_append, Bool.and_or_distrib_left]
  ac_rfl

theorem nests_cons_spans (inside : Bool) (x : Regex) :
    nests P Q inside (x :: spans (body x)) = ((inside && Q x) || nests P Q (inside || P x) (spans (body x))) := by
  unfold nests
  rw [List.any_cons, List.any_cons, Bool.and_or_distrib_left, Bool.and_or_distrib_right]
  ac_rfl

theorem nests_group (inside : Bool) (n : Nat) (r : Regex) : nests P Q inside (spans (group n r)) =
    ((inside && Q (group n r)) || nests P Q (inside || P (group n r)) (spans r)) :=
  nests_cons_spans inside (group n r)

theorem nests_rep (inside : Bool) (min : Nat) (max : Option Nat) (greedy : Bool) (r : Regex) :
    nests P Q inside (spans (rep min max greedy r)) =
      ((inside && Q (rep min max greedy r)) || nests P Q (inside || P (rep min max greedy r)) (spans r)) :=
  nests_cons_spans inside (rep min max greedy r)

theorem nests_map_flatten {r : Regex} (inside : Bool)
    (hP : ∀ x : Regex, x.isGroup ∨ x.isRep → P x.flatten = P x)
    (hQ : ∀ x : Regex, x.isGroup ∨ x.isRep → Q x.flatten = Q x) :
    nests P Q inside (spans r.flatten) = nests P Q inside (spans r) := by
  have hany (s : Regex) : (spans s.flatten).any Q = (spans s).any Q := by
    rw [spans_flatten, List.any_map]
    apply any_congr
    intro x hx
    exact hQ x (isGroup_or_isRep hx)
  have houter : ((spans r.flatten).any fun x => P x && (spans (body x)).any Q) =
      (spans r).any fun x => P x && (spans (body x)).any Q := by
    rw [spans_flatten, List.any_map]
    apply any_congr
    intro x hx
    have hspan := isGroup_or_isRep hx
    rw [Function.comp_apply, hP x hspan, (flatten_of_isGroup_or_isRep hspan).2.2.2, hany]
  rw [nests, nests, hany, houter]

end Nests

section Shift

theorem concat_shift (n : Nat) (rs : List Regex) : (concat rs).shift n = concat (rs.map (shift n)) :=
  map_concat rfl (fun _ _ => rfl) rs

theorem choice_shift (n : Nat) (rs : List Regex) : (choice rs).shift n = choice (rs.map (shift n)) :=
  map_choice rfl (fun _ _ => rfl) rs

theorem members_shift (n : Nat) (r : Regex) : members (r.shift n) = (members r).map (shift n) := by
  induction r with
  | group k r ih | rep min max greedy r ih => rw [shift, members, members, ih, List.map_singleton, shift, concat_shift]
  | cat r s ihr ihs => rw [shift, members, members, List.map_append, ihr, ihs]
  | alt r s ihr ihs => rw [shift, members, members, ihr, ihs, List.map_singleton, shift, concat_shift, concat_shift]
  | _ => rfl

theorem flatten_shift (n : Nat) (r : Regex) : (r.shift n).flatten = r.flatten.shift n := by
  rw [flatten, members_shift, ← concat_shift]
  rfl

end Shift

end VerboseExpr.Regex
