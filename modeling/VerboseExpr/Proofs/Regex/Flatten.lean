import VerboseExpr.Regex.Automaton.Limits

namespace VerboseExpr.Regex

/-- The members of a regular expression, seen as a concatenation. -/
def members : Regex → List Regex
  | empty => []
  | cat r s => members r ++ members s
  | group n r => [group n (concat (members r))]
  | alt r s => [alt (concat (members r)) (concat (members s))]
  | rep min max greedy r => [rep min max greedy (concat (members r))]
  | char c => [char c]
  | set s => [set s]
  | anchor a => [anchor a]
  | reference n => [reference n]

/-- The regular expression with all concatenations nested to the right and without empty members. -/
def flatten (r : Regex) : Regex := concat (members r)

section Members

theorem concat_cons {r : Regex} {rs : List Regex} (h : rs ≠ []) : concat (r :: rs) = cat r (concat rs) := by
  cases rs with
  | nil => contradiction
  | cons s rs => rfl

theorem choice_cons {r : Regex} {rs : List Regex} (h : rs ≠ []) : choice (r :: rs) = alt r (choice rs) := by
  cases rs with
  | nil => contradiction
  | cons s rs => rfl

theorem flatMap_concat {α : Type} {f : Regex → List α} (hempty : f .empty = [])
    (hcat : ∀ r s, f (.cat r s) = f r ++ f s) (rs : List Regex) : f (concat rs) = rs.flatMap f := by
  induction rs with
  | nil => exact hempty
  | cons r rs ih =>
    by_cases h : rs = []
    . subst h
      simp [concat]
    . rw [concat_cons h, hcat, ih, List.flatMap_cons]

theorem map_concat {f : Regex → Regex} (hempty : f .empty = .empty) (hcat : ∀ r s, f (.cat r s) = .cat (f r) (f s))
    (rs : List Regex) : f (concat rs) = concat (rs.map f) := by
  induction rs with
  | nil => exact hempty
  | cons r rs ih =>
    by_cases h : rs = []
    . subst h
      rfl
    . rw [concat_cons h, hcat, ih, List.map_cons, concat_cons (by simpa using h)]

theorem map_choice {f : Regex → Regex} (hempty : f .empty = .empty) (halt : ∀ r s, f (.alt r s) = .alt (f r) (f s))
    (rs : List Regex) : f (choice rs) = choice (rs.map f) := by
  induction rs with
  | nil => exact hempty
  | cons r rs ih =>
    by_cases h : rs = []
    . subst h
      rfl
    . rw [choice_cons h, halt, ih, List.map_cons, choice_cons (by simpa using h)]

@[simp]
theorem members_concat (rs : List Regex) : members (concat rs) = rs.flatMap members :=
  flatMap_concat rfl (fun _ _ => rfl) rs

theorem flatten_choice (rs : List Regex) : flatten (choice rs) = choice (rs.map flatten) :=
  map_choice rfl (fun _ _ => rfl) rs

theorem members_choice_congr {rs ss : List Regex} (h : rs.map members = ss.map members) :
    members (choice rs) = members (choice ss) := by
  cases rs with
  | nil =>
    have hss : ss = [] := by simpa using h.symm
    rw [hss]
  | cons r rs =>
    cases ss with
    | nil => simp at h
    | cons s ss =>
      rw [List.map_cons, List.map_cons, List.cons.injEq] at h
      obtain ⟨hhead, htail⟩ := h
      have hflatten : rs.map flatten = ss.map flatten := by
        have hconcat := congrArg (List.map concat) htail
        rw [List.map_map, List.map_map] at hconcat
        exact hconcat
      by_cases hrs : rs = []
      . have hss : ss = [] := by simpa [hrs] using htail.symm
        rw [hrs, hss]
        exact hhead
      . have hss : ss ≠ [] := fun hnil => hrs (by simpa [hnil] using htail)
        have hrest : flatten (choice rs) = flatten (choice ss) := by
          rw [flatten_choice, flatten_choice, hflatten]
        rw [flatten, flatten] at hrest
        rw [choice_cons hrs, choice_cons hss, members, members, hhead, hrest]

end Members

namespace Automaton

/-- Is every single count neither too large nor the wrong way round? -/
def countsFit : Regex → Bool
  | .rep min max _ body => countAllowed min max && countsFit body
  | .group _ body => countsFit body
  | .cat r s => countsFit r && countsFit s
  | .alt r s => countsFit r && countsFit s
  | _ => true

section Counts

theorem concat_all {p : Regex → Bool} (hempty : p .empty = true)
    (hcat : ∀ r s, p (.cat r s) = (p r && p s)) (rs : List Regex) : p (concat rs) = rs.all p := by
  induction rs with
  | nil => exact hempty
  | cons r rs ih =>
    by_cases h : rs = []
    . subst h
      simp [concat]
    . rw [concat_cons h, hcat, ih, List.all_cons]

theorem countsFit_concat (rs : List Regex) : countsFit (concat rs) = rs.all countsFit := by
  apply concat_all rfl
  intro r s
  rfl

theorem countsFit_choice (rs : List Regex) : countsFit (choice rs) = rs.all countsFit := by
  induction rs with
  | nil => rfl
  | cons r rs ih =>
    by_cases h : rs = []
    . subst h
      simp [choice]
    . rw [choice_cons h, countsFit, ih, List.all_cons]

theorem countsWithin_concat (budget : Nat) (rs : List Regex) :
    countsWithin budget (concat rs) = rs.all (countsWithin budget) := by
  apply concat_all rfl
  intro r s
  rfl

theorem countsWithin_flatten (budget : Nat) (r : Regex) :
    countsWithin budget r.flatten = countsWithin budget r := by
  rw [flatten, countsWithin_concat]
  induction r generalizing budget with
  | cat r s ihr ihs => rw [members, List.all_append, countsWithin, ihr, ihs]
  | alt r s ihr ihs =>
    rw [members, List.all_cons, List.all_nil, Bool.and_true, countsWithin, countsWithin]
    rw [countsWithin_concat, countsWithin_concat, ihr, ihs]
  | group n r ih =>
    rw [members, List.all_cons, List.all_nil, Bool.and_true, countsWithin, countsWithin]
    rw [countsWithin_concat, ih]
  | rep min max greedy r ih =>
    rw [members, List.all_cons, List.all_nil, Bool.and_true, countsWithin, countsWithin]
    simp only [countsWithin_concat, ih]
  | _ => rfl

theorem countsAllowed_concat (rs : List Regex) : countsAllowed (concat rs) = rs.all countsAllowed := by
  apply concat_all rfl
  intro r s
  rfl

theorem countsAllowed_flatten (r : Regex) : countsAllowed r.flatten = countsAllowed r := by
  rw [flatten, countsAllowed_concat]
  induction r with
  | cat r s ihr ihs => rw [members, List.all_append, countsAllowed, ihr, ihs]
  | alt r s ihr ihs =>
    rw [members, List.all_cons, List.all_nil, Bool.and_true, countsAllowed, countsAllowed]
    rw [countsAllowed_concat, countsAllowed_concat, ihr, ihs]
  | group n r ih =>
    rw [members, List.all_cons, List.all_nil, Bool.and_true, countsAllowed, countsAllowed]
    rw [countsAllowed_concat, ih]
  | rep min max greedy r ih =>
    have hwithin : countsWithin maxCount (rep min max greedy (concat (members r))) =
        countsWithin maxCount (rep min max greedy r) := by
      have := countsWithin_flatten maxCount (rep min max greedy r)
      simpa [flatten, members, concat] using this
    rw [members, List.all_cons, List.all_nil, Bool.and_true, countsAllowed, countsAllowed]
    rw [countsAllowed_concat, ih, hwithin]
  | _ => rfl

end Counts

end Automaton

end VerboseExpr.Regex
