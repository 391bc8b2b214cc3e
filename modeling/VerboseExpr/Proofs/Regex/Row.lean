import VerboseExpr.Proofs.Regex.Flatten
import VerboseExpr.Proofs.Regex.Search
import VerboseExpr.Regex.Backtracking.Search

namespace VerboseExpr.Regex

inductive Cell where
  | char (c : Char)
  | set (s : CharSet)

namespace Cell

def regex : Cell → Regex
  | char c => .char c
  | set s => .set s

def chars : Cell → CharSet
  | char c => .single c
  | set s => s

end Cell

def row (cells : List Cell) : Regex := concat (cells.map Cell.regex)

/-- Do the characters begin with one of each cell? -/
def fits : List Cell → List Char → Bool
  | [], _ => true
  | _ :: _, [] => false
  | x :: cells, c :: cs => x.chars.contains c && fits cells cs

theorem length_le_of_fits {cells : List Cell} {cs : List Char} (h : fits cells cs) : cells.length ≤ cs.length := by
  fun_induction fits cells cs with
  | case1 => exact Nat.zero_le _
  | case2 => contradiction
  | case3 x cells c cs ih =>
    rw [Bool.and_eq_true] at h
    exact Nat.succ_le_succ (ih h.2)

theorem fits_cons_drop (x : Cell) (cells : List Cell) (subject : Array Char) (i : Nat) :
    fits (x :: cells) (subject.toList.drop i) =
      (subject[i]?.any x.chars.contains && fits cells (subject.toList.drop (i + 1))) := by
  by_cases h : i < subject.size
  . rw [List.drop_eq_getElem_cons (by simpa using h), fits, Array.getElem_toList, Array.getElem?_eq_getElem h]
    rfl
  . rw [List.drop_eq_nil_of_le (by simpa using h), fits, Array.getElem?_eq_none (by omega)]
    rfl

/-- The right answer to where a row fits first, as the places where it begins and ends. -/
def LocatesRow (cells : List Cell) (cs : List Char) : Option (Nat × Nat) → Prop
  | none => ∀ i ≤ cs.length, fits cells (cs.drop i) = false
  | some (i, stop) =>
    fits cells (cs.drop i) ∧ (∀ j < i, fits cells (cs.drop j) = false) ∧ stop = i + cells.length

namespace Automaton

variable {p q : Program} {subject : Array Char} {pc next i k stop : Nat}

theorem contains_single (c d : Char) : (CharSet.single c).contains d ↔ d = c := by
  rw [CharSet.single, CharSet.contains, CharSet.inRanges]
  simp only [List.any_cons, List.any_nil, Bool.or_false, Bool.bne_false, Bool.and_eq_true, decide_eq_true_eq]
  constructor
  . intro h
    apply Char.toNat_inj.1
    omega
  . rintro rfl
    exact ⟨Nat.le_refl _, Nat.le_refl _⟩

theorem any_contains_single (o : Option Char) (c : Char) : o.any (CharSet.single c).contains ↔ o = some c := by
  cases o with
  | none => simp
  | some d => simp [contains_single]

theorem accepts_accept (hinst : p[pc]? = some .accept) : Accepts p subject ⟨pc, i, k⟩ stop ↔ stop = i := by
  constructor
  . rintro ⟨n, hn⟩
    cases hn with
    | here => rfl
    | next hinst' hu _ =>
      rw [hinst, Option.some.injEq] at hinst'
      subst hinst'
      simp [follow] at hu
  . rintro rfl
    exact ⟨0, AcceptsIn.here hinst⟩

theorem accepts_one {s : CharSet} (hinst : p[pc]? = some (.one s next)) :
    Accepts p subject ⟨pc, i, k⟩ stop ↔
      subject[i]?.any s.contains ∧ Accepts p subject ⟨next, i + 1, k⟩ stop := by
  have hfollow : ∀ u, u ∈ follow (.one s next) subject ⟨pc, i, k⟩ ↔
      subject[i]?.any s.contains ∧ u = ⟨next, i + 1, k⟩ := by
    intro u
    rw [follow]
    cases subject[i]? with
    | none => simp
    | some d =>
      dsimp only [Option.any_some]
      split
      . next h => simp [h]
      . next h => simp [h]
  constructor
  . rintro ⟨n, hn⟩
    cases hn with
    | here hinst' =>
      rw [hinst] at hinst'
      simp at hinst'
    | @next n _ _ u _ hinst' hu hrest =>
      rw [hinst, Option.some.injEq] at hinst'
      subst hinst'
      obtain ⟨hc, rfl⟩ := (hfollow u).1 hu
      exact ⟨hc, n, hrest⟩
  . rintro ⟨hc, n, hn⟩
    exact ⟨n + 1, AcceptsIn.next hinst ((hfollow _).2 ⟨hc, rfl⟩) hn⟩

theorem simplify_concat (rs : List Regex) : simplify (concat rs) = concat (rs.map simplify) :=
  map_concat rfl (fun _ _ => rfl) rs

theorem simplify_row (cells : List Cell) : simplify (row cells) = row cells := by
  have hcell : ∀ x : Cell, simplify x.regex = x.regex := by
    intro x
    cases x <;> rfl
  rw [row, simplify_concat, List.map_map]
  exact congrArg concat (List.map_congr_left fun x _ => hcell x)

theorem assemble_row_cons (x : Cell) (cells : List Cell) (next : Nat) (p : Program) :
    assemble (row (x :: cells)) next p =
      ((assemble (row cells) next p).2.size,
        (assemble (row cells) next p).2.push (.one x.chars (assemble (row cells) next p).1)) := by
  cases cells with
  | nil => cases x <;> rfl
  | cons y cells => cases x <;> rfl

theorem accepts_assemble_row {cells : List Cell}
    (hq : ∀ (j : Nat) inst, (assemble (row cells) next p).2[j]? = some inst → q[j]? = some inst) :
    Accepts q subject ⟨(assemble (row cells) next p).1, i, k⟩ stop ↔
      fits cells (subject.toList.drop i) ∧ Accepts q subject ⟨next, i + cells.length, k⟩ stop := by
  induction cells generalizing i with
  | nil => simp [row, concat, assemble, fits]
  | cons x cells ih =>
    rw [assemble_row_cons] at hq ⊢
    generalize assemble (row cells) next p = rest at hq ih ⊢
    have hinst : q[rest.2.size]? = some (.one x.chars rest.1) := hq _ _ Array.getElem?_push_size
    have hrest : ∀ (j : Nat) inst, rest.2[j]? = some inst → q[j]? = some inst := by
      intro j inst hj
      obtain ⟨hlt, -⟩ := Array.getElem?_eq_some_iff.1 hj
      apply hq
      rw [Array.getElem?_push, if_neg (by omega), hj]
    rw [accepts_one hinst, ih hrest, fits_cons_drop, Bool.and_eq_true, and_assoc, List.length_cons]
    rw [Nat.add_right_comm, Nat.add_assoc]

theorem matches_row (cells : List Cell) (subject : Array Char) (i stop : Nat) :
    Matches (row cells) subject i stop ↔ fits cells (subject.toList.drop i) ∧ stop = i + cells.length := by
  have haccept : (assemble (row cells) 0 #[.accept]).2[0]? = some Inst.accept := by
    induction cells with
    | nil => rfl
    | cons x cells ih =>
      obtain ⟨hlt, -⟩ := Array.getElem?_eq_some_iff.1 ih
      rw [assemble_row_cons, Array.getElem?_push, if_neg (by omega), ih]
  rw [Matches, automaton, simplify_row, accepts_assemble_row fun j inst hj => hj]
  rw [accepts_accept haccept]

theorem find?_row (cells : List Cell) (subject : Array Char) :
    LocatesRow cells subject.toList (find? (row cells) subject) := by
  have hspec := find?_spec (row cells) subject
  simp only [matches_row] at hspec
  cases hfind : find? (row cells) subject with
  | none =>
    rw [hfind] at hspec
    intro i hi
    rw [← Bool.not_eq_true]
    exact fun hfits => hspec i hi _ ⟨hfits, rfl⟩
  | some span =>
    obtain ⟨i, stop⟩ := span
    rw [hfind] at hspec
    refine ⟨hspec.1.1, ?_, hspec.1.2⟩
    intro j hj
    rw [← Bool.not_eq_true]
    exact fun hfits => hspec.2 j hj _ ⟨hfits, rfl⟩

end Automaton

namespace Backtracking

theorem exists_of_findSome?_range {α : Type} {f : Nat → Option α} {n : Nat} {x : α}
    (h : (List.range n).findSome? f = some x) : ∃ i, f i = some x ∧ ∀ j < i, f j = none := by
  rw [List.findSome?_eq_some_iff] at h
  obtain ⟨before, i, after, hrange, hi, hbefore⟩ := h
  have hsorted : (before ++ i :: after).Pairwise (· < ·) := by
    rw [← hrange]
    exact List.pairwise_lt_range
  have hmem : ∀ j, j ∈ before ++ i :: after ↔ j < n := by
    intro j
    rw [← hrange, List.mem_range]
  refine ⟨i, hi, ?_⟩
  intro j hj
  apply hbefore
  have hin : i < n := (hmem i).1 (by simp)
  cases List.mem_append.1 ((hmem j).2 (by omega)) with
  | inl hfirst => exact hfirst
  | inr hlast =>
    -- the places from `i` on are not smaller than `i`
    cases List.mem_cons.1 hlast with
    | inl heq => omega
    | inr hafter =>
      have hlt := List.rel_of_pairwise_cons (List.pairwise_append.1 hsorted).2.1 hafter
      omega

theorem run_row_cons (x : Cell) (cells : List Cell) (subject : Array Char) (pos : Nat) (caps : Captures)
    (k : Continuation) : run subject (row (x :: cells)) pos caps k =
      if subject[pos]?.any x.chars.contains then run subject (row cells) (pos + 1) caps k else none := by
  have hcell : ∀ k, run subject x.regex pos caps k =
      if subject[pos]?.any x.chars.contains then k (pos + 1) caps else none := by
    intro k
    cases x with
    | set s => rfl
    | char c => simp only [Cell.regex, run, Cell.chars, Automaton.any_contains_single]
  cases cells with
  | nil => exact hcell k
  | cons y cells => exact hcell _

theorem run_row (cells : List Cell) (subject : Array Char) (pos : Nat) (caps : Captures) (k : Continuation) :
    run subject (row cells) pos caps k =
      if fits cells (subject.toList.drop pos) then k (pos + cells.length) caps else none := by
  induction cells generalizing pos with
  | nil => simp [row, concat, run, fits]
  | cons x cells ih =>
    rw [run_row_cons, fits_cons_drop, ih]
    cases subject[pos]?.any x.chars.contains with
    | false => rfl
    | true =>
      rw [List.length_cons, Nat.add_right_comm, Nat.add_assoc]
      rfl

theorem find?_row (cells : List Cell) (subject : Array Char) :
    LocatesRow cells subject.toList (find? (row cells) subject) := by
  -- from each place the row either fits or the run fails, since a row has nothing to try again
  have hrun : ∀ i, (run subject (row cells) i [] fun stop _ => some stop).map (i, ·) =
      if fits cells (subject.toList.drop i) then some (i, i + cells.length) else none := by
    intro i
    rw [run_row]
    split <;> rfl
  cases hfind : find? (row cells) subject with
  | none =>
    rw [find?, List.findSome?_eq_none_iff] at hfind
    intro i hi
    rw [Array.length_toList] at hi
    have hnone := hfind i (List.mem_range.2 (Nat.lt_succ_of_le hi))
    rw [hrun] at hnone
    simpa using hnone
  | some span =>
    obtain ⟨i, stop⟩ := span
    obtain ⟨k, hk, hbefore⟩ := exists_of_findSome?_range hfind
    rw [hrun] at hk
    split at hk
    . next hhere =>
      simp only [Option.some.injEq, Prod.mk.injEq] at hk
      obtain ⟨rfl, hstop⟩ := hk
      refine ⟨hhere, ?_, hstop.symm⟩
      intro j hj
      have hnone := hbefore j hj
      rw [hrun] at hnone
      simpa using hnone
    . simp at hk

end Backtracking

end VerboseExpr.Regex
