import VerboseExpr.Proofs.Regex.Search
import VerboseExpr.Regex.Backtracking.Search

namespace VerboseExpr.Regex

namespace Automaton

variable {p : Program} {subject : Array Char}

/-- The thread stands in the subject, and not before where it started. -/
def Thread.Extends (subject : Array Char) (t : Thread) : Prop := t.start ≤ t.pos ∧ t.pos ≤ subject.size

theorem Thread.Extends.follow {inst : Inst} {t u : Thread} (h : t.Extends subject)
    (hu : u ∈ Automaton.follow inst subject t) : u.Extends subject := by
  obtain ⟨hstart, hle, hpos⟩ := of_mem_follow hu
  exact ⟨by rw [hstart]; exact Nat.le_trans h.1 hle, hpos h.2⟩

theorem le_of_search {visited : Array Bool} {threads : List Thread} (hthreads : ∀ t ∈ threads, t.Extends subject)
    {start stop : Nat} (h : search p subject visited threads = some (start, stop)) :
    start ≤ stop ∧ stop ≤ subject.size := by
  fun_induction search p subject visited threads with
  | case1 => simp at h
  | case2 _ _ _ _ _ ih | case3 _ _ _ _ _ _ _ ih | case6 _ _ _ _ ih =>
    exact ih (List.forall_mem_cons.1 hthreads).2 h
  | case4 _ t rest =>
    obtain ⟨rfl, rfl⟩ := Prod.mk.inj (Option.some.inj h)
    exact (List.forall_mem_cons.1 hthreads).1
  | case5 _ t rest _ _ _ inst _ _ ih =>
    obtain ⟨ht, hrest⟩ := List.forall_mem_cons.1 hthreads
    apply ih _ h
    intro u hu
    cases List.mem_append.1 hu with
    | inl hmem => exact ht.follow hmem
    | inr hmem => exact hrest u hmem

theorem le_of_find? {r : Regex} {start stop : Nat} (h : find? r subject = some (start, stop)) :
    start ≤ stop ∧ stop ≤ subject.size := by
  rw [find?_eq] at h
  apply le_of_search _ h
  intro t ht
  obtain ⟨i, hi, rfl⟩ := List.mem_map.1 ht
  exact ⟨Nat.le_refl i, Nat.le_of_lt_succ (List.mem_range.1 hi)⟩

end Automaton

namespace Backtracking

/-- What follows is tried from a place that is not before the one where the step began, and not past the end. -/
def Advances (size : Nat) (step : Step) : Prop :=
  ∀ pos caps k stop, pos ≤ size → step pos caps k = some stop →
    ∃ q cs, pos ≤ q ∧ q ≤ size ∧ k q cs = some stop

variable {size : Nat} {step : Step}

theorem Advances.mono {pos q stop : Nat} {k : Continuation} (hle : pos ≤ q)
    (h : ∃ q' cs, q ≤ q' ∧ q' ≤ size ∧ k q' cs = some stop) : ∃ q' cs, pos ≤ q' ∧ q' ≤ size ∧ k q' cs = some stop := by
  obtain ⟨q', cs, hq, hsize, hk⟩ := h
  exact ⟨q', cs, Nat.le_trans hle hq, hsize, hk⟩

theorem eq_some_of_orElse {a : Option Nat} {b : Unit → Option Nat} {stop : Nat} (h : orElse a b = some stop) :
    a = some stop ∨ b () = some stop := by
  cases a with
  | none => exact Or.inr h
  | some e => exact Or.inl h

theorem Advances.iterate (hstep : Advances size step) (min : Nat) (max : Option Nat) (greedy : Bool)
    (k : Continuation) (fuel done mark pos : Nat) (caps : Captures) {stop : Nat} (hpos : pos ≤ size)
    (h : iterate step min max greedy k fuel done mark pos caps = some stop) :
    ∃ q cs, pos ≤ q ∧ q ≤ size ∧ k q cs = some stop := by
  induction fuel generalizing done mark pos caps with
  | zero => simp [Backtracking.iterate] at h
  | succ fuel ih =>
    have hstay : k pos caps = some stop → ∃ q cs, pos ≤ q ∧ q ≤ size ∧ k q cs = some stop :=
      fun hk => ⟨pos, caps, Nat.le_refl pos, hpos, hk⟩
    -- one more repetition, and then the others from the place that it reaches
    have hmore : step pos caps (fun q cs => Backtracking.iterate step min max greedy k fuel (done + 1) pos q cs) =
        some stop → ∃ q cs, pos ≤ q ∧ q ≤ size ∧ k q cs = some stop := by
      intro hone
      obtain ⟨q, cs, hq, hsize, hrest⟩ := hstep pos caps _ stop hpos hone
      exact Advances.mono hq (ih (done + 1) pos q cs hsize hrest)
    rw [Backtracking.iterate] at h
    split at h
    . exact hstay h
    . split at h
      . exact hstay h
      . split at h
        . exact hmore h
        . split at h
          . cases eq_some_of_orElse h with
            | inl hone => exact hmore hone
            | inr hnone => exact hstay hnone
          . cases eq_some_of_orElse h with
            | inl hnone => exact hstay hnone
            | inr hone => exact hmore hone

theorem advances_run (subject : Array Char) (r : Regex) : Advances subject.size (run subject r) := by
  induction r with
  | empty =>
    intro pos caps k stop hpos h
    exact ⟨pos, caps, Nat.le_refl pos, hpos, h⟩
  | char c =>
    intro pos caps k stop hpos h
    rw [run] at h
    split at h
    . next hc =>
      obtain ⟨hlt, -⟩ := Array.getElem?_eq_some_iff.1 hc
      exact ⟨pos + 1, caps, Nat.le_succ pos, hlt, h⟩
    . simp at h
  | set s =>
    intro pos caps k stop hpos h
    rw [run] at h
    cases hc : subject[pos]? with
    | none => simp [hc] at h
    | some c =>
      obtain ⟨hlt, -⟩ := Array.getElem?_eq_some_iff.1 hc
      split at h
      . exact ⟨pos + 1, caps, Nat.le_succ pos, hlt, h⟩
      . simp at h
  | anchor a =>
    intro pos caps k stop hpos h
    rw [run] at h
    split at h
    . exact ⟨pos, caps, Nat.le_refl pos, hpos, h⟩
    . simp at h
  | group n body ih =>
    intro pos caps k stop hpos h
    rw [run] at h
    obtain ⟨q, cs, hq, hsize, hk⟩ := ih pos caps _ stop hpos h
    exact ⟨q, _, hq, hsize, hk⟩
  | reference n =>
    intro pos caps k stop hpos h
    rw [run] at h
    split at h
    . exact ⟨pos, caps, Nat.le_refl pos, hpos, h⟩
    . next a b _ =>
      split at h
      -- the places of the group are not known to be in order, but what repeats it ends in the subject
      . next hrepeats =>
        rw [repeatsAt, Bool.and_eq_true, decide_eq_true_eq] at hrepeats
        exact ⟨pos + (b - a), caps, Nat.le_add_right pos _, hrepeats.1, h⟩
      . simp at h
  | cat r s ihr ihs =>
    intro pos caps k stop hpos h
    rw [run] at h
    obtain ⟨q, cs, hq, hsize, hrest⟩ := ihr pos caps _ stop hpos h
    exact Advances.mono hq (ihs q cs k stop hsize hrest)
  | alt r s ihr ihs =>
    intro pos caps k stop hpos h
    rw [run] at h
    cases eq_some_of_orElse h with
    | inl hr => exact ihr pos caps k stop hpos hr
    | inr hs => exact ihs pos caps k stop hpos hs
  | rep min max greedy body ih =>
    intro pos caps k stop hpos h
    rw [run] at h
    split at h
    . simp at h
    . exact ih.iterate min max greedy k _ 0 pos pos caps hpos h

theorem le_of_find? {r : Regex} {subject : Array Char} {start stop : Nat} (h : find? r subject = some (start, stop)) :
    start ≤ stop ∧ stop ≤ subject.size := by
  obtain ⟨i, hi, hrun⟩ := List.exists_of_findSome?_eq_some h
  obtain ⟨e, he, heq⟩ := Option.map_eq_some_iff.1 hrun
  obtain ⟨rfl, rfl⟩ := Prod.mk.inj heq
  have hpos := Nat.le_of_lt_succ (List.mem_range.1 hi)
  obtain ⟨q, cs, hq, hsize, hk⟩ := advances_run subject r i [] _ e hpos he
  obtain rfl := Option.some.inj hk
  exact ⟨hq, hsize⟩

end Backtracking

end VerboseExpr.Regex
