import VerboseExpr.Config.Yaml.Cursor
import VerboseExpr.Proofs.Config.Yaml.Source

/-!
Actions that move through a document, as steps between spots: what is left of the document, how much of it can be
looked at, and where that is. A lemma for each action says from which spot to which it moves and what it gives.
-/

namespace VerboseExpr.Yaml

/-- Where something stands in a document of a size. -/
structure Place where
  line : Nat
  column : Nat
  index : Nat
  size : Nat
  deriving Repr

namespace Place

def skips (p : Place) (n : Nat) : Place := { p with column := p.column + n, index := p.index + n }

def skipLine (p : Place) : Place := { p with line := p.line + 1, column := 0, index := p.index + 1 }

@[simp]
theorem skips_zero (p : Place) : p.skips 0 = p := rfl

@[simp]
theorem skips_skips (p : Place) (m n : Nat) : (p.skips m).skips n = p.skips (m + n) := by
  simp [skips, Nat.add_assoc]

@[simp]
theorem line_skips (p : Place) (n : Nat) : (p.skips n).line = p.line := rfl

@[simp]
theorem column_skips (p : Place) (n : Nat) : (p.skips n).column = p.column + n := rfl

@[simp]
theorem index_skips (p : Place) (n : Nat) : (p.skips n).index = p.index + n := rfl

@[simp]
theorem size_skips (p : Place) (n : Nat) : (p.skips n).size = p.size := rfl

@[simp]
theorem line_skipLine (p : Place) : p.skipLine.line = p.line + 1 := rfl

@[simp]
theorem column_skipLine (p : Place) : p.skipLine.column = 0 := rfl

@[simp]
theorem size_skipLine (p : Place) : p.skipLine.size = p.size := rfl

end Place

/-- What is left of a document, how many characters of it can be looked at, and where it begins. -/
structure Spot where
  rest : List Char
  seen : Nat
  place : Place

structure Cursor.At (c : Cursor) (p : Spot) : Prop where
  shows_rest : c.source.Shows p.rest p.seen
  line_eq : c.line = p.place.line
  column_eq : c.column = p.place.column
  index_eq : c.index = p.place.index
  size_eq : c.size = p.place.size

namespace Cursor.At

variable {c : Cursor} {p : Spot}

theorem peek_eq (h : c.At p) {k : Nat} (hk : k < p.seen) : c.peek k = p.rest.getD k endMark :=
  h.shows_rest.peek_eq hk

theorem peek_head (h : c.At p) (hp : 0 < p.seen) : c.peek 0 = p.rest.headD endMark := by
  rw [h.peek_eq hp]
  cases p.rest <;> rfl

theorem headD_ne (h : c.At p) (hp : p.rest ≠ []) : p.rest.headD endMark ≠ endMark := by
  obtain ⟨d, cs, hrest⟩ := List.exists_cons_of_ne_nil hp
  have hclean := h.shows_rest.clean
  rw [hrest, List.all_cons, Bool.and_eq_true] at hclean
  rw [hrest, List.headD_cons]
  rintro rfl
  exact absurd hclean.1 (by decide)

theorem mono {rest : List Char} {n m : Nat} {p : Place} (h : c.At ⟨rest, n, p⟩) (hm : m ≤ n) : c.At ⟨rest, m, p⟩ where
  shows_rest := h.shows_rest.mono hm
  line_eq := h.line_eq
  column_eq := h.column_eq
  index_eq := h.index_eq
  size_eq := h.size_eq

end Cursor.At

theorem Scan.need_eq {c : Cursor} {n : Nat} {source : Source} (h : c.source.need? n = some source) :
    Scan.need n c = some ((), { c with source := source }) := by
  change ((c.source.need? n).bind fun s => some (s, c)).bind (fun q => some ((), { c with source := q.1 })) = _
  rw [h]
  rfl

/-- From one spot the action moves to another, and gives `a`. -/
def Runs {α : Type} (x : Scan α) (p : Spot) (a : α) (q : Spot) : Prop :=
  ∀ c : Cursor, c.At p → ∃ c', x c = some (a, c') ∧ c'.At q

namespace Runs

section Combinators

variable {α β : Type} {x : Scan α} {f : α → Scan β} {a : α} {b : β} {p q r : Spot}

protected theorem pure (a : α) (p : Spot) : Runs (pure a) p a p := fun c hc => ⟨c, rfl, hc⟩

protected theorem lift (a : α) (p : Spot) : Runs (liftM (some a) : Scan α) p a p := fun c hc => ⟨c, rfl, hc⟩

protected theorem bind (h : Runs x p a q) (h' : Runs (f a) q b r) : Runs (x >>= f) p b r := by
  intro c hc
  obtain ⟨c₁, hx, hc₁⟩ := h c hc
  obtain ⟨c₂, hf, hc₂⟩ := h' c₁ hc₁
  refine ⟨c₂, ?_, hc₂⟩
  change (x c).bind (fun s => f s.1 s.2) = _
  rw [hx]
  exact hf

protected theorem get {f : Cursor → Scan β} (h : ∀ c : Cursor, c.At p → Runs (f c) p b r) : Runs (get >>= f) p b r :=
  fun c hc => h c hc c hc

theorem mono {rest : List Char} {n m : Nat} {place : Place} (h : Runs x p a ⟨rest, n, place⟩) (hm : m ≤ n) :
    Runs x p a ⟨rest, m, place⟩ := by
  intro c hc
  obtain ⟨c', hx, hc'⟩ := h c hc
  exact ⟨c', hx, hc'.mono hm⟩

theorem of_le {rest : List Char} {n m : Nat} {place : Place} (h : Runs x ⟨rest, m, place⟩ a q) (hm : m ≤ n) :
    Runs x ⟨rest, n, place⟩ a q := fun c hc => h c (hc.mono hm)

end Combinators

section Actions

variable {p : Place}

theorem need (cs : List Char) (n m : Nat) : Runs (Scan.need m) ⟨cs, n, p⟩ () ⟨cs, m, p⟩ := by
  intro c hc
  obtain ⟨s, hneed, hs⟩ := hc.shows_rest.toGives.exists_need?_eq m
  refine ⟨{ c with source := s }, ?_, hs, hc.line_eq, hc.column_eq, hc.index_eq, hc.size_eq⟩
  exact Scan.need_eq hneed

theorem peek {cs : List Char} {n k : Nat} (hk : k < n) :
    Runs (Scan.peek k) ⟨cs, n, p⟩ (cs.getD k endMark) ⟨cs, n, p⟩ := by
  intro c hc
  refine ⟨c, ?_, hc⟩
  rw [← hc.peek_eq hk]
  rfl

theorem peekHead (cs : List Char) (n : Nat) :
    Runs (Scan.peek 0) ⟨cs, n + 1, p⟩ (cs.headD endMark) ⟨cs, n + 1, p⟩ := by
  have h : Runs (Scan.peek 0) ⟨cs, n + 1, p⟩ (cs.getD 0 endMark) ⟨cs, n + 1, p⟩ := peek (Nat.succ_pos n)
  cases cs <;> exact h

theorem skip (d : Char) (cs : List Char) (n : Nat) : Runs Scan.skip ⟨d :: cs, n + 1, p⟩ () ⟨cs, n, p.skips 1⟩ := by
  intro c hc
  refine ⟨c.skip, rfl, hc.shows_rest.drop, hc.line_eq, ?_, ?_, hc.size_eq⟩
  . exact congrArg (· + 1) hc.column_eq
  . exact congrArg (· + 1) hc.index_eq

theorem skips (w cs : List Char) (n : Nat) :
    Runs (Scan.skips w.length) ⟨w ++ cs, w.length + n, p⟩ () ⟨cs, n, p.skips w.length⟩ := by
  induction w generalizing p with
  | nil => exact fun c hc => ⟨c, rfl, by simpa using hc⟩
  | cons d w ih =>
    rw [List.length_cons, Nat.add_right_comm, List.cons_append]
    refine Runs.bind (skip d (w ++ cs) _) ?_
    simpa [Nat.add_comm] using ih (p := p.skips 1)

theorem take (d : Char) (cs : List Char) (n : Nat) : Runs Scan.take ⟨d :: cs, n + 1, p⟩ d ⟨cs, n, p.skips 1⟩ :=
  Runs.bind (peek (Nat.succ_pos n)) (Runs.bind (skip d cs n) (Runs.pure d _))

theorem breakWidth_eq {c : Cursor} {d : Char} {cs : List Char} {n : Nat} (h : c.At ⟨d :: cs, n + 1, p⟩) :
    c.breakWidth = if isBreak d then 1 else 0 := by
  have hclean := h.shows_rest.clean
  simp only [List.all_cons, isClean, Bool.and_eq_true, decide_eq_true_eq] at hclean
  have hd : c.peek 0 = d := h.peek_eq (Nat.succ_pos n)
  unfold Cursor.breakWidth
  rw [hd]
  simp [hclean.1.1.1.2]

theorem modify_skipLine {d : Char} (hd : isBreak d) (cs : List Char) :
    Runs (modify Cursor.skipLine : Scan PUnit) ⟨d :: cs, 2, p⟩ () ⟨cs, 1, p.skipLine⟩ := by
  intro c hc
  refine ⟨c.skipLine, rfl, ?_⟩
  have hwidth : c.breakWidth = 1 := by rw [breakWidth_eq hc, if_pos hd]
  unfold Cursor.skipLine
  rw [hwidth, if_neg (by decide)]
  exact ⟨hc.shows_rest.drop, congrArg (· + 1) hc.line_eq, rfl, congrArg (· + 1) hc.index_eq, hc.size_eq⟩

theorem skipLine {d : Char} (hd : isBreak d) (cs : List Char) (n : Nat) :
    Runs Scan.skipLine ⟨d :: cs, n, p⟩ () ⟨cs, 1, p.skipLine⟩ :=
  Runs.bind (need _ n 2) (modify_skipLine hd cs)

theorem takeLine {d : Char} (hd : isBreak d) (cs : List Char) (n : Nat) :
    Runs Scan.takeLine ⟨d :: cs, n, p⟩ [d] ⟨cs, 1, p.skipLine⟩ := by
  refine Runs.bind (need _ n 2) (Runs.bind (peek (by decide)) (Runs.get fun c hc => ?_))
  have hclean := hc.shows_rest.clean
  simp only [List.all_cons, isClean, Bool.and_eq_true, decide_eq_true_eq] at hclean
  have hkept : (if c.breakWidth = 0 then []
      else if d.toNat = 0x2028 || d.toNat = 0x2029 then [d] else ['\n']) = [d] := by
    rw [breakWidth_eq hc, if_pos hd, if_neg (by decide)]
    simp only [isBreak, Bool.or_eq_true, decide_eq_true_eq] at hd
    obtain (((rfl | h) | h) | h) | h := hd
    . rfl
    . exact absurd h hclean.1.1.1.2
    . exact absurd h hclean.1.1.2
    . simp [h]
    . simp [h]
  refine Runs.bind (modify_skipLine hd cs) ?_
  exact hkept.symm ▸ Runs.pure _ _

theorem takeWhile {f : Char → Bool} {w u : List Char} (hw : ∀ d ∈ w, f d) (hu : f (u.headD endMark) = false)
    (hsize : w.length < p.size) (n : Nat) :
    Runs (Scan.takeWhile f) ⟨w ++ u, n, p⟩ w ⟨u, 1, p.skips w.length⟩ := by
  -- the loop has the size of the source for its fuel, which is more than it needs
  have hgo : ∀ (fuel : Nat) (p : Place), w.length < fuel →
      Runs (Scan.takeWhile.go f fuel) ⟨w ++ u, 1, p⟩ w ⟨u, 1, p.skips w.length⟩ := by
    clear hsize
    induction w with
    | nil =>
      intro fuel p hfuel
      obtain ⟨fuel, rfl⟩ : ∃ m, fuel = m + 1 := ⟨fuel - 1, by simp at hfuel; omega⟩
      refine Runs.bind (peekHead _ 0) ?_
      rw [List.nil_append, hu, if_neg (by decide)]
      exact Runs.pure [] _
    | cons d w ih =>
      intro fuel p hfuel
      obtain ⟨fuel, rfl⟩ : ∃ m, fuel = m + 1 := ⟨fuel - 1, by omega⟩
      have hmore := ih (fun d hd => hw d (by simp [hd])) fuel (p.skips 1) (by simp at hfuel; omega)
      refine Runs.bind (peekHead _ 0) ?_
      rw [List.cons_append, List.headD_cons, if_pos (hw d (by simp))]
      refine Runs.bind (take d _ 0) (Runs.bind (need _ 0 1) (Runs.bind hmore ?_))
      simpa [Nat.add_comm] using Runs.pure (d :: w) ⟨u, 1, (p.skips 1).skips w.length⟩
  refine Runs.bind (need _ n 1) (Runs.get fun c hc => ?_)
  rw [hc.size_eq]
  exact hgo _ p hsize

theorem skipWhile {f : Char → Bool} {w u : List Char} (hw : ∀ d ∈ w, f d) (hu : f (u.headD endMark) = false)
    (hsize : w.length < p.size) (n : Nat) :
    Runs (Scan.skipWhile f) ⟨w ++ u, n, p⟩ () ⟨u, 1, p.skips w.length⟩ := by
  have hgo : ∀ (fuel : Nat) (p : Place), w.length < fuel →
      Runs (Scan.skipWhile.go f fuel) ⟨w ++ u, 1, p⟩ () ⟨u, 1, p.skips w.length⟩ := by
    clear hsize
    induction w with
    | nil =>
      intro fuel p hfuel
      obtain ⟨fuel, rfl⟩ : ∃ m, fuel = m + 1 := ⟨fuel - 1, by simp at hfuel; omega⟩
      refine Runs.bind (peekHead _ 0) ?_
      rw [List.nil_append, hu, if_neg (by decide)]
      exact Runs.pure () _
    | cons d w ih =>
      intro fuel p hfuel
      obtain ⟨fuel, rfl⟩ : ∃ m, fuel = m + 1 := ⟨fuel - 1, by omega⟩
      have hmore := ih (fun d hd => hw d (by simp [hd])) fuel (p.skips 1) (by simp at hfuel; omega)
      refine Runs.bind (peekHead _ 0) ?_
      rw [List.cons_append, List.headD_cons, if_pos (hw d (by simp))]
      refine Runs.bind (skip d _ 0) (Runs.bind (need _ 0 1) ?_)
      simpa [Nat.add_comm] using hmore
  refine Runs.bind (need _ n 1) (Runs.get fun c hc => ?_)
  rw [hc.size_eq]
  exact hgo _ p hsize

theorem lineComment {w u : List Char} (hw : ∀ d ∈ w, isBlank d)
    (hu : isBlank (u.headD endMark) = false ∧ u.headD endMark ≠ '#') (n : Nat) :
    Runs Scan.lineComment ⟨w ++ u, n, p⟩ () ⟨w ++ u, 0, p⟩ := by
  -- the look goes over the blanks one by one without taking any of them
  have hgo : ∀ (fuel k n : Nat), k ≤ w.length →
      Runs (Scan.lineComment.go fuel k) ⟨w ++ u, n, p⟩ () ⟨w ++ u, 0, p⟩ := by
    intro fuel
    induction fuel with
    | zero => exact fun k n hk => (Runs.pure () _).mono (Nat.zero_le n)
    | succ fuel ih =>
      intro k n hk
      refine Runs.bind (need _ n (k + 1)) (Runs.bind (peek (Nat.lt_succ_self k)) ?_)
      obtain hk | rfl := Nat.lt_or_eq_of_le hk
      . have hblank : isBlank ((w ++ u).getD k endMark) := by
          rw [List.getD_eq_getElem?_getD, List.getElem?_append_left hk, List.getElem?_eq_getElem hk]
          exact hw _ (List.getElem_mem hk)
        rw [if_pos hblank]
        exact ih (k + 1) _ hk
      . have hnext : (w ++ u).getD w.length endMark = u.headD endMark := by
          rw [List.getD_eq_getElem?_getD, List.getElem?_append_right (Nat.le_refl _), Nat.sub_self]
          cases u <;> rfl
        rw [hnext, hu.1, if_neg (by decide), if_neg hu.2]
        exact (Runs.pure () _).mono (Nat.zero_le _)
  refine Runs.get fun c hc => ?_
  split
  . exact hgo _ 0 n (Nat.zero_le _)
  . exact (Runs.pure () _).mono (Nat.zero_le n)

end Actions

end Runs

theorem Cursor.At.atMark_eq_false {c : Cursor} {p : Spot} (h : c.At p) {m : Char}
    (hp : p.place.column ≠ 0 ∨ 0 < p.seen ∧ p.rest.headD endMark ≠ m) : c.atMark m = false := by
  unfold Cursor.atMark
  rw [h.column_eq]
  obtain hcolumn | ⟨hseen, hm⟩ := hp
  . simp [hcolumn]
  . rw [h.peek_head hseen, decide_eq_false hm, Bool.and_false]
    rfl

end VerboseExpr.Yaml
