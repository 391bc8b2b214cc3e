import VerboseExpr.Proofs.Regex.Depth
import VerboseExpr.Proofs.Regex.Literal

namespace VerboseExpr.Regex

def Led (r : Regex) : Prop := ∃ us, r = concat (.anchor .textStart :: us)

/-- There is one alternative so far, and it begins with a start anchor. -/
def Frame.Led (f : Frame) : Prop := f.alternatives = [] ∧ ∃ us, f.units = us ++ [Regex.anchor .textStart]

theorem Frame.Led.push {f : Frame} (h : f.Led) (r : Regex) : (f.push r).Led ∧ 1 < (f.push r).units.length := by
  obtain ⟨halternatives, us, hunits⟩ := h
  refine ⟨⟨halternatives, r :: us, ?_⟩, ?_⟩
  . rw [Frame.push, hunits]
    rfl
  . simp [Frame.push, hunits]

theorem Frame.Led.body {f : Frame} (h : f.Led) : f.body.Led := by
  obtain ⟨halternatives, us, hunits⟩ := h
  refine ⟨us.reverse, ?_⟩
  rw [Frame.body, halternatives, Frame.alternative, hunits, List.reverse_append]
  rfl

/-- The frame outside all groups, from the innermost frame and those around it. -/
def outermost : Frame → List Frame → Frame
  | f, [] => f
  | _, outer :: around => outermost outer around

namespace Builder

/-- The pattern begins with a start anchor, and a quantifier that comes next is not for the anchor. -/
structure Led (b : Builder) : Prop where
  outermost : (outermost b.current b.around).Led
  goesOn : b.around = [] → 1 < b.current.units.length

namespace Led

variable {f outer : Frame} {around : List Frame} {n : Nat}

theorem of_ne_nil (h : (Regex.outermost f around).Led) (hne : around ≠ []) (g : Frame) (n : Nat) :
    Led ⟨g, around, n⟩ := by
  obtain ⟨outer, around, rfl⟩ := List.exists_cons_of_ne_nil hne
  exact ⟨h, fun hnil => absurd hnil hne⟩

theorem opened (h : (Regex.outermost f around).Led) (g : Frame) (n : Nat) : Led ⟨g, f :: around, n⟩ :=
  ⟨h, fun hnil => absurd hnil (by simp)⟩

theorem push (h : (Regex.outermost f around).Led) (r : Regex) (n : Nat) : Led ⟨f.push r, around, n⟩ := by
  cases around with
  | nil =>
    obtain ⟨hled, hlength⟩ := Frame.Led.push h r
    exact ⟨hled, fun _ => hlength⟩
  | cons outer around => exact of_ne_nil h (by simp) _ _

theorem quantifier {r s : Regex} {rest : List Regex} (h : Led ⟨f, around, n⟩) (heq : f.units = r :: rest) :
    Led ⟨{ f with units := s :: rest, repeatable := false }, around, n⟩ := by
  cases around with
  | nil =>
    have hlength : 1 < f.units.length := h.goesOn rfl
    obtain ⟨halternatives, us, hunits⟩ : f.Led := h.outermost
    rw [heq] at hlength hunits
    refine ⟨⟨halternatives, ?_⟩, fun _ => hlength⟩
    cases us with
    | nil =>
      obtain ⟨-, rfl⟩ := List.cons.inj hunits
      simp at hlength
    | cons u us =>
      obtain ⟨-, rfl⟩ := List.cons.inj hunits
      exact ⟨s :: us, rfl⟩
  | cons outer around => exact of_ne_nil h.outermost (by simp) _ _

end Led

section Steps

variable {b b' : Builder} {l : Lexeme}

theorem led_of_step (h : (outermost b.current b.around).Led) (hbar : l = .bar → b.around ≠ [])
    (hquantifier : l.isQuantifier → b.Led) (hstep : b.step l = some b') : b'.Led := by
  -- a bar would end what stands outside all groups, and a quantifier takes the unit before it; the rest adds to it
  cases l with
  | atom r =>
    obtain rfl := Option.some.inj hstep
    exact Led.push h r _
  | openGroup capturing =>
    cases capturing with
    | true | false =>
      obtain rfl := Option.some.inj hstep
      exact Led.opened h _ _
  | closeGroup =>
    rw [Builder.step] at hstep
    split at hstep
    . next heq =>
      obtain rfl := Option.some.inj hstep
      rw [heq, outermost] at h
      exact Led.push h _ _
    . simp at hstep
  | bar =>
    obtain rfl := Option.some.inj hstep
    exact Led.of_ne_nil h (hbar rfl) _ _
  | quantifier min max greedy =>
    rw [Builder.step.eq_def] at hstep
    dsimp only at hstep
    split at hstep
    . next heq =>
      obtain rfl := Option.some.inj hstep
      exact Led.quantifier (hquantifier rfl) heq
    . simp at hstep

theorem le_of_step {n m : Nat} (hmoves : l.Moves n m) (hstep : b.step l = some b') (hle : m ≤ b'.around.length) :
    n ≤ b.around.length := by
  -- the text and the builder count the open groups in the same way
  cases l with
  | atom r =>
    obtain rfl := Option.some.inj hstep
    exact Nat.le_trans hmoves hle
  | openGroup capturing =>
    rw [hmoves] at hle
    cases capturing with
    | true | false =>
      obtain rfl := Option.some.inj hstep
      exact Nat.le_of_succ_le_succ hle
  | closeGroup =>
    rw [Builder.step] at hstep
    split at hstep
    . next heq =>
      obtain rfl := Option.some.inj hstep
      rw [hmoves, heq]
      exact Nat.succ_le_succ hle
    . simp at hstep
  | bar =>
    obtain rfl := Option.some.inj hstep
    rwa [hmoves.1] at hle
  | quantifier min max greedy =>
    rw [Builder.step.eq_def] at hstep
    dsimp only at hstep
    split at hstep
    . obtain rfl := Option.some.inj hstep
      rwa [hmoves] at hle
    . simp at hstep

theorem le_of_pending {n : Nat} {ls : List Lexeme} (hpending : Pending n ls)
    (hfold : ls.foldlM Builder.step b = some b') : n ≤ b.around.length := by
  induction hpending generalizing b with
  | done => exact Nat.zero_le _
  | step hmoves _ ih =>
    rw [List.foldlM_cons] at hfold
    obtain ⟨b₁, hstep, hrest⟩ := Option.bind_eq_some_iff.1 hfold
    exact le_of_step hmoves hstep (ih hrest)

theorem around_ne_nil {n m : Nat} {ls : List Lexeme} (hmoves : l.Moves n m) (hpending : Pending m ls)
    (hfold : (l :: ls).foldlM Builder.step b = some b') (hbar : l = .bar) : b.around ≠ [] := by
  have hle := le_of_pending (.step hmoves hpending) hfold
  rw [hbar] at hmoves
  have hpos : 0 < b.around.length := Nat.lt_of_lt_of_le hmoves.2 hle
  exact List.ne_nil_of_length_pos hpos

theorem led_of_foldlM {n : Nat} {ls : List Lexeme} (h : b.Led) (hpending : Pending n ls)
    (hfold : ls.foldlM Builder.step b = some b') : b'.Led := by
  induction hpending generalizing b with
  | done =>
    obtain rfl := Option.some.inj hfold
    exact h
  | step hmoves hpending ih =>
    have hbar := around_ne_nil hmoves hpending hfold
    rw [List.foldlM_cons] at hfold
    obtain ⟨b₁, hstep, hrest⟩ := Option.bind_eq_some_iff.1 hfold
    exact ih (led_of_step h.outermost hbar (fun _ => h) hstep) hrest

end Steps

end Builder

/-- The anchor leads the whole pattern if its lexemes are those of a nested text, and no quantifier comes first. -/
theorem led_of_ofLexemes? {ls : List Lexeme} {r : Regex} (hpending : Pending 0 ls)
    (hfirst : ∀ l ∈ ls.head?, !l.isQuantifier) (h : ofLexemes? (.atom (.anchor .textStart) :: ls) = some r) :
    r.Led := by
  obtain ⟨b, hfold, h⟩ := Option.bind_eq_some_iff.1 h
  have hbody : r = b.current.body ∧ b.around = [] := by
    split at h
    . next hnil => exact ⟨(Option.some.inj h).symm, hnil⟩
    . simp at h
  rw [hbody.1]
  apply Frame.Led.body
  cases hpending with
  | done =>
    obtain rfl := Option.some.inj hfold
    exact ⟨rfl, [], rfl⟩
  | @step n m l ls hmoves hpending =>
    have hquantifier := hfirst l rfl
    rw [List.foldlM_cons] at hfold
    obtain ⟨b₁, hanchor, hfold⟩ := Option.bind_eq_some_iff.1 hfold
    obtain rfl := Option.some.inj hanchor
    have hbar := Builder.around_ne_nil hmoves hpending hfold
    rw [List.foldlM_cons] at hfold
    obtain ⟨b₂, hstep, hrest⟩ := Option.bind_eq_some_iff.1 hfold
    have hled := Builder.led_of_step ⟨rfl, [], rfl⟩ hbar (fun h => by simp [h] at hquantifier) hstep
    have hout := (Builder.led_of_foldlM hled hpending hrest).outermost
    rwa [hbody.2] at hout

theorem Dialect.KeepsBrackets.led {d : Dialect} {strict : Bool} {cs : List Char} {ls : List Lexeme} {r : Regex}
    (hd : d.KeepsBrackets strict) (hnested : Nested strict [] cs) (hfirst : ∀ c ∈ cs.head?, c ∉ quantifierChars)
    (h : d.Lexes ('^' :: cs) ls) (hr : ofLexemes? ls = some r) : r.Led := by
  cases h with
  | cons hanchor hrest =>
    obtain ⟨rfl, rfl⟩ := Prod.mk.inj (Option.some.inj hanchor)
    refine led_of_ofLexemes? (hd.pending hrest hnested) ?_ hr
    cases hrest with
    | nil => simp
    | @cons c rest l n ls hl _ =>
      have hquantifier := hd.isQuantifier hl hnested (hfirst c rfl)
      simp [hquantifier]

namespace Automaton

theorem led_of_read? {pattern : Bytes} {cs : List Char} {r : Regex} (heq : Utf8.decode pattern = '^' :: cs)
    (hnested : Nested true [] cs) (hfirst : ∀ c ∈ cs.head?, c ∉ Dialect.quantifierChars)
    (h : read? pattern = some r) : r.Led := by
  obtain ⟨ls, hls, h⟩ := Option.bind_eq_some_iff.1 h
  obtain ⟨s, hs, h⟩ := Option.bind_eq_some_iff.1 h
  rw [patternLexemes?] at hls
  split at hls
  . rw [heq] at hls
    split at h
    . obtain rfl := Option.some.inj h
      exact keepsBrackets.led hnested hfirst (lexes_of_lexemes? hls) hs
    . simp at h
  . simp at hls

theorem getElem?_of_led {r : Regex} (h : r.Led) :
    ∃ next, (automaton r).2[(automaton r).1]? = some (.test .textStart next) := by
  obtain ⟨us, rfl⟩ := h
  rw [automaton, simplify_concat]
  cases us with
  | nil => exact ⟨0, rfl⟩
  | cons u us => exact ⟨_, Array.getElem?_push_size⟩

theorem eq_zero_of_find? {r : Regex} {subject : Array Char} {start stop : Nat} (hr : r.Led)
    (h : find? r subject = some (start, stop)) : start = 0 := by
  obtain ⟨next, hinst⟩ := getElem?_of_led hr
  have hspec := find?_spec r subject
  rw [h] at hspec
  obtain ⟨⟨n, hn⟩, -⟩ := hspec
  cases hn with
  | here haccept =>
    rw [hinst] at haccept
    simp at haccept
  | next hinst' hu _ =>
    rw [hinst, Option.some.injEq] at hinst'
    subst hinst'
    rw [follow] at hu
    split at hu
    . next hholds => exact beq_iff_eq.1 hholds
    . simp at hu

end Automaton

namespace Backtracking

theorem led_of_read? {pattern : Bytes} {cs : List Char} {r : Regex} (heq : Utf8.decode pattern = '^' :: cs)
    (hnested : Nested false [] cs) (hfirst : ∀ c ∈ cs.head?, c ∉ Dialect.quantifierChars)
    (h : read? pattern = some r) : r.Led := by
  obtain ⟨first, -, h⟩ := Option.bind_eq_some_iff.1 h
  obtain ⟨ls, hls, hr⟩ := Option.bind_eq_some_iff.1 h
  rw [heq] at hls
  exact (keepsBrackets _ false).led hnested hfirst (lexes_of_lexemes? hls) hr

theorem run_of_led {r : Regex} {subject : Array Char} {pos : Nat} (hr : r.Led) (hpos : pos ≠ 0) (caps : Captures)
    (k : Continuation) : run subject r pos caps k = none := by
  have hholds : Anchor.holds .textStart subject pos = false := beq_eq_false_iff_ne.2 hpos
  obtain ⟨us, rfl⟩ := hr
  cases us with
  | nil => rw [concat, run, hholds, if_neg (by simp)]
  | cons u us =>
    rw [concat, run, run, hholds, if_neg (by simp)]
    simp

theorem eq_zero_of_find? {r : Regex} {subject : Array Char} {start stop : Nat} (hr : r.Led)
    (h : find? r subject = some (start, stop)) : start = 0 := by
  obtain ⟨i, -, hi⟩ := List.exists_of_findSome?_eq_some h
  obtain ⟨e, he, heq⟩ := Option.map_eq_some_iff.1 hi
  obtain ⟨rfl, -⟩ := Prod.mk.inj heq
  rw [← Decidable.not_not (p := i = 0)]
  intro hne
  rw [run_of_led hr hne] at he
  simp at he

end Backtracking

end VerboseExpr.Regex
