import Mathlib
import VerboseExpr.Regex.Automaton.Limits

/-!
The limits of the automaton engine while a counted repetition of one character is read. Whether sizes are noted
depends on the counts; it does not matter, since no size comes near the limit. Main statement: a repetition whose
counts are not too large keeps all limits.
-/

namespace VerboseExpr.Regex.Automaton.Construct

variable {c : Construction} {t : Term}

section Checking

theorem check_of_lt (hcodes : c.codes ≤ maxCodes) (hmeasuring : c.measuring = false)
    (hplaces : c.places < maxSize / multiply c.counts t.form) (hheight : t.height ≤ maxHeight) :
    (check t).run c = some (t, { c with counts := multiply c.counts t.form }) := by
  have hnotcodes : ¬c.codes > maxCodes := Nat.not_lt.2 hcodes
  have hnotheight : ¬t.height > maxHeight := Nat.not_lt.2 hheight
  simp [check, checkSize, hnotcodes, hmeasuring, hplaces, hnotheight]

theorem note_of_le (hsize : t.remeasure.1 ≤ maxSize) : (note t).run c = some (t.remeasure.2, c) := by
  have hnot : ¬t.remeasure.1 > maxSize := Nat.not_lt.2 hsize
  simp [note, hnot]

theorem exists_check (hstack : c.stack = []) (hcodes : c.codes ≤ maxCodes) (hsize : t.remeasure.1 ≤ maxSize)
    (hheight : t.height ≤ maxHeight) (hheight' : t.remeasure.2.height ≤ maxHeight) :
    ∃ t' c', (check t).run c = some (t', c') ∧ (t' = t ∨ t' = t.remeasure.2) ∧ c'.stack = [] ∧
      c'.codes = c.codes := by
  have hnotcodes : ¬c.codes > maxCodes := Nat.not_lt.2 hcodes
  have hnotheight : ¬t.remeasure.2.height > maxHeight := Nat.not_lt.2 hheight'
  by_cases hmeasuring : c.measuring
  . refine ⟨t.remeasure.2, c, ?_, .inr rfl, hstack, rfl⟩
    simp [check, checkSize, hnotcodes, hmeasuring, note_of_le hsize, hnotheight]
  . by_cases hplaces : c.places < maxSize / multiply c.counts t.form
    . have hcheck := check_of_lt hcodes (Bool.eq_false_iff.2 hmeasuring) hplaces hheight
      exact ⟨t, _, hcheck, .inl rfl, hstack, rfl⟩
    . refine ⟨t.remeasure.2, { c with counts := multiply c.counts t.form, measuring := true }, ?_, .inr rfl,
        hstack, rfl⟩
      simp [check, checkSize, hnotcodes, hmeasuring, hplaces, note_of_le hsize, hnotheight, hstack]

theorem check_refused (hstack : c.stack = []) (hmeasuring : c.measuring = false)
    (hplaces : ¬c.places < maxSize / multiply c.counts t.form) (hsize : maxSize < t.remeasure.1) :
    (check t).run c = none := by
  have hnote : ∀ c : Construction, (note t).run c = none := by
    intro c
    simp [note, hsize]
  by_cases hcodes : c.codes > maxCodes
  . simp [check, hcodes]
  . simp [check, checkSize, hcodes, hmeasuring, hplaces, hstack, hnote]

end Checking

section Stack

variable {rest : List Term}

/-- Are there only brackets, which have not been closed? -/
def Brackets (ts : List Term) : Prop := ∀ t ∈ ts, ∃ capturing, t.form = .opened capturing

theorem joinTexts_of_brackets (hrest : Brackets rest) (hstack : c.stack.tail = rest)
    (char? : Option (Nat × Bool)) : (joinTexts char?).run c = some (false, c) := by
  obtain ⟨stack, spare, places, counts, measuring, codes⟩ := c
  match stack with
  | [] | [_] => rfl
  | top :: below :: more =>
    obtain rfl : below :: more = rest := hstack
    obtain ⟨capturing, hbelow⟩ := hrest below List.mem_cons_self
    rw [joinTexts]
    cases htop : top.form <;> simp [htop, hbelow]

theorem Brackets.tail (hrest : Brackets rest) : Brackets rest.tail :=
  fun t ht => hrest t (List.mem_of_mem_tail ht)

theorem push_of_joinTexts {t' : Term} {c₁ c' : Construction} {joined : Bool} (hchar : t.form.char? = none)
    (hjoin : (joinTexts none).run { c with codes := c.codes + t.form.codes } = some (joined, c₁))
    (hcheck : (check t).run c₁ = some (t', c')) : (push t).run c = some ((), { c' with stack := t' :: c'.stack }) := by
  simp [push, hchar, hjoin, hcheck]

theorem push_of_check {t' : Term} {c' : Construction} (hstack : Brackets c.stack) (hchar : t.form.char? = none)
    (hcheck : (check t).run { c with codes := c.codes + t.form.codes } = some (t', c')) :
    (push t).run c = some ((), { c' with stack := t' :: c'.stack }) :=
  have hjoin := joinTexts_of_brackets (c := { c with codes := c.codes + t.form.codes }) hstack.tail rfl none
  push_of_joinTexts hchar hjoin hcheck

theorem push_refused (hstack : Brackets c.stack) (hchar : t.form.char? = none)
    (hcheck : (check t).run { c with codes := c.codes + t.form.codes } = none) : (push t).run c = none := by
  have hjoin := joinTexts_of_brackets (c := { c with codes := c.codes + t.form.codes }) hstack.tail rfl none
  simp [push, hchar, hjoin, hcheck]

theorem run_takeTerms (hstack : c.stack = t :: rest) (hmark : t.form.isMark = false) (hrest : Brackets rest) :
    takeTerms.run c = some ([t], { c with stack := rest }) := by
  have hnone : rest.takeWhile (fun t => !t.form.isMark) = [] ∧ rest.dropWhile (fun t => !t.form.isMark) = rest := by
    cases rest with
    | nil => exact ⟨rfl, rfl⟩
    | cons u us =>
      obtain ⟨capturing, hu⟩ := hrest u List.mem_cons_self
      simp [hu, Form.isMark]
  simp [takeTerms, hstack, hmark, hnone]

theorem run_swapBar (hstack : c.stack = t :: rest) (hrest : Brackets rest) : swapBar.run c = some (false, c) := by
  cases rest with
  | nil => simp [swapBar, hstack]
  | cons u us =>
    obtain ⟨capturing, hu⟩ := hrest u List.mem_cons_self
    simp [swapBar, hstack, hu]

theorem alternation_single (fuel : Nat) (t : Term) : alternation fuel [t] = pure t := by
  rw [alternation]

def tidied (t : Term) : Term := if t.form.isOneChar then t.become t.form.tidy else t

theorem run_alternateTop {t' : Term} {c' c'' : Construction} (fuel : Nat) (hstack : c.stack = t :: rest)
    (hmark : t.form.isMark = false) (hrest : Brackets rest)
    (hpush : (push t).run { c with stack := rest } = some ((), c')) (hstack' : c'.stack = t' :: rest)
    (hmark' : t'.form.isMark = false)
    (hpush' : (push (tidied t')).run { c' with stack := rest } = some ((), c'')) :
    (alternateTop fuel).run c = some ((), c'') := by
  have hjoin := joinTexts_of_brackets (c := c) hrest (by rw [hstack, List.tail_cons]) none
  have hconcat : concatTop.run c = some ((), c') := by
    simp [concatTop, hjoin, run_takeTerms hstack hmark hrest, concatenation, hpush]
  have htake := run_takeTerms hstack' hmark' hrest
  rw [tidied] at hpush'
  by_cases hone : t'.form.isOneChar
  . rw [if_pos hone] at hpush'
    simp [alternateTop, hconcat, run_swapBar hstack' hrest, htake, hone, alternation_single, hpush']
  . rw [if_neg hone] at hpush'
    simp [alternateTop, hconcat, run_swapBar hstack' hrest, htake, hone, alternation_single, hpush']

theorem alternateTop_of_joinTexts {c₁ : Construction} {joined joined' : Bool} (fuel : Nat)
    (hjoin : (joinTexts none).run c = some (joined, c₁)) (hjoin' : (joinTexts none).run c₁ = some (joined', c₁)) :
    (alternateTop fuel).run c = (alternateTop fuel).run c₁ := by
  simp [alternateTop, concatTop, hjoin, hjoin']

theorem alternateTop_refused (fuel : Nat) (hstack : c.stack = t :: rest) (hmark : t.form.isMark = false)
    (hrest : Brackets rest) (hpush : (push t).run { c with stack := rest } = none) :
    (alternateTop fuel).run c = none := by
  have hjoin := joinTexts_of_brackets (c := c) hrest (by rw [hstack, List.tail_cons]) none
  have hconcat : concatTop.run c = none := by
    simp [concatTop, hjoin, run_takeTerms hstack hmark hrest, concatenation, hpush]
  simp [alternateTop, hconcat]

end Stack

section Repetition

variable {least : Nat} {most : Option Nat}

theorem getD_le {limit : Nat} (hleast : least ≤ limit) (hmost : ∀ m ∈ most, m ≤ limit) : most.getD least ≤ limit := by
  cases most with
  | none => exact hleast
  | some m => exact hmost m rfl

def bracket : Term := .node (.opened false) 1 none []

def charTerm (x : Char) (recorded : Option Nat) : Term := .node (.text false #[x.toNat]) 1 recorded []

def loopTerm (least : Nat) (most : Option Nat) (x : Char) (recorded inner : Option Nat) : Term :=
  .node (.loop least most true) 2 recorded [charTerm x inner]

def loopSize (least : Nat) (most : Option Nat) : Nat := (Form.loop least most true).size 1 1

/-- The text of some characters of which the size has not been noted. -/
def textTerm (xs : List Char) : Term := .node (.text false (xs.map Char.toNat).toArray) 1 none []

theorem codes_textTerm (xs : List Char) : (textTerm xs).form.codes = xs.length := by
  simp [textTerm, Term.form, Form.codes]

theorem push_textTerm (xs : List Char) (hstack : Brackets c.stack) (hcodes : c.codes + xs.length ≤ maxCodes)
    (hmeasuring : c.measuring = false) (hplaces : c.places < maxSize / c.counts) :
    (push (textTerm xs)).run c =
      some ((), { c with stack := textTerm xs :: c.stack, codes := c.codes + xs.length }) := by
  have hheight : (textTerm xs).height ≤ maxHeight := (by decide : 1 ≤ 1000)
  have hcheck := check_of_lt (c := { c with codes := c.codes + (textTerm xs).form.codes }) (t := textTerm xs)
    (by rwa [codes_textTerm]) hmeasuring hplaces hheight
  have hpush := push_of_check hstack rfl hcheck
  rwa [codes_textTerm] at hpush

theorem push_charTerm (x : Char) (hstack : Brackets c.stack) (hcodes : c.codes < maxCodes)
    (hmeasuring : c.measuring = false) (hplaces : c.places < maxSize / c.counts) :
    (push (charTerm x none)).run c =
      some ((), { c with stack := charTerm x none :: c.stack, codes := c.codes + 1 }) :=
  push_textTerm [x] hstack hcodes hmeasuring hplaces

theorem brackets_nil : Brackets [] := by
  intro t ht
  simp at ht

theorem brackets_bracket : Brackets [bracket] := List.forall_mem_singleton.2 ⟨false, rfl⟩

theorem run_openGroup (fuel : Nat) :
    (step fuel (.openGroup false)).run {} = some ((), { stack := [bracket], places := 1 }) := rfl

theorem run_atom (fuel : Nat) (x : Char) :
    (step fuel (.atom (.char x))).run { stack := [bracket], places := 1 } =
      some ((), { stack := [charTerm x none, bracket], places := 2, codes := 1 }) :=
  push_charTerm (c := { stack := [bracket], places := 2 }) x brackets_bracket (by decide) rfl (by decide)

theorem run_closeGroup (fuel : Nat) (x : Char) :
    (step fuel .closeGroup).run { stack := [charTerm x none, bracket], places := 2, codes := 1 } =
      some ((), { stack := [charTerm x none], places := 2, codes := 4 }) := by
  have hconcat := push_charTerm (c := { stack := [bracket], places := 2, codes := 1 }) x brackets_bracket
    (by decide) rfl (by decide)
  have hchoice := push_charTerm (c := { stack := [bracket], places := 2, codes := 2 }) x brackets_bracket
    (by decide) rfl (by decide)
  have hbody := push_charTerm (c := { places := 2, codes := 3 }) x brackets_nil (by decide) rfl (by decide)
  have halternate := run_alternateTop (c := { stack := [charTerm x none, bracket], places := 2, codes := 1 }) fuel
    rfl rfl brackets_bracket hconcat rfl rfl hchoice
  dsimp only at halternate hbody
  rw [step]
  simp only [StateT.run_bind, halternate, Option.bind_eq_bind, Option.bind_some]
  exact hbody

theorem remeasure_loopTerm (least : Nat) (most : Option Nat) (x : Char) (recorded : Option Nat) {inner : Option Nat}
    (hinner : inner = none ∨ inner = some 1) :
    (loopTerm least most x recorded inner).remeasure =
      (loopSize least most, loopTerm least most x (some (loopSize least most)) (some 1)) := by
  obtain rfl | rfl := hinner
  . rfl
  . rfl

variable (hleast : least ≤ maxCount) (hmost : ∀ m ∈ most, m ≤ maxCount)

include hleast hmost

theorem loopSize_le : loopSize least most ≤ maxSize := by
  rw [maxCount] at hleast hmost
  rw [loopSize, maxSize]
  cases most with
  | none =>
    rw [Form.size]
    split <;> omega
  | some m =>
    have := hmost m rfl
    rw [Form.size]
    omega

theorem lt_div_multiply : 3 < maxSize / multiply 1 (.loop least most true) := by
  have hsmall : most.getD least ≤ 1000 := getD_le hleast hmost
  have hle : Nat.max 1 (most.getD least) ≤ 1000 := Nat.max_le.2 ⟨by decide, hsmall⟩
  have hpos : 0 < Nat.max 1 (most.getD least) := Nat.lt_of_lt_of_le Nat.one_pos (Nat.le_max_left _ _)
  rw [multiply, maxSize, if_neg (by omega), Nat.one_mul, Nat.lt_div_iff_mul_lt hpos]
  omega

theorem exists_push_loopTerm (x : Char) (recorded : Option Nat) {inner : Option Nat}
    (hinner : inner = none ∨ inner = some 1) (hstack : c.stack = []) (hcodes : c.codes ≤ maxCodes) :
    ∃ c' recorded' inner', (push (loopTerm least most x recorded inner)).run c = some ((), c') ∧
      c'.stack = [loopTerm least most x recorded' inner'] ∧ (inner' = none ∨ inner' = some 1) ∧
      c'.codes = c.codes := by
  have hmeasure := remeasure_loopTerm least most x recorded hinner
  have hheight : 2 ≤ maxHeight := by decide
  obtain ⟨t', c', hcheck, ht', hstack', hcodes'⟩ := exists_check (t := loopTerm least most x recorded inner) hstack
    hcodes (by rw [hmeasure]; exact loopSize_le hleast hmost) hheight (by rw [hmeasure]; exact hheight)
  have hpush := push_of_check (by rw [hstack]; exact brackets_nil) rfl hcheck
  obtain rfl | rfl := ht'
  . exact ⟨_, recorded, inner, hpush, congrArg _ hstack', hinner, hcodes'⟩
  . rw [hmeasure] at hpush
    exact ⟨_, _, _, hpush, congrArg _ hstack', .inr rfl, hcodes'⟩

theorem run_quantifier (fuel : Nat) (x : Char) :
    (step fuel (.quantifier least most true)).run { stack := [charTerm x none], places := 2, codes := 4 } =
      some ((), { stack := [loopTerm least most x none none], places := 3, codes := 4,
                  counts := multiply 1 (.loop least most true) }) := by
  have hcodes : 4 ≤ maxCodes := by decide
  have hheight : (loopTerm least most x none none).height ≤ maxHeight := (by decide : 2 ≤ 1000)
  have hcheck := check_of_lt (c := { stack := [loopTerm least most x none none], places := 3, codes := 4 })
    (t := loopTerm least most x none none) hcodes rfl (lt_div_multiply hleast hmost) hheight
  have hmake : Term.make (.loop least most true) none [charTerm x none] = loopTerm least most x none none := rfl
  simp [step, fresh, hmake, hcheck]
  rfl

/-- A counted repetition of one character keeps the limits. -/
theorem withinLimits_repetition (x : Char) :
    withinLimits [.openGroup false, .atom (.char x), .closeGroup, .quantifier least most true] := by
  have hquantifier := run_quantifier hleast hmost 4 x
  generalize hc : ({ stack := [loopTerm least most x none none], places := 3, codes := 4,
                     counts := multiply 1 (.loop least most true) } : Construction) = c at hquantifier
  have hstack : c.stack = [loopTerm least most x none none] := by rw [← hc]
  have hcodes : c.codes = 4 := by rw [← hc]
  obtain ⟨c', recorded, inner, hconcat, hstack', hinner, hcodes'⟩ :=
    exists_push_loopTerm (c := { c with stack := [] }) hleast hmost x none (.inl rfl) rfl
      (by rw [hcodes]; decide)
  obtain ⟨c'', _, _, hchoice, -⟩ :=
    exists_push_loopTerm (c := { c' with stack := [] }) hleast hmost x recorded hinner rfl
      (by rw [hcodes', hcodes]; decide)
  -- at the end of the pattern the term is put on the stack twice more
  have halternate := run_alternateTop 4 hstack rfl brackets_nil hconcat hstack' rfl hchoice
  have hread : (readAll [.openGroup false, .atom (.char x), .closeGroup, .quantifier least most true]).run {} =
      some ((), c'') := by
    simp [readAll, run_openGroup, run_atom, run_closeGroup, hquantifier, halternate]
  rw [withinLimits, hread]
  rfl

end Repetition

section Text

variable {xs : List Char} {x : Char} {fuel : Nat}

def thousand (xs : List Char) : Term := .node (.loop 1000 (some 1000) true) 2 none [textTerm xs]

/-- The text of a group that is being read: all characters but the last one have been joined. -/
def reading (xs : List Char) (x : Char) (codes : Nat) : Construction where
  stack := [textTerm [x], textTerm xs, bracket]
  spare := [none]
  places := 4
  codes := codes

theorem run_joinTexts {rest : List Term} (hstack : c.stack = textTerm [x] :: textTerm xs :: rest) :
    (joinTexts none).run c =
      some (false, { c with stack := textTerm (xs ++ [x]) :: rest, spare := none :: c.spare }) := by
  obtain ⟨stack, spare, places, counts, measuring, codes⟩ := c
  obtain rfl : stack = _ := hstack
  simp [joinTexts, textTerm, Term.become, Term.make, Term.form, Term.recorded, giveUp]

theorem push_joined (hstack : c.stack = [textTerm [x], textTerm xs, bracket]) (y : Char) (hcodes : c.codes < maxCodes)
    (hmeasuring : c.measuring = false) (hplaces : c.places < maxSize / c.counts) :
    (push (textTerm [y])).run c = some ((), { c with
      stack := [textTerm [y], textTerm (xs ++ [x]), bracket], spare := none :: c.spare, codes := c.codes + 1 }) := by
  have hjoin := run_joinTexts (c := { c with codes := c.codes + 1 }) hstack
  have hheight : (textTerm [y]).height ≤ maxHeight := (by decide : 1 ≤ 1000)
  have hcheck := check_of_lt (t := textTerm [y])
    (c := { c with stack := [textTerm (xs ++ [x]), bracket], spare := none :: c.spare, codes := c.codes + 1 })
    hcodes hmeasuring hplaces hheight
  exact push_of_joinTexts rfl hjoin hcheck

theorem forM_cons (l : Lexeme) (ls : List Lexeme) (f : Lexeme → Construct Unit) :
    (l :: ls).forM f = f l >>= fun _ => ls.forM f := rfl

theorem run_atoms_reading (fuel : Nat) (xs : List Char) (x : Char) (n : Nat) {ys : List Char}
    (hcodes : n + ys.length ≤ maxCodes) :
    ∃ zs z, zs ++ [z] = xs ++ x :: ys ∧
      ((ys.map fun y => Lexeme.atom (.char y)).forM (step fuel)).run (reading xs x n) =
        some ((), reading zs z (n + ys.length)) := by
  -- The induction is on the characters that are still to be read.
  induction ys generalizing xs x n with
  | nil => exact ⟨xs, x, rfl, rfl⟩
  | cons y ys ih =>
    rw [List.length_cons] at hcodes
    have hcodes' : n < maxCodes := by omega
    obtain ⟨zs, z, hzs, hrun⟩ := ih (xs ++ [x]) y (n + 1) (by omega)
    refine ⟨zs, z, by rw [hzs, List.append_assoc, List.singleton_append], ?_⟩
    have hfirst : (step fuel (.atom (.char y))).run (reading xs x n) = some ((), reading (xs ++ [x]) y (n + 1)) :=
      push_joined (c := { stack := [textTerm [x], textTerm xs, bracket], places := 4, codes := n }) rfl y hcodes' rfl
        (by decide : 4 < maxSize / 1)
    rw [Nat.add_assoc, Nat.add_comm 1] at hrun
    rw [List.map_cons, forM_cons, StateT.run_bind, hfirst]
    exact hrun

theorem run_atoms (fuel : Nat) (a b y : Char) {ys : List Char} (hcodes : 3 + ys.length ≤ maxCodes) :
    ∃ zs z, zs ++ [z] = a :: b :: y :: ys ∧
      (((a :: b :: y :: ys).map fun y => Lexeme.atom (.char y)).forM (step fuel)).run
        { stack := [bracket], places := 1 } = some ((), reading zs z (3 + ys.length)) := by
  let one : Construction := { stack := [textTerm [a], bracket], places := 3, codes := 1 }
  let two : Construction := { stack := [textTerm [b], textTerm [a], bracket], places := 4, codes := 2 }
  have hfirst := run_atom fuel a
  have hsecond : (step fuel (.atom (.char b))).run { one with places := 2 } = some ((), { two with places := 3 }) := by
    have hjoin := joinTexts_of_brackets (c := { one with codes := 2 }) brackets_bracket rfl none
    have hcheck := check_of_lt (c := { one with codes := 2 }) (t := textTerm [b]) (by decide : 2 ≤ maxCodes) rfl
      (by decide : 3 < maxSize / 1) (by decide : 1 ≤ 1000)
    exact push_of_joinTexts (c := one) (t := textTerm [b]) rfl hjoin hcheck
  have hthird : (step fuel (.atom (.char y))).run { two with places := 3 } = some ((), reading [a, b] y 3) :=
    push_joined (c := two) rfl y (by decide : 2 < maxCodes) rfl (by decide : 4 < maxSize / 1)
  obtain ⟨zs, z, hzs, hrun⟩ := run_atoms_reading fuel [a, b] y 3 hcodes
  refine ⟨zs, z, hzs, ?_⟩
  simp only [List.map_cons, forM_cons, StateT.run_bind, hfirst]
  change ((step fuel (.atom (.char b))).run { one with places := 2 }).bind _ = _
  rw [hsecond]
  change ((step fuel (.atom (.char y))).run { two with places := 3 }).bind _ = _
  rw [hthird]
  exact hrun

theorem run_closeGroup_reading (fuel n : Nat) (hxs : xs ≠ []) (hcodes : n + 3 * (xs ++ [x]).length ≤ maxCodes) :
    (step fuel .closeGroup).run (reading xs x n) =
      some ((), { stack := [textTerm (xs ++ [x])], spare := [none, none], places := 4,
                  codes := n + (xs ++ [x]).length + (xs ++ [x]).length + (xs ++ [x]).length }) := by
  have hplaces : 4 < maxSize / 1 := by decide
  have htidied : tidied (textTerm (xs ++ [x])) = textTerm (xs ++ [x]) := by
    have hone : (textTerm (xs ++ [x])).form.isOneChar = false := by
      simpa [textTerm, Term.form, Form.isOneChar] using hxs
    rw [tidied, if_neg (Bool.eq_false_iff.1 hone)]
  have hjoin := run_joinTexts (c := reading xs x n) rfl
  generalize xs ++ [x] = ws at hcodes htidied hjoin ⊢
  let joined : Construction := { stack := [textTerm ws, bracket], spare := [none, none], places := 4, codes := n }
  have hconcat := push_textTerm (c := { joined with stack := [bracket] }) ws brackets_bracket
    (by omega : n + ws.length ≤ maxCodes) rfl hplaces
  have hchoice := push_textTerm (c := { joined with stack := [bracket], codes := n + ws.length }) ws brackets_bracket
    (by omega : n + ws.length + ws.length ≤ maxCodes) rfl hplaces
  have hbody := push_textTerm (c := { joined with stack := [], codes := n + ws.length + ws.length }) ws brackets_nil
    (by omega : n + ws.length + ws.length + ws.length ≤ maxCodes) rfl hplaces
  rw [← htidied] at hchoice
  have halternate := run_alternateTop (c := joined) fuel rfl rfl brackets_bracket hconcat rfl rfl hchoice
  have hjoined := joinTexts_of_brackets (c := joined) brackets_bracket rfl none
  have hsame : (alternateTop fuel).run (reading xs x n) = (alternateTop fuel).run joined :=
    alternateTop_of_joinTexts fuel hjoin hjoined
  rw [htidied, ← hsame] at halternate
  rw [step]
  simp only [StateT.run_bind, halternate, Option.bind_eq_bind, Option.bind_some]
  exact hbody

theorem run_quantifier_text {codes : Nat} (hcodes : codes ≤ maxCodes) :
    (step fuel (.quantifier 1000 (some 1000) true)).run
        { stack := [textTerm xs], spare := [none, none], places := 4, codes := codes } =
      some ((), { stack := [thousand xs], spare := [none], places := 4, counts := 1000, codes := codes }) := by
  have hcheck := check_of_lt (t := thousand xs)
    (c := { stack := [thousand xs], spare := [none], places := 4, codes := codes }) hcodes rfl
    (by decide : 4 < maxSize / multiply 1 (.loop 1000 (some 1000) true)) (by decide : 2 ≤ 1000)
  have hmake : Term.make (.loop 1000 (some 1000) true) none [textTerm xs] = thousand xs := rfl
  simp [step, fresh, hmake, hcheck]
  rfl

theorem remeasure_thousand (hlong : 3356 ≤ xs.length) : maxSize < (thousand xs).remeasure.1 := by
  have hsize : (thousand xs).remeasure.1 =
      max 1 (1000 * (max 1 (xs.map Char.toNat).toArray.size + 0) + (1000 - 1000)) :=
    rfl
  rw [hsize, List.size_toArray, List.length_map, maxSize]
  omega

/-- The lexemes of a thousand copies of a text. -/
def thousandLexemes (xs : List Char) : List Lexeme :=
  Lexeme.openGroup false :: (xs.map fun x => Lexeme.atom (.char x)) ++ [Lexeme.closeGroup, .quantifier 1000 (some 1000) true]

theorem run_thousandLexemes (hlong : 3 ≤ xs.length) (hcodes : 4 * xs.length ≤ maxCodes) :
    ((thousandLexemes xs).forM (step fuel)).run {} =
      some ((), { stack := [thousand xs], spare := [none], places := 4, counts := 1000, codes := 4 * xs.length }) := by
  obtain _ | ⟨a, _ | ⟨b, _ | ⟨y, ys⟩⟩⟩ := xs
  . contradiction
  . contradiction
  . contradiction
  . have hlength : (a :: b :: y :: ys).length = 3 + ys.length := by
      simp only [List.length_cons]
      omega
    have hshort : 3 + ys.length ≤ maxCodes := by omega
    obtain ⟨zs, z, hzs, hatoms⟩ := run_atoms fuel a b y hshort
    have hzs' : zs ≠ [] := by
      rintro rfl
      simp at hzs
    generalize a :: b :: y :: ys = xs at hcodes hlength hzs hatoms ⊢
    have hclose := run_closeGroup_reading fuel (3 + ys.length) hzs' (x := z) (by
      rw [hzs]
      omega)
    have hsum : 3 + ys.length + xs.length + xs.length + xs.length = 4 * xs.length := by omega
    rw [hzs, hsum] at hclose
    rw [thousandLexemes, List.forM_eq_forM, List.cons_append, List.forM_cons, List.forM_append, ← List.forM_eq_forM]
    simp only [forM_cons, StateT.run_bind, run_openGroup, hatoms, hclose, run_quantifier_text hcodes,
      Option.bind_eq_bind, Option.bind_some]
    rfl

/-- A thousand copies of a long text exceed the limits. The size is noted at the end of the pattern only. -/
theorem withinLimits_thousand (hlong : 3356 ≤ xs.length) (hcodes : 4 * xs.length ≤ maxCodes) :
    withinLimits (thousandLexemes xs) = false := by
  let c : Construction :=
    { stack := [thousand xs], spare := [none], places := 4, counts := 1000, codes := 4 * xs.length }
  have hcheck : (check (thousand xs)).run { c with stack := [] } = none :=
    check_refused rfl rfl (by decide : ¬4 < maxSize / multiply 1000 (.loop 1000 (some 1000) true))
      (remeasure_thousand hlong)
  have hpush : (push (thousand xs)).run { c with stack := [] } = none := push_refused brackets_nil rfl hcheck
  have halternate := alternateTop_refused (c := c) (thousandLexemes xs).length rfl rfl brackets_nil hpush
  have hread : (readAll (thousandLexemes xs)).run {} = none := by
    rw [readAll, StateT.run_bind, run_thousandLexemes (by omega) hcodes]
    exact halternate
  rw [withinLimits, hread]
  rfl

end Text

end VerboseExpr.Regex.Automaton.Construct
