import Mathlib
import VerboseExpr.Proofs.Matcher.Quotation
import VerboseExpr.Proofs.Pattern.Correct
import VerboseExpr.Proofs.Regex.Exception

/-!
Exceptions from end to end. Main statement: an expression for all characters but some finds the first other
character of a subject if the characters are given one by one. It does not if one of its operands is a range,
which is written as a class of its own and ends the class that it stands in.
-/

namespace VerboseExpr

open Element Pattern Regex

/-- Does the result tell where the first character with the property stands in the subject? -/
def MatchResult.LocatesFirst (r : MatchResult) (P : Char → Prop) (subject : Bytes) : Prop :=
  if r.found then
    ∃ before c after, Utf8.decode subject = before ++ c :: after ∧ (∀ d ∈ before, ¬P d) ∧ P c ∧
      r.offset = (Bytes.ofChars before).length ∧ r.text = Bytes.ofChar c
  else ∀ c ∈ Utf8.decode subject, ¬P c

namespace Regex.Operand

def element : Operand → Element
  | char c => literal (Bytes.ofChar c)
  | range lo hi _ => Element.command Command.range.name [literal (Bytes.ofChar lo), literal (Bytes.ofChar hi)]

/-- The tree of all characters but those that the operands stand for. -/
def exceptTree (os : List Operand) : Element :=
  Element.command rootName [Element.command Command.except.name (os.map element)]

end Regex.Operand

section Emission

open Operand (element exceptTree)

theorem emit_element (o : Operand) : emit o.element = .ok (Bytes.ofChars o.text) := by
  cases o with
  | char c => rw [element, literal, emit_literal, escape_ofChar, Operand.text]
  | range lo hi ordered =>
    have hfold : fold [literal (Bytes.ofChar lo), literal (Bytes.ofChar hi)] =
        [literal (Bytes.ofChar lo), literal (Bytes.ofChar hi)] := by
      apply fold_eq_self
      rintro e he
      obtain rfl := List.mem_singleton.1 he
      rfl
    have hparts : emitAll Command.range.name Command.range.counts 0
        [literal (Bytes.ofChar lo), literal (Bytes.ofChar hi)] =
          .ok [Bytes.ofChars (escapeChar lo), Bytes.ofChars (escapeChar hi)] := by
      have hcounts : Command.range.counts = 0 := rfl
      rw [hcounts, emitAll_zero, literal, literal, List.mapM_cons, List.mapM_cons, emit_literal, emit_literal,
        escape_ofChar, escape_ofChar]
      rfl
    have hname : Command.ofName? Command.range.name = some .range := by decide +kernel
    rw [element, Element.command, emit_of_ne_literal (by decide), hfold]
    apply assemble_eq hname (accepts_exactly.2 rfl) hparts
    simp only [Command.render, Operand.text, Bytes.ofChars_append, Bytes.ofChars_cons, List.append_assoc]
    rfl

theorem mapM_element (os : List Operand) :
    (os.map element).mapM emit = .ok ((os.map Operand.text).map Bytes.ofChars) := by
  induction os with
  | nil => rfl
  | cons o os ih =>
    rw [List.map_cons, List.mapM_cons, emit_element, ih]
    rfl

theorem emit_exceptTree {os : List Operand} (hos : os ≠ []) :
    emit (exceptTree os) = .ok (Bytes.ofChars (exception os)) := by
  have hfold : fold (os.map element) = os.map element := by
    apply fold_eq_self
    intro e he
    obtain ⟨o, -, rfl⟩ := List.mem_map.1 (List.dropLast_subset _ he)
    cases o with
    | char c => rfl
    | range lo hi ordered => exact bareCommand?_of_args_ne_nil (by simp [element, Element.command, args])
  have hlength : 1 ≤ (os.map element).length := by
    rw [List.length_map]
    exact List.length_pos_iff.2 hos
  have hexcept : emit (Element.command Command.except.name (os.map element)) =
      .ok (Bytes.ofChars (exception os)) := by
    have hparts : emitAll Command.except.name Command.except.counts 0 (os.map element) =
        .ok ((os.map Operand.text).map Bytes.ofChars) := by
      have hcounts : Command.except.counts = 0 := rfl
      rw [hcounts, emitAll_zero, mapM_element]
    have hname : Command.ofName? Command.except.name = some .except := by decide +kernel
    rw [Element.command, emit_of_ne_literal (by decide), hfold]
    apply assemble_eq hname (accepts_atLeast.2 hlength) hparts
    rw [Command.render, wrap_ofChars, exception, List.flatMap_def]
    rfl
  -- a single command is not folded with anything, so that the pattern is that of the exception
  have hroot : fold [Element.command Command.except.name (os.map element)] =
      [Element.command Command.except.name (os.map element)] := fold_eq_self (by simp [Folded])
  rw [exceptTree, emit_root, hroot, List.mapM_cons, hexcept]
  simp [bind, Except.bind, pure, Except.pure, Except.map]

end Emission

/-- Does the expression find the first character of every subject that no operand stands for? -/
def FindsOthers (source : Bytes) (os : List Operand) : Prop :=
  ∀ subject, Utf8.isValid subject → ∃ r, matchSource source subject = .ok r ∧
    r.LocatesFirst (fun c => ∀ o ∈ os, o.contains c = false) subject

namespace Matcher

theorem search_row (engine : Engine) (cells : List Cell) (subject : Array Char) :
    LocatesRow cells subject.toList (search engine (row cells) subject) := by
  cases engine with
  | automaton => exact Automaton.find?_row cells subject
  | backtracking => exact Backtracking.find?_row cells subject

theorem fits_set_iff {s : CharSet} {cs : List Char} {i : Nat} :
    fits [.set s] (cs.drop i) ↔ ∃ c, cs[i]? = some c ∧ s.contains c := by
  have hdrop := fits_cons_drop (.set s) [] cs.toArray i
  rw [fits, Bool.and_true, List.getElem?_toArray] at hdrop
  rw [hdrop]
  cases cs[i]? with
  | none => simp
  | some c => simp [Cell.chars]

theorem find_set (pattern : Bytes) (engine : Engine) (s : CharSet) (cs : List Char) :
    (find ⟨pattern, engine, row [.set s]⟩ (Bytes.ofChars cs)).LocatesFirst (s.contains ·) (Bytes.ofChars cs) := by
  have hlocates := search_row engine [.set s] cs.toArray
  rw [find_eq, MatchResult.LocatesFirst, Utf8.decode_ofChars]
  -- the engine gives the first place where the row fits, and it fits where a character of the set stands
  cases hsearch : search engine (row [.set s]) cs.toArray with
  | none =>
    rw [hsearch] at hlocates
    intro c hc hcontains
    obtain ⟨i, hi⟩ := List.getElem?_of_mem hc
    obtain ⟨hlt, -⟩ := List.getElem?_eq_some_iff.1 hi
    have hnone := hlocates i (Nat.le_of_lt hlt)
    rw [fits_set_iff.2 ⟨c, hi, hcontains⟩] at hnone
    contradiction
  | some span =>
    obtain ⟨i, stop⟩ := span
    rw [hsearch] at hlocates
    obtain ⟨hhere, hbefore, rfl⟩ := hlocates
    obtain ⟨c, hi, hc⟩ := fits_set_iff.1 hhere
    obtain ⟨hlt, hget⟩ := List.getElem?_eq_some_iff.1 hi
    have hdrop : cs.drop i = c :: cs.drop (i + 1) := by rw [List.drop_eq_getElem_cons hlt, hget]
    refine ⟨cs.take i, c, cs.drop (i + 1), ?_, ?_, hc, Utf8.offset_ofChars cs i, ?_⟩
    . rw [← hdrop, List.take_append_drop]
    . intro d hd hcontains
      obtain ⟨j, hj⟩ := List.getElem?_of_mem hd
      rw [List.getElem?_take] at hj
      split at hj
      . next hbelow =>
        have hnone := hbefore j hbelow
        rw [fits_set_iff.2 ⟨d, hj, hcontains⟩] at hnone
        contradiction
      . simp at hj
    . have htext : (cs.take (i + [Cell.set s].length)).drop i = [c] := by
        rw [List.drop_take, Nat.add_sub_cancel_left, hdrop]
        rfl
      dsimp only
      rw [htext]
      simp [Bytes.ofChars]

theorem found_row {m : Matcher} {cells : List Cell} (hm : m.regex = row cells) (hcells : 2 ≤ cells.length) (x : Char) :
    (m.find (Bytes.ofChars [x])).found = false := by
  obtain ⟨pattern, engine, r⟩ := m
  obtain rfl : r = row cells := hm
  have hlocates := search_row engine cells [x].toArray
  rw [find_eq]
  cases hsearch : search engine (row cells) [x].toArray with
  | none => rfl
  | some span =>
    obtain ⟨i, stop⟩ := span
    rw [hsearch] at hlocates
    have hle := length_le_of_fits hlocates.1
    rw [List.length_drop] at hle
    simp at hle
    omega

theorem make_exception {cs : List Char} (hcs : cs ≠ []) :
    ∃ engine, make (Bytes.ofChars (exception (cs.map .char))) .auto =
      .ok ⟨Bytes.ofChars (exception (cs.map .char)), engine, row [.set (.allBut cs)]⟩ :=
  exists_make (Automaton.read?_exception hcs) (Backtracking.read?_exception cs)

theorem row_of_make {os : List Operand} {m : Matcher} (hos : ¬∀ o ∈ os, o.isChar)
    (h : make (Bytes.ofChars (exception os)) .auto = .ok m) :
    ∃ cells, m.regex = row cells ∧ 2 ≤ cells.length := by
  have hread := read?_of_make h
  cases hengine : m.engine with
  | automaton =>
    rw [hengine] at hread
    exact Automaton.row_of_read? hos hread
  | backtracking =>
    rw [hengine] at hread
    exact Backtracking.row_of_read? hos hread

end Matcher

theorem contains_allBut (cs : List Char) (c : Char) :
    (CharSet.allBut cs).contains c ↔ ∀ o ∈ cs.map Operand.char, o.contains c = false := by
  have hsame : ∀ d : Char, (d.toNat ≤ c.toNat ∧ c.toNat ≤ d.toNat) ↔ c = d := by
    intro d
    rw [← Char.toNat_inj]
    omega
  simp only [CharSet.allBut, CharSet.contains, CharSet.inRanges, List.forall_mem_map, Operand.contains, bne_iff_ne,
    ne_eq, Bool.not_eq_true, List.any_map, List.any_eq_false, Function.comp_apply, Bool.and_eq_true,
    decide_eq_true_eq, hsame, beq_eq_false_iff_ne]

/-- All characters but some that are given one by one. If there is a range among them, the first other character is
not found, as long as there is one at all. -/
theorem findsOthers_except {source : Bytes} {os : List Operand} (hos : os ≠ [])
    (hsource : parse source = .ok (Operand.exceptTree os)) :
    ((∀ o ∈ os, o.isChar) → FindsOthers source os) ∧
      ((∃ x, ∀ o ∈ os, o.contains x = false) → FindsOthers source os → ∀ o ∈ os, o.isChar) := by
  have hcompile : compile source = .ok (Bytes.ofChars (exception os)) := by
    rw [compile_eq_bind, hsource, Except.bind, emit_exceptTree hos]
  constructor
  . intro hchars subject hsubject
    obtain ⟨cs, rfl⟩ := Operand.exists_chars hchars
    obtain ⟨engine, hmake⟩ := Matcher.make_exception (by simpa using hos)
    refine ⟨_, matchSource_eq_ok_iff.2 ⟨_, _, hcompile, hmake, rfl⟩, ?_⟩
    have hfind := Matcher.find_set (Bytes.ofChars (exception (cs.map .char))) engine (.allBut cs) (Utf8.decode subject)
    have hothers : (fun c => (CharSet.allBut cs).contains c = true) =
        fun c => ∀ o ∈ cs.map Operand.char, o.contains c = false := funext fun c => propext (contains_allBut cs c)
    rwa [Utf8.ofChars_decode hsubject, hothers] at hfind
  . rintro ⟨x, hx⟩ hfinds
    by_cases hchars : ∀ o ∈ os, o.isChar
    . exact hchars
    . -- with a range among the operands the row has two cells or more, and one character alone does not fit it
      obtain ⟨r, hr, hlocates⟩ := hfinds (Bytes.ofChars [x]) (Utf8.isValid_ofChars [x])
      obtain ⟨p, m, hp, hm, rfl⟩ := matchSource_eq_ok_iff.1 hr
      obtain rfl := Except.ok.inj (hcompile.symm.trans hp)
      obtain ⟨cells, hrow, hcells⟩ := Matcher.row_of_make hchars hm
      have hfound := Matcher.found_row hrow hcells x
      rw [MatchResult.LocatesFirst, hfound, if_neg (by simp), Utf8.decode_ofChars] at hlocates
      exact absurd hx (hlocates x List.mem_cons_self)

def classChars : List Operand := [.char '^', .char ']', .char 'é', .char '-']

def charAndRange : List Operand := [.char 'q', .range 'a' 'f' (by decide)]

theorem findsOthers_except_mixed :
    parse "(except '^' ']' 'é' '-')" = .ok (Operand.exceptTree classChars) ∧
      FindsOthers "(except '^' ']' 'é' '-')" classChars ∧
      parse "(except 'q' (range 'a' 'f'))" = .ok (Operand.exceptTree charAndRange) ∧
      ¬FindsOthers "(except 'q' (range 'a' 'f'))" charAndRange := by
  have hchars : parse "(except '^' ']' 'é' '-')" = .ok (Operand.exceptTree classChars) := by decide +kernel
  have hmixed : parse "(except 'q' (range 'a' 'f'))" = .ok (Operand.exceptTree charAndRange) := by decide +kernel
  refine ⟨hchars, (findsOthers_except (by simp [classChars]) hchars).1 (by simp [classChars, Operand.isChar]),
    hmixed, ?_⟩
  intro hfinds
  have hall := (findsOthers_except (by simp [charAndRange]) hmixed).2 ⟨'z', by simp [charAndRange, Operand.contains]⟩
    hfinds
  simp [charAndRange, Operand.isChar] at hall

def letterRange : List Operand := [.range 'a' 'z' (by decide)]

def bracketAfterClass : Matcher :=
  ⟨"[^[a-z]]", .automaton, row [.set (.ranges true [('[', '['), ('a', 'z')]), .char ']']⟩

theorem locatesFirst_exceptRange :
    parse "(except (range 'a' 'z'))" = .ok (Operand.exceptTree letterRange) ∧ Utf8.isValid "A" ∧
      ∃ r, matchSource "(except (range 'a' 'z'))" "A" = .ok r ∧
        ¬r.LocatesFirst (fun c => ∀ o ∈ letterRange, o.contains c = false) "A" := by
  have htree : parse "(except (range 'a' 'z'))" = .ok (Operand.exceptTree letterRange) := by decide +kernel
  have hread : Automaton.read? bracketAfterClass.pattern = some bracketAfterClass.regex := by cbv
  have hfind : bracketAfterClass.find "A" = ⟨false, 0, [], .automaton⟩ := by cbv
  have hr : matchSource "(except (range 'a' 'z'))" "A" = .ok (bracketAfterClass.find "A") :=
    matchSource_of_read? htree (emit_exceptTree (by simp [letterRange])) hread "A"
  refine ⟨htree, by decide +kernel, _, hr, ?_⟩
  rw [hfind, MatchResult.LocatesFirst, if_neg (by simp)]
  intro hnone
  exact hnone 'A' (by decide +kernel) (by simp [letterRange, Operand.contains])

end VerboseExpr
