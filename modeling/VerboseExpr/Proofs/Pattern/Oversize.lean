import VerboseExpr.Proofs.Pattern.Correct
import VerboseExpr.Proofs.Regex.Counting

namespace VerboseExpr.Pattern

open Regex Regex.Automaton Element

/-- A thousand copies of a text. -/
def thousandfold (xs : List Char) : Element := command "times" [command "1000" [], literal (Bytes.ofChars xs)]

theorem isCount_thousand : isCount (command "1000" []) := by decide

theorem fold_thousandfold (xs : List Char) : fold (thousandfold xs).args = (thousandfold xs).args := by
  apply fold_eq_self
  intro e he
  obtain rfl : e = command "1000" [] := List.mem_singleton.1 he
  cases hbare : bareCommand? (command "1000" []) with
  | none => rfl
  | some c =>
    have hname := (bareCommand?_eq_some hbare).2.1
    rw [ofName?_integer (by decide)] at hname
    contradiction

theorem normalize_thousandfold (xs : List Char) : normalize (thousandfold xs) = thousandfold xs := by
  have hnormal : normalize (thousandfold xs) = command "times" (normalizeAll (fold (thousandfold xs).args)) :=
    normalize_of_ne_literal (by decide) _ _
  have hargs : (thousandfold xs).args.map normalize = (thousandfold xs).args := by
    change [normalize (command "1000" []), normalize (literal (Bytes.ofChars xs))] = _
    rw [normalize_count isCount_thousand, literal, normalize_literal]
    rfl
  rw [hnormal, fold_thousandfold, normalizeAll_eq_map, hargs]
  rfl

theorem isPlain_thousandfold (xs : List Char) : isPlain (thousandfold xs) := by
  have hname : Command.ofName? (Bytes.ofString "times") = some .times := ofName?_name .times
  have harity : Command.times.arity.accepts 2 := by decide
  rw [thousandfold, Element.command, isPlain, if_neg (by decide), hname]
  simp [harity, arePlain, Command.counts, isCount_thousand, isPlain, Element.literal, Utf8.isValid_ofChars]

def thousandfoldChars (xs : List Char) : List Char :=
  '(' :: '?' :: ':' :: (xs.flatMap escapeChar ++ [')', '\x7b', '1', '0', '0', '0', '\x7d'])

theorem emit_thousandfold (xs : List Char) : emit (thousandfold xs) = .ok (Bytes.ofChars (thousandfoldChars xs)) := by
  have hwrap := wrap_count [xs.flatMap escapeChar] ['1', '0', '0', '0', '\x7d']
  have hname : Command.ofName? (Bytes.ofString "times") = some .times := ofName?_name .times
  have hemit : emit (thousandfold xs) = assemble "times" (fold (thousandfold xs).args) :=
    emit_of_ne_literal (by decide) _ _
  have hlast : emitAll "times" 1 1 [literal (Bytes.ofChars xs)] = .ok [Bytes.ofChars (xs.flatMap escapeChar)] := by
    rw [emitAll_cons, operand_of_le (Nat.le_refl 1), literal, emit_literal, escape_ofChars, emitAll]
    rfl
  have hparts : emitAll "times" Command.times.counts 0 (thousandfold xs).args =
      .ok ["1000", Bytes.ofChars (xs.flatMap escapeChar)] :=
    emitAll_cons_eq_ok_iff.2 ⟨_, _, (operand_of_lt (by decide) _ _ _).2 ⟨by decide, rfl⟩, hlast, rfl⟩
  have haccepts : Command.times.arity.accepts (thousandfold xs).args.length := accepts_atLeast.2 (Nat.le_refl 2)
  rw [hemit, fold_thousandfold]
  apply assemble_eq hname haccepts hparts
  have hcount : Bytes.ofChars ['1', '0', '0', '0', '\x7d'] = Bytes.ofString "1000" ++ Bytes.ofString "\x7d" := by decide
  rw [hcount, ← List.append_assoc, List.flatten_singleton] at hwrap
  exact congrArg some hwrap

theorem patternLexemes?_thousandfold (xs : List Char) :
    patternLexemes? (Bytes.ofChars (thousandfoldChars xs)) = some (Construct.thousandLexemes xs) := by
  have hopen : ∀ k, lexemes? ('(' :: '?' :: ':' :: k) = (lexemes? k).map (.openGroup false :: ·) := by
    intro k
    have hlex : lexeme? '(' (['?', ':'] ++ k) = some (.openGroup false, ['?', ':'].length) := rfl
    exact lexemes?_cons hlex
  have htext : ∀ k, lexemes? (xs.flatMap escapeChar ++ k) =
      (lexemes? k).map ((xs.map fun x => Lexeme.atom (.char x)) ++ ·) := by
    intro k
    induction xs with
    | nil => simp
    | cons x xs ih =>
      rw [List.flatMap_cons, List.append_assoc, lexemes?_escapeChar, ih, Option.map_map]
      rfl
  have hcount : lexemes? ['\x7b', '1', '0', '0', '0', '\x7d'] = some [.quantifier 1000 (some 1000) true] := by
    have hdigits : Digits ['1', '0', '0', '0'] := ⟨by decide, List.all_eq_true.1 rfl, by decide⟩
    have hlex := hdigits.quantifies_exactly [] (by simp)
    rw [if_pos (by decide)] at hlex
    refine (lexemes?_cons hlex).trans ?_
    rw [lexemes?]
    rfl
  have hclose : lexemes? [')', '\x7b', '1', '0', '0', '0', '\x7d'] =
      some [.closeGroup, .quantifier 1000 (some 1000) true] := by
    have hlex : lexeme? ')' ([] ++ ['\x7b', '1', '0', '0', '0', '\x7d']) =
      some (.closeGroup, ([] : List Char).length) := rfl
    refine (lexemes?_cons hlex).trans ?_
    rw [hcount]
    rfl
  rw [patternLexemes?, if_pos (Utf8.isValid_ofChars _), Utf8.decode_ofChars, thousandfoldChars, hopen, htext, hclose]
  rfl

/-- A pattern can be well formed, with counts that are allowed, and still be too large for the engine. -/
theorem read?_thousandfold {xs : List Char} (hlong : 3356 ≤ xs.length) (hcodes : 4 * xs.length ≤ maxCodes) :
    isPlain (normalize (thousandfold xs)) ∧ ∃ p r, emit (thousandfold xs) = .ok p ∧ parse? p = some r ∧
      countsAllowed r ∧ read? p = none := by
  have hplain : isPlain (normalize (thousandfold xs)) := by rw [normalize_thousandfold, isPlain_thousandfold]
  obtain ⟨p, r, hemit, hflatten, hparse, hread⟩ := read_emit hplain
  have hdenote : denote 0 (normalize (thousandfold xs)) =
      .rep 1000 (some 1000) true (.concat [.concat (xs.map .char)]) := by
    have hname : Command.ofName? (Bytes.ofString "times") = some .times := ofName?_name .times
    have hnumber : number (command "1000" []) = 1000 := by
      have hvalue : (command "1000" []).value = Bytes.ofChars ['1', '0', '0', '0'] := by decide
      rw [number, hvalue, Utf8.decode_ofChars]
      rfl
    have htext : denote 0 (literal (Bytes.ofChars xs)) = .concat (xs.map .char) := by
      rw [literal, denote, if_pos rfl, Utf8.decode_ofChars]
    rw [normalize_thousandfold, thousandfold, Element.command, denote, if_neg (by decide), hname]
    simp [meaning, hnumber, denoteAll, htext, Command.counts, ownGroups]
  have hfits : countsFit (denote 0 (normalize (thousandfold xs))) := by
    rw [hdenote, countsFit, countsFit_concat]
    simp [countsFit_concat, countAllowed, maxCount, countsFit]
  have hallowed : countsAllowed (denote 0 (normalize (thousandfold xs))) := by
    rw [hdenote, countsAllowed, countsAllowed_concat, countsWithin]
    simp [maxCount, countsWithin_concat, countsAllowed_concat, countsWithin, countsAllowed]
  obtain rfl : Bytes.ofChars (thousandfoldChars xs) = p := Except.ok.inj ((emit_thousandfold xs).symm.trans hemit)
  rw [patternLexemes?_thousandfold] at hread
  refine ⟨hplain, _, r, hemit, ?_, ?_, ?_⟩
  . rw [hparse, if_pos hfits]
  . rw [← countsAllowed_flatten, hflatten, countsAllowed_flatten, hallowed]
  . rw [hread, Option.any_some, Construct.withinLimits_thousand hlong hcodes]
    simp

end VerboseExpr.Pattern
