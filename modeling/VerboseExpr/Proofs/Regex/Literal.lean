import VerboseExpr.Proofs.Regex.Lexing
import VerboseExpr.Proofs.Regex.Row
import VerboseExpr.Proofs.Text.Occurrence

namespace VerboseExpr.Regex

def text (cs : List Char) : Regex := concat (cs.map .char)

section Atoms

theorem foldlM_atoms (rs : List Regex) (b : Builder) :
    ∃ repeatable, (rs.map Lexeme.atom).foldlM Builder.step b = some
      { b with current := { b.current with
          units := rs.reverse ++ b.current.units, repeatable := repeatable } } := by
  induction rs generalizing b with
  | nil => exact ⟨b.current.repeatable, rfl⟩
  | cons r rs ih =>
    obtain ⟨repeatable, hrest⟩ := ih { b with current := b.current.push r }
    refine ⟨repeatable, ?_⟩
    rw [List.map_cons, List.foldlM_cons]
    simp only [Builder.step, Option.bind_eq_bind, Option.bind_some, hrest]
    simp [Frame.push]

theorem ofLexemes?_atoms (rs : List Regex) : ofLexemes? (rs.map Lexeme.atom) = some (concat rs) := by
  obtain ⟨repeatable, hfold⟩ := foldlM_atoms rs {}
  rw [ofLexemes?, hfold]
  simp [Frame.body, Frame.alternative, choice]

def textLexemes (cs : List Char) : List Lexeme := (cs.map Regex.char).map Lexeme.atom

end Atoms

theorem cons_prefix_drop_iff (c : Char) (cs : List Char) (subject : Array Char) (i : Nat) :
    c :: cs <+: subject.toList.drop i ↔ subject[i]? = some c ∧ cs <+: subject.toList.drop (i + 1) := by
  by_cases h : i < subject.size
  . rw [List.drop_eq_getElem_cons (by simpa using h), List.cons_prefix_cons, Array.getElem_toList]
    rw [Array.getElem?_eq_getElem h, Option.some.injEq, eq_comm]
  . rw [List.drop_eq_nil_of_le (by simpa using h), Array.getElem?_eq_none (by omega)]
    simp

section Rows

theorem row_map_char (cs : List Char) : row (cs.map .char) = text cs := by
  rw [row, List.map_map]
  rfl

theorem fits_map_char (cs : List Char) (subject : Array Char) (i : Nat) :
    fits (cs.map .char) (subject.toList.drop i) ↔ cs <+: subject.toList.drop i := by
  induction cs generalizing i with
  | nil => simp [fits]
  | cons c cs ih =>
    rw [List.map_cons, fits_cons_drop, Bool.and_eq_true, ih, cons_prefix_drop_iff]
    exact and_congr_left fun _ => Automaton.any_contains_single _ c

theorem locates_of_locatesRow {cs : List Char} {subject : Array Char} {r : Option (Nat × Nat)}
    (h : LocatesRow (cs.map .char) subject.toList r) : Locates cs subject.toList r := by
  cases r with
  | none =>
    intro hoccurs
    obtain ⟨i, hi, hhere⟩ := exists_drop_of_isInfix hoccurs
    exact Bool.eq_false_iff.1 (h i hi) ((fits_map_char cs subject i).2 hhere)
  | some span =>
    obtain ⟨hhere, hbefore, hstop⟩ := h
    rw [List.length_map] at hstop
    refine ⟨⟨(fits_map_char cs subject span.1).1 hhere, ?_⟩, hstop⟩
    intro j hj hhere'
    exact Bool.eq_false_iff.1 (hbefore j hj) ((fits_map_char cs subject j).2 hhere')

end Rows

namespace Automaton

section Reading

theorem lexemes?_escaped (cs : List Char) :
    lexemes? (cs.flatMap Pattern.escapeChar) = some (textLexemes cs) := by
  induction cs with
  | nil => simp [lexemes?, textLexemes]
  | cons c cs ih =>
    obtain ⟨d, more, heq, -, hlex⟩ := lexeme?_escapeChar c
    rw [List.flatMap_cons, heq, List.cons_append, lexemes?, hlex]
    simp only [Option.bind_eq_bind, Option.bind_some, List.drop_left, ih]
    rfl

/-- An escaped text is read as itself, unless it is too long for the engine. -/
theorem read?_escape (cs : List Char) :
    read? (Pattern.escape (Bytes.ofChars cs)) = some (text cs) ∨
      read? (Pattern.escape (Bytes.ofChars cs)) = none := by
  rw [Pattern.escape_ofChars, read?, patternLexemes?, if_pos (Utf8.isValid_ofChars _)]
  rw [Utf8.decode_ofChars, lexemes?_escaped]
  simp only [Option.bind_eq_bind, Option.bind_some, textLexemes, ofLexemes?_atoms]
  split
  . exact Or.inl rfl
  . exact Or.inr rfl

end Reading

section Running

variable {p : Program} {subject : Array Char} {pc next i k stop : Nat}

theorem accepts_char {c : Char} (hinst : p[pc]? = some (.one (.single c) next)) :
    Accepts p subject ⟨pc, i, k⟩ stop ↔ subject[i]? = some c ∧ Accepts p subject ⟨next, i + 1, k⟩ stop := by
  rw [accepts_one hinst, any_contains_single]

theorem assemble_text_cons (c : Char) (cs : List Char) (next : Nat) (p : Program) :
    assemble (text (c :: cs)) next p =
      ((assemble (text cs) next p).2.size,
        (assemble (text cs) next p).2.push (.one (.single c) (assemble (text cs) next p).1)) := by
  cases cs with
  | nil => rfl
  | cons d cs => rfl

theorem find?_text (cs : List Char) (subject : Array Char) :
    Locates cs subject.toList (find? (text cs) subject) := by
  rw [← row_map_char]
  exact locates_of_locatesRow (find?_row _ subject)

end Running

end Automaton

namespace Backtracking

section Reading

theorem lexeme?_special {c : Char} (h : c ∈ Pattern.specialChars) (groups : Nat) (rest : List Char) :
    lexeme? groups '\\' (c :: rest) = some (.atom (.char c), 1) := by
  rw [Automaton.mem_specialChars] at h
  obtain rfl | rfl | rfl | rfl | rfl | rfl | rfl | rfl | rfl | rfl | rfl | rfl | rfl | rfl | rfl := h
  all_goals rfl

theorem lexeme?_ordinary {c : Char} (h : c ∉ Pattern.specialChars) (groups : Nat) (rest : List Char) :
    lexeme? groups c rest = some (.atom (.char c), 0) := by
  simp only [Automaton.mem_specialChars, not_or] at h
  rw [lexeme?.eq_def]
  split
  all_goals first | rfl | simp at h

theorem lexemes?_escaped (groups : Nat) (cs : List Char) :
    lexemes? groups (cs.flatMap Pattern.escapeChar) = some (textLexemes cs) := by
  induction cs with
  | nil => simp [lexemes?, textLexemes]
  | cons c cs ih =>
    rw [List.flatMap_cons, Pattern.escapeChar]
    split
    . next h =>
      rw [List.cons_append, List.cons_append, lexemes?, lexeme?_special h]
      simp only [Option.bind_eq_bind, Option.bind_some, List.drop_succ_cons, List.drop_zero,
        List.nil_append, ih]
      rfl
    . next h =>
      rw [List.cons_append, lexemes?, lexeme?_ordinary h]
      simp only [Option.bind_eq_bind, Option.bind_some, List.drop_zero, List.nil_append, ih]
      rfl

theorem read?_escape (cs : List Char) : read? (Pattern.escape (Bytes.ofChars cs)) = some (text cs) := by
  rw [Pattern.escape_ofChars, read?]
  simp only [Utf8.decode_ofChars, lexemes?_escaped, Option.bind_eq_bind, Option.bind_some]
  exact ofLexemes?_atoms (cs.map .char)

end Reading

theorem find?_text (cs : List Char) (subject : Array Char) :
    Locates cs subject.toList (find? (text cs) subject) := by
  rw [← row_map_char]
  exact locates_of_locatesRow (find?_row _ subject)

end Backtracking

end VerboseExpr.Regex
