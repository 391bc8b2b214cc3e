import VerboseExpr.Proofs.Regex.Depth
import VerboseExpr.Proofs.Regex.Row

namespace VerboseExpr.Regex

open Pattern (specialChars escapeChar)

theorem exists_escapeChar (c : Char) (rest : List Char) :
    ∃ d more, escapeChar c ++ rest = d :: more ∧ d ∉ ['[', ']', '-', '^'] := by
  rw [escapeChar]
  split
  . exact ⟨_, _, rfl, by decide⟩
  . next h =>
    rw [Automaton.mem_specialChars] at h
    simp only [not_or] at h
    exact ⟨_, _, rfl, by simp [h]⟩

theorem head?_singles (cs : List Char) {d : Char} (hd : d ≠ '-') (k : List Char) :
    (cs.flatMap escapeChar ++ d :: k).head? ≠ some '-' := by
  cases cs with
  | nil => simpa using hd
  | cons c cs =>
    obtain ⟨e, more, heq, he⟩ := exists_escapeChar c (cs.flatMap escapeChar ++ d :: k)
    rw [List.flatMap_cons, List.append_assoc, heq]
    rintro ⟨⟩
    simp at he

namespace Automaton

section Classes

variable {lo hi : Char} {rest k : List Char}

theorem namedClass?_hyphen (name : List Char) : namedClass? ('-' :: name) = none := by
  rw [namedClass?.eq_def]
  split
  . next heq => simp at heq
  . rw [namedRanges?.eq_def]
    split
    case h_15 => rfl
    all_goals
      next heq =>
        have hname := congrArg String.toList heq
        simp at hname

theorem eq_of_classItem? {item : List (Char × Char)} {n : Nat}
    (h : classItem? '[' (escapeChar lo ++ '-' :: rest) = some (item, n)) : item = [('[', '[')] ∧ n = 0 := by
  -- what follows the bracket is no hyphen, so that the bracket begins no range
  have hitem : classRange? '[' (escapeChar lo ++ '-' :: rest) = some ([('[', '[')], 0) := by
    obtain ⟨d, more, heq, hd⟩ := exists_escapeChar lo ('-' :: rest)
    have hhead : (escapeChar lo ++ '-' :: rest).head? ≠ some '-' := by
      rw [heq]
      rintro ⟨⟩
      simp at hd
    exact @classRange?_single '[' '[' [] (escapeChar lo ++ '-' :: rest) rfl hhead
  rw [classItem?.eq_def] at h
  split at h
  . next c more _ hcolon =>
    split at h
    . next name hname =>
      have hmore : c :: more = '-' :: rest := by
        rw [escapeChar] at hcolon
        split at hcolon
        . simp at hcolon
        . exact (List.cons.inj hcolon).2.symm
      rw [hmore, nameBefore?] at hname
      . obtain ⟨base, -, rfl⟩ := Option.map_eq_some_iff.1 hname
        simp [namedClass?_hyphen] at h
      . simp
    . rw [hitem] at h
      simpa [eq_comm] using h
  . contradiction
  . rw [hitem] at h
    simpa [eq_comm] using h

theorem classItems?_singles (first : Bool) (cs : List Char) {d : Char} (hd : d ≠ '-') (k : List Char) :
    ∃ first', classItems? first (cs.flatMap escapeChar ++ d :: k) = (classItems? first' (d :: k)).map
      fun (items, n) => ((cs.map fun c => (c, c)) ++ items, (cs.flatMap escapeChar).length + n) := by
  induction cs generalizing first with
  | nil =>
    refine ⟨first, ?_⟩
    rw [List.flatMap_nil, List.nil_append]
    simp
  | cons c cs ih =>
    obtain ⟨e, more, heq, he, -, -, hread⟩ := classChar?_escapeChar c
    obtain ⟨hchar, hitem⟩ := hread (cs.flatMap escapeChar ++ d :: k)
    rw [classRange?_single hchar (head?_singles cs hd k)] at hitem
    obtain ⟨first', hrest⟩ := ih false
    refine ⟨first', ?_⟩
    rw [List.flatMap_cons, heq, List.append_assoc, List.cons_append, classItems?_cons he hitem, hrest, Option.map_map]
    congr 1
    funext ⟨items, n⟩
    simp
    omega

theorem length_of_class? {cs : List Char} {s : CharSet} {n : Nat} (hle : lo.toNat ≤ hi.toNat)
    (h : class? ('^' :: (cs.flatMap escapeChar ++ '[' :: (escapeChar lo ++ '-' :: (escapeChar hi ++ ']' :: k)))) =
      some (s, n)) :
    n = (cs.flatMap escapeChar).length + (escapeChar lo).length + (escapeChar hi).length + 4 := by
  obtain ⟨first, hsingles⟩ := classItems?_singles true cs (by decide : '[' ≠ '-')
    (escapeChar lo ++ '-' :: (escapeChar hi ++ ']' :: k))
  have hfirst : classItems? false (escapeChar lo ++ '-' :: (escapeChar hi ++ ']' :: k)) =
      classItems? true (escapeChar lo ++ '-' :: (escapeChar hi ++ ']' :: k)) := by
    obtain ⟨d, more, heq, hd⟩ := exists_escapeChar lo ('-' :: (escapeChar hi ++ ']' :: k))
    simp only [List.mem_cons, not_or] at hd
    rw [heq, classItems?, classItems?]
    simp [hd]
  rw [class?, hsingles, Option.map_map] at h
  obtain ⟨⟨items, m⟩, hitems, h⟩ := Option.map_eq_some_iff.1 h
  obtain ⟨-, rfl⟩ := Prod.mk.inj h
  rw [classItems?, if_neg (by simp)] at hitems
  obtain ⟨⟨item, n⟩, hitem, hitems⟩ := Option.bind_eq_some_iff.1 hitems
  obtain ⟨-, rfl⟩ := eq_of_classItem? hitem
  obtain ⟨⟨more, m'⟩, hmore, hitems⟩ := Option.bind_eq_some_iff.1 hitems
  obtain ⟨-, rfl⟩ := Prod.mk.inj (Option.some.inj hitems)
  rw [List.drop_zero, hfirst, classItems?_range k hle] at hmore
  obtain ⟨-, rfl⟩ := Prod.mk.inj (Option.some.inj hmore)
  omega

end Classes

end Automaton

namespace Backtracking

section Classes

variable {first : Bool} {c lo hi : Char} {rest k : List Char}

theorem escape?_special (h : c ∈ specialChars) (rest : List Char) : escape? (c :: rest) = some (c, 1) := by
  rw [Automaton.mem_specialChars] at h
  obtain rfl | rfl | rfl | rfl | rfl | rfl | rfl | rfl | rfl | rfl | rfl | rfl | rfl | rfl | rfl := h
  all_goals rfl

theorem classBody?_escapeChar (hc : c ≠ '-') (first : Bool) (pending : Option Char) (rest : List Char) :
    ∃ d more, escapeChar c = d :: more ∧ d ≠ '[' ∧ d ≠ '-' ∧
      classBody? first pending (d :: (more ++ rest)) = afterItem? first pending d c rest more.length := by
  rw [escapeChar]
  split
  . next h =>
    refine ⟨'\\', [c], rfl, by decide, by decide, ?_⟩
    have hhead : ¬(('\\' = '\\' && !(c :: rest).isEmpty && (c :: rest).head? = some '-') = true) := by simp [hc]
    rw [List.singleton_append, classBody?_cons, if_neg (by decide), if_neg hhead, List.head?_cons, Option.bind_some,
      letterClass?_escapable (.inl h), item?, escape?_special h]
    rfl
  . next h =>
    rw [Automaton.mem_specialChars] at h
    simp only [not_or] at h
    refine ⟨c, [], rfl, by simp [h], hc, ?_⟩
    rw [List.nil_append, classBody?_cons, if_neg (by simp [h]), item?]
    simp [h]

theorem classBody?_hyphen (first : Bool) (pending : Option Char) (rest : List Char) :
    classBody? first pending (escapeChar '-' ++ rest) =
      (classBody? false pending rest).map (·.after [('-', '-')] 2) := by
  have hescape : escapeChar '-' ++ rest = '\\' :: '-' :: rest := rfl
  rw [hescape, classBody?_cons]
  rfl

theorem classBody?_single (first : Bool) (c : Char) (hrest : rest.head? ≠ some '-') :
    classBody? first none (escapeChar c ++ rest) =
      (classBody? false none rest).map (·.after [(c, c)] (escapeChar c).length) := by
  by_cases hc : c = '-'
  . rw [hc, classBody?_hyphen]
    rfl
  . obtain ⟨d, more, heq, -, hd, hbody⟩ := classBody?_escapeChar hc first none rest
    rw [heq, List.cons_append, hbody, afterItem?, List.length_cons, Nat.add_comm more.length]
    simp [hrest, hd]

theorem classBody?_start (first : Bool) (hc : c ≠ '-') (hrest : rest.head?.any (· != ']')) :
    classBody? first none (escapeChar c ++ '-' :: rest) =
      (classBody? false (some c) rest).map (·.after [] ((escapeChar c).length + 1)) := by
  obtain ⟨d, more, heq, -, -, hbody⟩ := classBody?_escapeChar hc first none ('-' :: rest)
  have hsum : 2 + more.length = more.length + 1 + 1 := by omega
  rw [heq, List.cons_append, hbody, afterItem?, List.length_cons, hsum]
  simp [hrest]

theorem classBody?_close (first : Bool) (pending : Option Char) (k : List Char) :
    classBody? first pending (']' :: k) = some ⟨[], none, 1⟩ := by
  rw [classBody?_cons]
  rfl

theorem used_of_pending {b : ClassBody} (h : classBody? false (some lo) (escapeChar hi ++ ']' :: k) = some b) :
    b.used = (escapeChar hi).length + 1 := by
  by_cases hhi : hi = '-'
  . rw [hhi, classBody?_hyphen, classBody?_close] at h
    obtain rfl := Option.some.inj h
    rw [hhi]
    rfl
  . obtain ⟨d, more, heq, hd, -, hbody⟩ := classBody?_escapeChar hhi false (some lo) (']' :: k)
    rw [heq, List.cons_append, hbody, afterItem?] at h
    simp only [hd, decide_false, Bool.false_and, Bool.false_eq_true, if_false, classBody?_close, Option.map_some] at h
    split at h
    . simp at h
    . obtain rfl := Option.some.inj h
      rw [heq, List.length_cons, used_after, Nat.add_comm 1]

theorem classBody?_singles (first : Bool) (cs : List Char) {d : Char} (hd : d ≠ '-') (k : List Char) :
    ∃ first', classBody? first none (cs.flatMap escapeChar ++ d :: k) = (classBody? first' none (d :: k)).map
      (·.after (cs.map fun c => (c, c)) (cs.flatMap escapeChar).length) := by
  induction cs generalizing first with
  | nil =>
    refine ⟨first, ?_⟩
    rw [List.flatMap_nil, List.nil_append]
    cases classBody? first none (d :: k) with
    | none => rfl
    | some b => simp [ClassBody.after]
  | cons c cs ih =>
    obtain ⟨first', hrest⟩ := ih false
    refine ⟨first', ?_⟩
    rw [List.flatMap_cons, List.append_assoc, classBody?_single first c (head?_singles cs hd k), hrest, Option.map_map]
    congr 1
    funext b
    simp [ClassBody.after, Nat.add_assoc]

theorem classBody?_bracket (first : Bool) (lo : Char) (rest : List Char) :
    classBody? first none ('[' :: (escapeChar lo ++ '-' :: rest)) =
      (classBody? false none (escapeChar lo ++ '-' :: rest)).map (·.after [('[', '[')] 1) := by
  obtain ⟨d, more, heq, hd⟩ := exists_escapeChar lo ('-' :: rest)
  have hhyphen : d ≠ '-' := by
    rintro rfl
    simp at hd
  have hname : skippedName? (escapeChar lo ++ '-' :: rest) = none := by
    by_cases hlo : lo = ':'
    . have hword : isWordChar '-' = false := by decide
      have hescape : escapeChar ':' ++ '-' :: rest = ':' :: '-' :: rest := rfl
      rw [hlo, hescape, skippedName?]
      simp [hword]
    . rw [skippedName?.eq_def]
      split
      . next more' hcolon =>
        rw [escapeChar] at hcolon
        split at hcolon
        . simp at hcolon
        . simp [hlo] at hcolon
      . rfl
  rw [classBody?_cons, item?, hname, heq]
  simp [afterItem?, hhyphen]

theorem classBody?_rawHyphen {d : Char} (hhyphen : d ≠ '-') (hbracket : d ≠ '[') (rest : List Char) :
    classBody? false none ('-' :: d :: rest) = (classBody? false none (d :: rest)).map (·.after [('-', '-')] 1) := by
  rw [classBody?_cons, item?]
  simp [afterItem?, hhyphen, hbracket]

theorem used_of_range {b : ClassBody}
    (h : classBody? first none (escapeChar lo ++ '-' :: (escapeChar hi ++ ']' :: k)) = some b) :
    b.used = (escapeChar lo).length + (escapeChar hi).length + 2 := by
  obtain ⟨d, more, heq, hd⟩ := exists_escapeChar hi (']' :: k)
  simp only [List.mem_cons, List.not_mem_nil, or_false, not_or] at hd
  by_cases hlo : lo = '-'
  . rw [hlo, classBody?_hyphen, heq, classBody?_rawHyphen hd.2.2.1 hd.1, ← heq,
      classBody?_single false hi (by simp), classBody?_close] at h
    obtain rfl := Option.some.inj h
    have htwo : (escapeChar '-').length = 2 := rfl
    simp only [hlo, used_after, htwo]
    omega
  . rw [classBody?_start first hlo (by simpa [heq] using hd.2.1)] at h
    obtain ⟨b, hb, rfl⟩ := Option.map_eq_some_iff.1 h
    rw [used_after, used_of_pending hb]
    omega

theorem class?_except (cs k : List Char) :
    class? ('^' :: (cs.flatMap escapeChar ++ ']' :: k)) =
      some (.allBut cs, (cs.flatMap escapeChar).length + 2) := by
  obtain ⟨first, hbody⟩ := classBody?_singles true cs (by decide : ']' ≠ '-') k
  have hnegation : negation ('^' :: (cs.flatMap escapeChar ++ ']' :: k)) = 1 := rfl
  rw [class?, hnegation, List.drop_succ_cons, List.drop_zero, hbody, classBody?_close]
  simp [ClassBody.after, ClassBody.toSet, CharSet.allBut]
  omega

theorem length_of_class? {cs : List Char} {s : CharSet} {n : Nat}
    (h : class? ('^' :: (cs.flatMap escapeChar ++ '[' :: (escapeChar lo ++ '-' :: (escapeChar hi ++ ']' :: k)))) =
      some (s, n)) :
    n = (cs.flatMap escapeChar).length + (escapeChar lo).length + (escapeChar hi).length + 4 := by
  generalize htext : cs.flatMap escapeChar ++ '[' :: (escapeChar lo ++ '-' :: (escapeChar hi ++ ']' :: k)) = text at h
  have hnegation : negation ('^' :: text) = 1 := rfl
  rw [class?, hnegation, List.drop_succ_cons, List.drop_zero] at h
  obtain ⟨b, hb, heq⟩ := Option.map_eq_some_iff.1 h
  obtain ⟨-, rfl⟩ := Prod.mk.inj heq
  obtain ⟨first, hbody⟩ := classBody?_singles true cs (by decide : '[' ≠ '-')
    (escapeChar lo ++ '-' :: (escapeChar hi ++ ']' :: k))
  rw [← htext, hbody, classBody?_bracket, Option.map_map] at hb
  obtain ⟨b', hb', rfl⟩ := Option.map_eq_some_iff.1 hb
  simp only [Function.comp_apply, used_after, used_of_range hb']
  omega

end Classes

end Backtracking

/-- What may be left out: one character, or all from one to another. -/
inductive Operand where
  | char (c : Char)
  | range (lo hi : Char) (ordered : lo.toNat ≤ hi.toNat)

namespace Operand

def isChar : Operand → Bool
  | char _ => true
  | range .. => false

def contains : Operand → Char → Bool
  | char c, x => x == c
  | range lo hi _, x => lo.toNat ≤ x.toNat && x.toNat ≤ hi.toNat

def text : Operand → List Char
  | char c => escapeChar c
  | range lo hi _ => '[' :: (escapeChar lo ++ '-' :: (escapeChar hi ++ [']']))

theorem exists_chars {os : List Operand} (h : ∀ o ∈ os, o.isChar) : ∃ cs : List Char, os = cs.map char := by
  induction os with
  | nil => exact ⟨[], rfl⟩
  | cons o os ih =>
    rw [List.forall_mem_cons] at h
    obtain ⟨cs, rfl⟩ := ih h.2
    cases o with
    | char c => exact ⟨c :: cs, rfl⟩
    | range => simp [isChar] at h

theorem exists_range {os : List Operand} (h : ¬∀ o ∈ os, o.isChar) :
    ∃ (cs : List Char) (lo hi : Char) (ordered : _) (rest : _), os = cs.map char ++ range lo hi ordered :: rest := by
  induction os with
  | nil => simp at h
  | cons o os ih =>
    cases o with
    | range lo hi ordered => exact ⟨[], lo, hi, ordered, os, rfl⟩
    | char c =>
      rw [List.forall_mem_cons] at h
      obtain ⟨cs, lo, hi, ordered, rest, rfl⟩ := ih fun hos => h ⟨rfl, hos⟩
      exact ⟨c :: cs, lo, hi, ordered, rest, rfl⟩

theorem flatMap_text (cs : List Char) : (cs.map char).flatMap text = cs.flatMap escapeChar := by
  rw [List.flatMap_map]
  rfl

end Operand

def exception (os : List Operand) : List Char := '[' :: '^' :: (os.flatMap Operand.text ++ [']'])

theorem drop_range (lo hi : Char) (k : List Char) :
    (escapeChar lo ++ '-' :: (escapeChar hi ++ ']' :: k)).drop ((escapeChar lo).length + (escapeChar hi).length + 2) =
      k := by
  have htext : escapeChar lo ++ '-' :: (escapeChar hi ++ ']' :: k) =
      (escapeChar lo ++ '-' :: (escapeChar hi ++ [']'])) ++ k := by simp
  rw [htext, List.drop_left']
  simp only [List.length_append, List.length_cons, List.length_nil]
  omega

theorem drop_exception (cs : List Char) (lo hi : Char) (k : List Char) :
    ('^' :: (cs.flatMap escapeChar ++ '[' :: (escapeChar lo ++ '-' :: (escapeChar hi ++ ']' :: k)))).drop
      ((cs.flatMap escapeChar).length + (escapeChar lo).length + (escapeChar hi).length + 4) = k := by
  have hsum : (cs.flatMap escapeChar).length + (escapeChar lo).length + (escapeChar hi).length + 4 =
      (cs.flatMap escapeChar).length + ((escapeChar lo).length + (escapeChar hi).length + 2 + 1) + 1 := by omega
  rw [hsum, List.drop_succ_cons, List.drop_length_add_append, List.drop_succ_cons, drop_range]

theorem drop_chars (cs : List Char) :
    ('^' :: (cs.flatMap escapeChar ++ [']'])).drop ((cs.flatMap escapeChar).length + 2) = [] := by
  apply List.drop_eq_nil_of_le
  simp only [List.length_cons, List.length_append, List.length_nil]
  omega

/-- The lexemes are a row of the given length. -/
def IsRow (ls : List Lexeme) (n : Nat) : Prop :=
  ∃ cells : List Cell, ls = (cells.map Cell.regex).map .atom ∧ cells.length = n

theorem IsRow.cons {ls : List Lexeme} {n : Nat} (h : IsRow ls n) (x : Cell) : IsRow (.atom x.regex :: ls) (n + 1) := by
  obtain ⟨cells, rfl, rfl⟩ := h
  exact ⟨x :: cells, rfl, rfl⟩

theorem IsRow.ofLexemes? {ls : List Lexeme} {n : Nat} {r : Regex} (h : IsRow ls n)
    (hr : Regex.ofLexemes? ls = some r) : ∃ cells, r = row cells ∧ cells.length = n := by
  obtain ⟨cells, rfl, hlength⟩ := h
  rw [ofLexemes?_atoms, Option.some.injEq] at hr
  exact ⟨cells, hr.symm, hlength⟩

structure Dialect.ReadsClasses (d : Dialect) : Prop where
  backslash? : ∀ {c : Char}, c ∈ specialChars → ∀ rest, d.backslash? (c :: rest) = some (.atom (.char c), 1)
  range : ∀ {lo hi : Char} {k : List Char} {s : CharSet} {n : Nat}, lo.toNat ≤ hi.toNat →
    d.class? (escapeChar lo ++ '-' :: (escapeChar hi ++ ']' :: k)) = some (s, n) →
    n = (escapeChar lo).length + (escapeChar hi).length + 2
  exceptRange : ∀ {cs k : List Char} {lo hi : Char} {s : CharSet} {n : Nat}, lo.toNat ≤ hi.toNat →
    d.class? ('^' :: (cs.flatMap escapeChar ++ '[' :: (escapeChar lo ++ '-' :: (escapeChar hi ++ ']' :: k)))) =
      some (s, n) →
    n = (cs.flatMap escapeChar).length + (escapeChar lo).length + (escapeChar hi).length + 4

namespace Dialect

variable {d : Dialect} {c : Char} {rest : List Char} {ls : List Lexeme}

theorem lexeme?_ordinary (h : c ∉ specialChars) (rest : List Char) :
    d.lexeme? c rest = some (.atom (.char c), 0) := by
  simp only [Automaton.mem_specialChars, not_or] at h
  rw [Dialect.lexeme?.eq_def]
  split
  case h_13 => rfl
  all_goals simp at h

theorem Lexes.of_lexeme? {l : Lexeme} {n : Nat} (h : d.Lexes (c :: rest) ls) (hl : d.lexeme? c rest = some (l, n)) :
    ∃ more, ls = l :: more ∧ d.Lexes (rest.drop n) more := by
  cases h with
  | cons hl' hrest =>
    rw [hl, Option.some.injEq, Prod.mk.injEq] at hl'
    obtain ⟨rfl, rfl⟩ := hl'
    exact ⟨_, rfl, hrest⟩

theorem Lexes.of_openSquare (h : d.Lexes ('[' :: rest) ls) :
    ∃ s n more, d.class? rest = some (s, n) ∧ ls = .atom (.set s) :: more ∧ d.Lexes (rest.drop n) more := by
  cases h with
  | cons hl hrest =>
    obtain ⟨⟨s, n⟩, hclass, hl⟩ := Option.map_eq_some_iff.1 hl
    obtain ⟨rfl, rfl⟩ := Prod.mk.inj hl
    exact ⟨s, n, _, hclass, rfl, hrest⟩

namespace ReadsClasses

theorem isRow_char (hd : d.ReadsClasses) {n : Nat} (hrest : ∀ {ls}, d.Lexes rest ls → IsRow ls n)
    (h : d.Lexes (escapeChar c ++ rest) ls) : IsRow ls (n + 1) := by
  rw [escapeChar] at h
  split at h
  . next hc =>
    obtain ⟨more, rfl, hmore⟩ := h.of_lexeme? (hd.backslash? hc rest)
    exact (hrest hmore).cons (.char c)
  . next hc =>
    obtain ⟨more, rfl, hmore⟩ := h.of_lexeme? (lexeme?_ordinary hc rest)
    exact (hrest hmore).cons (.char c)

theorem isRow_operands (hd : d.ReadsClasses) {os : List Operand} (h : d.Lexes (os.flatMap Operand.text ++ [']']) ls) :
    IsRow ls (os.length + 1) := by
  induction os generalizing ls with
  | nil =>
    obtain ⟨more, rfl, hmore⟩ := h.of_lexeme? rfl
    cases hmore
    exact ⟨[.char ']'], rfl, rfl⟩
  | cons o os ih =>
    rw [List.flatMap_cons, List.append_assoc] at h
    cases o with
    | char c => exact hd.isRow_char ih h
    | range lo hi ordered =>
      simp only [Operand.text, List.cons_append, List.append_assoc, List.nil_append] at h
      obtain ⟨s, n, more, hclass, rfl, hmore⟩ := h.of_openSquare
      obtain rfl := hd.range ordered hclass
      rw [drop_range] at hmore
      exact (ih hmore).cons (.set s)

/-- A range ends the class that it stands in, and the bracket that should have ended it is a character. -/
theorem isRow_exception (hd : d.ReadsClasses) {os : List Operand} (hos : ¬∀ o ∈ os, o.isChar)
    (h : d.Lexes (exception os) ls) : ∃ n, 2 ≤ n ∧ IsRow ls n := by
  obtain ⟨cs, lo, hi, ordered, rest, rfl⟩ := Operand.exists_range hos
  rw [exception, List.flatMap_append, List.flatMap_cons, Operand.flatMap_text] at h
  simp only [Operand.text, List.cons_append, List.append_assoc, List.nil_append] at h
  obtain ⟨s, n, more, hclass, rfl, hmore⟩ := h.of_openSquare
  obtain rfl := hd.exceptRange ordered hclass
  rw [drop_exception] at hmore
  exact ⟨rest.length + 2, Nat.le_add_left 2 _, (hd.isRow_operands hmore).cons (.set s)⟩

end ReadsClasses

end Dialect

namespace Automaton

theorem readsClasses : dialect.ReadsClasses where
  backslash? := lexeme?_special
  range := by
    intro lo hi k s n hle hclass
    have hlexeme := lexeme?_range k hle
    obtain ⟨⟨s', n'⟩, hclass', heq⟩ := Option.map_eq_some_iff.1 hlexeme
    obtain ⟨-, rfl⟩ := Prod.mk.inj heq
    exact congrArg Prod.snd (Option.some.inj (hclass.symm.trans hclass'))
  exceptRange := length_of_class?

theorem read?_exception {cs : List Char} (hcs : cs ≠ []) :
    read? (Bytes.ofChars (exception (cs.map .char))) = some (row [.set (.allBut cs)]) ∨
      read? (Bytes.ofChars (exception (cs.map .char))) = none := by
  have hlexemes : lexemes? (exception (cs.map .char)) = some ([Regex.set (.allBut cs)].map .atom) := by
    rw [exception, Operand.flatMap_text, lexemes?, lexeme?_except [] hcs]
    simp only [Option.bind_eq_bind, Option.bind_some, drop_chars]
    rw [lexemes?]
    rfl
  rw [read?, patternLexemes?, if_pos (Utf8.isValid_ofChars _), Utf8.decode_ofChars, hlexemes]
  simp only [Option.bind_eq_bind, Option.bind_some, ofLexemes?_atoms]
  split
  . exact .inl rfl
  . exact .inr rfl

theorem row_of_read? {os : List Operand} {r : Regex} (hos : ¬∀ o ∈ os, o.isChar)
    (h : read? (Bytes.ofChars (exception os)) = some r) : ∃ cells, r = row cells ∧ 2 ≤ cells.length := by
  obtain ⟨ls, hls, h⟩ := Option.bind_eq_some_iff.1 h
  obtain ⟨s, hs, h⟩ := Option.bind_eq_some_iff.1 h
  rw [patternLexemes?, if_pos (Utf8.isValid_ofChars _), Utf8.decode_ofChars] at hls
  obtain ⟨n, hn, hrow⟩ := readsClasses.isRow_exception hos (lexes_of_lexemes? hls)
  obtain ⟨cells, rfl, hlength⟩ := IsRow.ofLexemes? hrow hs
  split at h
  . exact ⟨cells, (Option.some.inj h).symm, by omega⟩
  . simp at h

end Automaton

namespace Backtracking

theorem readsClasses (groups : Nat) : (dialect groups).ReadsClasses where
  backslash? := fun h => lexeme?_special h groups
  range := by
    intro lo hi k s n _ hclass
    obtain ⟨d, more, heq, hd⟩ := exists_escapeChar lo ('-' :: (escapeChar hi ++ ']' :: k))
    simp only [List.mem_cons, List.not_mem_nil, or_false, not_or] at hd
    have hnegation : negation (escapeChar lo ++ '-' :: (escapeChar hi ++ ']' :: k)) = 0 := by
      rw [heq, negation, List.head?_cons, if_neg (by simpa using hd.2.2.2)]
    obtain ⟨b, hb, heq'⟩ := Option.map_eq_some_iff.1 hclass
    obtain ⟨-, rfl⟩ := Prod.mk.inj heq'
    rw [hnegation] at hb ⊢
    rw [used_of_range hb, Nat.zero_add]
  exceptRange := fun _ => length_of_class?

theorem read?_exception (cs : List Char) :
    read? (Bytes.ofChars (exception (cs.map .char))) = some (row [.set (.allBut cs)]) := by
  have hlexemes : ∀ groups, lexemes? groups (exception (cs.map .char)) =
      some ([Regex.set (.allBut cs)].map .atom) := by
    intro groups
    rw [exception, Operand.flatMap_text, lexemes?, lexeme?, class?_except]
    simp only [Option.bind_eq_bind, Option.bind_some, Option.map_some, drop_chars]
    rw [lexemes?]
    rfl
  rw [read?, Utf8.decode_ofChars]
  simp only [hlexemes, Option.bind_eq_bind, Option.bind_some, ofLexemes?_atoms]
  rfl

theorem row_of_read? {os : List Operand} {r : Regex} (hos : ¬∀ o ∈ os, o.isChar)
    (h : read? (Bytes.ofChars (exception os)) = some r) : ∃ cells, r = row cells ∧ 2 ≤ cells.length := by
  obtain ⟨first, -, h⟩ := Option.bind_eq_some_iff.1 h
  obtain ⟨ls, hls, hr⟩ := Option.bind_eq_some_iff.1 h
  rw [Utf8.decode_ofChars] at hls
  obtain ⟨n, hn, hrow⟩ := (readsClasses _).isRow_exception hos (lexes_of_lexemes? hls)
  obtain ⟨cells, rfl, hlength⟩ := IsRow.ofLexemes? hrow hr
  exact ⟨cells, rfl, by omega⟩

end Backtracking

end VerboseExpr.Regex
