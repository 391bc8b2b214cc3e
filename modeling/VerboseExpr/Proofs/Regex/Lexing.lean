import VerboseExpr.Proofs.Pattern.Escape
import VerboseExpr.Regex.Automaton.Syntax

namespace VerboseExpr.Regex.Automaton

open Pattern (specialChars escapeChar)

section Characters

theorem mem_specialChars (c : Char) :
    c ∈ specialChars ↔ c = '^' ∨ c = '$' ∨ c = '.' ∨ c = '[' ∨ c = ']' ∨ c = '-' ∨ c = '?' ∨ c = '+' ∨
      c = '*' ∨ c = '(' ∨ c = ')' ∨ c = '\x7b' ∨ c = '\x7d' ∨ c = '|' ∨ c = '\\' := by
  simp only [specialChars, List.mem_cons, List.not_mem_nil, or_false]

theorem not_mem_specialChars_digit {c : Char} (hc : c.isDigit) : c ∉ specialChars := by
  intro h
  rw [mem_specialChars] at h
  obtain rfl | rfl | rfl | rfl | rfl | rfl | rfl | rfl | rfl | rfl | rfl | rfl | rfl | rfl | rfl := h
  all_goals exact absurd hc (by decide)

theorem escape?_special {c : Char} (h : c ∈ specialChars) (rest : List Char) :
    escape? (c :: rest) = some (c, 1) := by
  rw [mem_specialChars] at h
  obtain rfl | rfl | rfl | rfl | rfl | rfl | rfl | rfl | rfl | rfl | rfl | rfl | rfl | rfl | rfl := h
  all_goals rfl

theorem letterClass?_special {c : Char} (h : c ∈ specialChars) : letterClass? c = none := by
  rw [mem_specialChars] at h
  obtain rfl | rfl | rfl | rfl | rfl | rfl | rfl | rfl | rfl | rfl | rfl | rfl | rfl | rfl | rfl := h
  all_goals rfl

theorem lexeme?_special {c : Char} (h : c ∈ specialChars) (rest : List Char) :
    lexeme? '\\' (c :: rest) = some (.atom (.char c), 1) := by
  rw [mem_specialChars] at h
  obtain rfl | rfl | rfl | rfl | rfl | rfl | rfl | rfl | rfl | rfl | rfl | rfl | rfl | rfl | rfl := h
  all_goals rfl

theorem lexeme?_ordinary {c : Char} (h : c ∉ specialChars) (rest : List Char) :
    lexeme? c rest = some (.atom (.char c), 0) := by
  simp only [mem_specialChars, not_or] at h
  rw [lexeme?.eq_def]
  split
  all_goals first | rfl | simp at h

theorem lexeme?_escapeChar (c : Char) :
    ∃ d more, escapeChar c = d :: more ∧ d ≠ '?' ∧
      ∀ k, lexeme? d (more ++ k) = some (.atom (.char c), more.length) := by
  rw [escapeChar]
  split
  . next h => exact ⟨'\\', [c], rfl, by decide, lexeme?_special h⟩
  . next h =>
    refine ⟨c, [], rfl, ?_, lexeme?_ordinary h⟩
    intro heq
    rw [heq] at h
    exact h (by decide)

end Characters

section Classes

theorem classChar?_escapeChar (c : Char) :
    ∃ d more, escapeChar c = d :: more ∧ d ≠ ']' ∧ d ≠ '-' ∧ d ≠ '^' ∧
      ∀ k, classChar? d (more ++ k) = some (c, more.length) ∧
        classItem? d (more ++ k) = classRange? d (more ++ k) := by
  rw [escapeChar]
  -- the special characters get a backslash, and among the others is none that means something in a class
  split
  . next h =>
    refine ⟨'\\', [c], rfl, by decide, by decide, by decide, ?_⟩
    intro k
    constructor
    . exact escape?_special h k
    . rw [List.cons_append, List.nil_append, classItem?]
      simp only [letterClass?_special h]
  . next h =>
    simp only [mem_specialChars, not_or] at h
    refine ⟨c, [], rfl, ?_, ?_, ?_, ?_⟩
    . simp [h]
    . simp [h]
    . simp [h]
    . intro k
      constructor
      . rw [classChar?, if_neg (by simp [h])]
        rfl
      . rw [classItem?.eq_def]
        split
        . simp at h
        . simp at h
        . rfl

theorem classRange?_single {c d : Char} {more rest : List Char}
    (hchar : classChar? d (more ++ rest) = some (c, more.length)) (hrest : rest.head? ≠ some '-') :
    classRange? d (more ++ rest) = some ([(c, c)], more.length) := by
  rw [classRange?, hchar]
  simp only [Option.bind_eq_bind, Option.bind_some, List.drop_left]
  split
  . simp at hrest
  . rfl

theorem classRange?_range {lo hi d e : Char} {more rest : List Char} {n : Nat}
    (hlo : classChar? d (more ++ '-' :: e :: rest) = some (lo, more.length))
    (hhi : classChar? e rest = some (hi, n)) (he : e ≠ ']') (hle : lo.toNat ≤ hi.toNat) :
    classRange? d (more ++ '-' :: e :: rest) = some ([(lo, hi)], more.length + 2 + n) := by
  have hnot : ¬hi.toNat < lo.toNat := by omega
  rw [classRange?, hlo]
  simp only [Option.bind_eq_bind, Option.bind_some, List.drop_left, he, hhi, hnot, if_false]
  rfl

theorem head?_escaped (cs : List Char) (k : List Char) :
    (cs.flatMap escapeChar ++ ']' :: k).head? ≠ some '-' := by
  cases cs with
  | nil => simp
  | cons c cs =>
    obtain ⟨d, more, heq, -, hd, -, -⟩ := classChar?_escapeChar c
    rw [List.flatMap_cons, heq]
    simpa using hd

theorem classItems?_cons {first : Bool} {d : Char} {more rest : List Char} {item : List (Char × Char)}
    (hd : d ≠ ']') (hitem : classItem? d (more ++ rest) = some (item, more.length)) :
    classItems? first (d :: (more ++ rest)) =
      (classItems? false rest).map fun (items, n) => (item ++ items, more.length + 1 + n) := by
  rw [classItems?, hitem]
  simp only [hd, decide_false, Bool.false_and, Option.bind_eq_bind, Option.bind_some, List.drop_left]
  cases classItems? false rest with
  | none => rfl
  | some p => rfl

theorem classItems?_escaped {first : Bool} {cs : List Char} (k : List Char) (h : first → cs ≠ []) :
    classItems? first (cs.flatMap escapeChar ++ ']' :: k) =
      some (cs.map fun c => (c, c), (cs.flatMap escapeChar).length + 1) := by
  induction cs generalizing first with
  | nil =>
    have hfirst : first = false := by simpa using h
    rw [hfirst, List.flatMap_nil, List.nil_append, classItems?]
    rfl
  | cons c cs ih =>
    obtain ⟨d, more, heq, hd, -, -, hread⟩ := classChar?_escapeChar c
    obtain ⟨hchar, hitem⟩ := hread (cs.flatMap escapeChar ++ ']' :: k)
    rw [classRange?_single hchar (head?_escaped cs k)] at hitem
    rw [List.flatMap_cons, heq, List.append_assoc, List.cons_append]
    rw [classItems?_cons hd hitem, ih (by simp)]
    simp only [Option.map_some, List.map_cons, List.cons_append, List.nil_append, List.length_cons,
      List.length_append]
    congr 2
    omega

theorem classItems?_range {lo hi : Char} (k : List Char) (h : lo.toNat ≤ hi.toNat) :
    classItems? true (escapeChar lo ++ '-' :: (escapeChar hi ++ ']' :: k)) =
      some ([(lo, hi)], (escapeChar lo).length + (escapeChar hi).length + 2) := by
  obtain ⟨d, more, hlo, hd, -, -, hread⟩ := classChar?_escapeChar lo
  obtain ⟨e, more', hhi, he, -, -, hread'⟩ := classChar?_escapeChar hi
  obtain ⟨hchar, hitem⟩ := hread ('-' :: e :: (more' ++ ']' :: k))
  rw [classRange?_range hchar (hread' _).1 he h] at hitem
  have hitem' : classItem? d ((more ++ '-' :: e :: more') ++ ']' :: k) =
      some ([(lo, hi)], (more ++ '-' :: e :: more').length) := by
    have hlength : (more ++ '-' :: e :: more').length = more.length + 2 + more'.length := by
      simp only [List.length_append, List.length_cons]
      omega
    rw [hlength, List.append_assoc]
    exact hitem
  have htext : escapeChar lo ++ '-' :: (escapeChar hi ++ ']' :: k) =
      d :: ((more ++ '-' :: e :: more') ++ ']' :: k) := by
    rw [hlo, hhi]
    simp
  rw [htext, classItems?_cons hd hitem', classItems?, hlo, hhi]
  simp
  omega

theorem lexeme?_except {cs : List Char} (k : List Char) (h : cs ≠ []) :
    lexeme? '[' ('^' :: (cs.flatMap escapeChar ++ ']' :: k)) =
      some (.atom (.set (.allBut cs)), (cs.flatMap escapeChar).length + 2) := by
  have hclass : class? ('^' :: (cs.flatMap escapeChar ++ ']' :: k)) =
      some (.allBut cs, (cs.flatMap escapeChar).length + 2) := by
    rw [class?, classItems?_escaped k fun _ => h]
    rfl
  show (class? _).map _ = _
  rw [hclass]
  rfl

theorem lexeme?_range {lo hi : Char} (k : List Char) (h : lo.toNat ≤ hi.toNat) :
    lexeme? '[' (escapeChar lo ++ '-' :: (escapeChar hi ++ ']' :: k)) =
      some (.atom (.set (.ranges false [(lo, hi)])),
        (escapeChar lo).length + (escapeChar hi).length + 2) := by
  have hclass : class? (escapeChar lo ++ '-' :: (escapeChar hi ++ ']' :: k)) =
      some (.ranges false [(lo, hi)], (escapeChar lo).length + (escapeChar hi).length + 2) := by
    rw [class?.eq_def]
    split
    . next body heq =>
      obtain ⟨d, more, hlo, -, -, hd, -⟩ := classChar?_escapeChar lo
      rw [hlo, List.cons_append, List.cons.injEq] at heq
      exact absurd heq.1 hd
    . rw [classItems?_range k h]
      rfl
  show (class? _).map _ = _
  rw [hclass]
  rfl

end Classes

section Counts

/-- Some digits that are a number of a count. -/
structure Digits (ds : List Char) : Prop where
  ne_nil : ds ≠ []
  isDigit : ∀ d ∈ ds, d.isDigit
  canonical : ds.head? = some '0' → ds.length = 1

theorem Digits.number?_append {ds : List Char} (h : Digits ds) {c : Char} (hc : c.isDigit = false)
    (k : List Char) : number? (ds ++ c :: k) = some (decimal ds, ds.length) := by
  have htake : (ds ++ c :: k).takeWhile Char.isDigit = ds := by
    rw [List.takeWhile_append_of_pos h.isDigit, List.takeWhile_cons, hc]
    simp
  rw [number?.eq_def, htake]
  split
  . exact absurd rfl h.ne_nil
  . have := h.canonical rfl
    simp at this
  . rfl

theorem Digits.count?_exactly {ds : List Char} (h : Digits ds) (k : List Char) :
    count? (ds ++ '\x7d' :: k) = some (decimal ds, some (decimal ds), ds.length + 1) := by
  rw [count?, h.number?_append (by decide)]
  simp only [Option.bind_eq_bind, Option.bind_some, List.drop_left]
  rfl

theorem Digits.count?_atLeast {ds : List Char} (h : Digits ds) (k : List Char) :
    count? (ds ++ ',' :: '\x7d' :: k) = some (decimal ds, none, ds.length + 2) := by
  rw [count?, h.number?_append (by decide)]
  simp only [Option.bind_eq_bind, Option.bind_some, List.drop_left]
  rfl

theorem Digits.count?_between {ds es : List Char} (h : Digits ds) (h' : Digits es) (k : List Char) :
    count? (ds ++ ',' :: (es ++ '\x7d' :: k)) =
      some (decimal ds, some (decimal es), ds.length + es.length + 2) := by
  rw [count?, h.number?_append (by decide)]
  simp only [Option.bind_eq_bind, Option.bind_some, List.drop_left]
  split
  . next heq => simp at heq
  . next heq =>
    obtain ⟨e, es, rfl⟩ := List.exists_cons_of_ne_nil h'.ne_nil
    have hdigit := h'.isDigit e List.mem_cons_self
    simp only [List.cons_append, List.cons.injEq, true_and] at heq
    rw [heq.1] at hdigit
    simp at hdigit
  . next more _ heq =>
    rw [List.cons.injEq] at heq
    rw [← heq.2, h'.number?_append (by decide)]
    simp only [Option.bind_some, List.drop_left]
    rfl
  . next hnot => exact absurd rfl (hnot _)

end Counts

section Quantifiers

/-- The characters are a quantifier: it is read unless its count is not allowed. -/
def Quantifies (q : Char) (more : List Char) (min : Nat) (max : Option Nat) : Prop :=
  ∀ k, k.head? ≠ some '?' → lexeme? q (more ++ k) =
    if countAllowed min max then some (.quantifier min max true, more.length) else none

theorem greedy_of_head? {k : List Char} (hk : k.head? ≠ some '?') : greedy k = (true, 0) := by
  rw [greedy.eq_def]
  split
  . simp at hk
  . rfl

theorem quantifier_append (min : Nat) (max : Option Nat) (more : List Char) {k : List Char}
    (hk : k.head? ≠ some '?') :
    quantifier min max more.length (more ++ k) = (.quantifier min max true, more.length) := by
  rw [quantifier, List.drop_left, greedy_of_head? hk]
  rfl

theorem quantifies_sign {q : Char} {min : Nat} {max : Option Nat}
    (h : ∀ k, lexeme? q k = some (quantifier min max 0 k)) (hallowed : countAllowed min max) :
    Quantifies q [] min max := by
  intro k hk
  have hread := quantifier_append min max [] hk
  rw [List.nil_append, List.length_nil] at hread
  rw [List.nil_append, h k, hread, if_pos hallowed]
  rfl

theorem quantifies_of_count? {more : List Char} {min : Nat} {max : Option Nat}
    (h : ∀ k, count? (more ++ k) = some (min, max, more.length)) : Quantifies '\x7b' more min max := by
  intro k hk
  rw [lexeme?, h k]
  dsimp only
  rw [quantifier_append _ _ _ hk]

theorem Digits.quantifies_exactly {ds : List Char} (h : Digits ds) :
    Quantifies '\x7b' (ds ++ ['\x7d']) (decimal ds) (some (decimal ds)) := by
  apply quantifies_of_count?
  intro k
  rw [List.append_assoc, List.length_append]
  exact h.count?_exactly k

theorem Digits.quantifies_atLeast {ds : List Char} (h : Digits ds) :
    Quantifies '\x7b' (ds ++ [',', '\x7d']) (decimal ds) none := by
  apply quantifies_of_count?
  intro k
  rw [List.append_assoc, List.length_append]
  exact h.count?_atLeast k

theorem Digits.quantifies_between {ds es : List Char} (h : Digits ds) (h' : Digits es) :
    Quantifies '\x7b' (ds ++ ',' :: (es ++ ['\x7d'])) (decimal ds) (some (decimal es)) := by
  apply quantifies_of_count?
  intro k
  have hread := h.count?_between h' k
  have hlength : (ds ++ ',' :: (es ++ ['\x7d'])).length = ds.length + es.length + 2 := by
    simp only [List.length_append, List.length_cons, List.length_nil]
    omega
  rw [hlength]
  simpa using hread

end Quantifiers

end VerboseExpr.Regex.Automaton
