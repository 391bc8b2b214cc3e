import VerboseExpr.Proofs.Regex.Limits
import VerboseExpr.Proofs.Regex.Referring

namespace VerboseExpr.Regex

inductive Counts (α : Type) where
  | exactly (n : α)
  | atLeast (n : α)
  | between (n m : α)
  deriving DecidableEq, Repr

namespace Counts

variable {α β : Type}

def map (f : α → β) : Counts α → Counts β
  | exactly n => exactly (f n)
  | atLeast n => atLeast (f n)
  | between n m => between (f n) (f m)

def toList : Counts α → List α
  | exactly n | atLeast n => [n]
  | between n m => [n, m]

def least : Counts Nat → Nat
  | exactly n | atLeast n | between n _ => n

def most : Counts Nat → Option Nat
  | exactly n => some n
  | atLeast _ => none
  | between _ m => some m

/-- The counts as they are written after an opening brace. -/
def braces : Counts (List Char) → List Char
  | exactly ds => ds ++ ['\x7d']
  | atLeast ds => ds ++ [',', '\x7d']
  | between ds es => ds ++ ',' :: (es ++ ['\x7d'])

theorem braces_between_append (ds es k : List Char) :
    (between ds es).braces ++ k = ds ++ ',' :: (es ++ '\x7d' :: k) := by
  simp [braces]

theorem length_braces_between (ds es : List Char) : (between ds es).braces.length = ds.length + es.length + 2 := by
  simp [braces]
  omega

end Counts

def isNumeral (ds : List Char) : Bool := !ds.isEmpty && ds.all Char.isDigit

/-- Is there no zero before other digits? -/
def isCanonical (ds : List Char) : Bool := ds.head? != some '0' || ds.length == 1

def repetitionChars (x : Char) (c : Counts (List Char)) : List Char :=
  '(' :: '?' :: ':' :: (Pattern.escapeChar x ++ ')' :: '\x7b' :: c.braces)

def repetition (x : Char) (c : Counts Nat) : Regex := .rep c.least c.most true (.char x)

theorem ne_nil_of_isNumeral {ds : List Char} (hds : isNumeral ds) : ds ≠ [] := by
  rintro rfl
  simp [isNumeral] at hds

theorem isDigit_of_isNumeral {ds : List Char} (hds : isNumeral ds) : ∀ d ∈ ds, d.isDigit := by
  rw [isNumeral, Bool.and_eq_true, List.all_eq_true] at hds
  exact hds.2

theorem takeWhile_numeral {ds : List Char} (hds : isNumeral ds) {c : Char} (hc : c.isDigit = false) (k : List Char) :
    (ds ++ c :: k).takeWhile Char.isDigit = ds := by
  rw [List.takeWhile_append_of_pos (isDigit_of_isNumeral hds), List.takeWhile_cons, hc]
  simp

namespace Automaton

section Counts

theorem digits_of_isNumeral {ds : List Char} (hds : isNumeral ds) (hcanonical : isCanonical ds) : Digits ds where
  ne_nil := ne_nil_of_isNumeral hds
  isDigit := isDigit_of_isNumeral hds
  canonical := by
    intro hzero
    simpa [isCanonical, hzero] using hcanonical

theorem number?_numeral {ds : List Char} (hds : isNumeral ds) {c : Char} (hc : c.isDigit = false) (k : List Char) :
    number? (ds ++ c :: k) = if isCanonical ds then some (decimal ds, ds.length) else none := by
  split
  . next hcanonical => exact (digits_of_isNumeral hds hcanonical).number?_append hc k
  . next hzero =>
    rw [number?.eq_def, takeWhile_numeral hds hc]
    split
    . simp [isNumeral] at hds
    . rfl
    . next hne =>
      obtain ⟨d, ds, rfl⟩ := List.exists_cons_of_ne_nil (ne_nil_of_isNumeral hds)
      cases ds with
      | nil => simp [isCanonical] at hzero
      | cons e ds =>
        obtain rfl : d = '0' := by simpa [isCanonical] using hzero
        exact absurd rfl (hne e ds)

theorem count?_of_number? {cs : List Char} (h : number? cs = none) : count? cs = none := by
  rw [count?, h]
  rfl

theorem count?_between {ds es : List Char} (hds : isNumeral ds) (hes : isNumeral es)
    (hcanonical : isCanonical es = false) (k : List Char) : count? (ds ++ ',' :: (es ++ '\x7d' :: k)) = none := by
  have hnone : number? (es ++ '\x7d' :: k) = none := by
    rw [number?_numeral hes (by decide), if_neg (by simp [hcanonical])]
  rw [count?, number?_numeral hds (by decide)]
  split
  . simp only [Option.bind_eq_bind, Option.bind_some, List.drop_left]
    split
    . next heq => simp at heq
    . next heq =>
      obtain ⟨e, es, rfl⟩ := List.exists_cons_of_ne_nil (ne_nil_of_isNumeral hes)
      have hdigit := isDigit_of_isNumeral hes e List.mem_cons_self
      simp only [List.cons_append, List.cons.injEq, true_and] at heq
      rw [heq.1] at hdigit
      simp at hdigit
    . next more _ heq =>
      rw [List.cons.injEq] at heq
      rw [← heq.2, hnone]
      rfl
    . rfl
  . rfl

theorem count?_braces {c : Counts (List Char)} (hc : c.toList.all isNumeral) (k : List Char) :
    count? (c.braces ++ k) =
      if c.toList.all isCanonical then some ((c.map decimal).least, (c.map decimal).most, c.braces.length)
      else none := by
  -- a number that does not begin with a zero is read as it is, and any other refuses the whole count
  cases c with
  | exactly ds =>
    have hds : isNumeral ds := by simpa [Counts.toList] using hc
    rw [Counts.braces, List.append_assoc, List.length_append]
    simp only [Counts.toList, List.all_cons, List.all_nil, Bool.and_true]
    split
    . next hcanonical => exact (digits_of_isNumeral hds hcanonical).count?_exactly k
    . next hzero =>
      apply count?_of_number?
      rw [List.singleton_append, number?_numeral hds (by decide), if_neg hzero]
  | atLeast ds =>
    have hds : isNumeral ds := by simpa [Counts.toList] using hc
    rw [Counts.braces, List.append_assoc, List.length_append]
    simp only [Counts.toList, List.all_cons, List.all_nil, Bool.and_true]
    split
    . next hcanonical => exact (digits_of_isNumeral hds hcanonical).count?_atLeast k
    . next hzero =>
      apply count?_of_number?
      rw [List.cons_append, number?_numeral hds (by decide), if_neg hzero]
  | between ds es =>
    obtain ⟨hds, hes⟩ : isNumeral ds ∧ isNumeral es := by simpa [Counts.toList] using hc
    rw [Counts.braces_between_append, Counts.length_braces_between]
    simp only [Counts.toList, List.all_cons, List.all_nil, Bool.and_true]
    cases hcanonical : isCanonical ds with
    | false =>
      apply count?_of_number?
      rw [number?_numeral hds (by decide), if_neg (by simp [hcanonical])]
    | true =>
      cases hcanonical' : isCanonical es with
      | false => exact count?_between hds hes hcanonical' k
      | true =>
        exact (digits_of_isNumeral hds hcanonical).count?_between (digits_of_isNumeral hes hcanonical') k

theorem countAllowed_iff {least : Nat} {most : Option Nat} :
    countAllowed least most ↔ least ≤ maxCount ∧ ∀ m ∈ most, m ≤ maxCount ∧ least ≤ m := by
  rw [countAllowed, Bool.and_eq_true, decide_eq_true_eq]
  cases most with
  | none => simp
  | some m => simp

end Counts

section Reading

variable {c : Counts (List Char)}

theorem lexemes?_cons {d : Char} {more k : List Char} {l : Lexeme} (h : lexeme? d (more ++ k) = some (l, more.length)) :
    lexemes? (d :: (more ++ k)) = (lexemes? k).map (l :: ·) := by
  rw [lexemes?, h]
  simp only [Option.bind_eq_bind, Option.bind_some, List.drop_left]
  cases lexemes? k with
  | none => rfl
  | some ls => rfl

theorem lexemes?_escapeChar (x : Char) (k : List Char) :
    lexemes? (Pattern.escapeChar x ++ k) = (lexemes? k).map (.atom (.char x) :: ·) := by
  obtain ⟨d, more, heq, -, hlex⟩ := lexeme?_escapeChar x
  rw [heq, List.cons_append, lexemes?_cons (hlex k)]

theorem lexemes?_repetitionChars (x : Char) (c : Counts (List Char)) :
    lexemes? (repetitionChars x c) =
      (lexemes? ('\x7b' :: c.braces)).map ([Lexeme.openGroup false, .atom (.char x), .closeGroup] ++ ·) := by
  have hopen : ∀ k, lexemes? ('(' :: '?' :: ':' :: k) = (lexemes? k).map (.openGroup false :: ·) := by
    intro k
    have hlex : lexeme? '(' (['?', ':'] ++ k) = some (.openGroup false, ['?', ':'].length) := rfl
    exact lexemes?_cons hlex
  have hclose : ∀ k, lexemes? (')' :: k) = (lexemes? k).map (.closeGroup :: ·) := by
    intro k
    have hlex : lexeme? ')' ([] ++ k) = some (.closeGroup, ([] : List Char).length) := rfl
    exact lexemes?_cons hlex
  rw [repetitionChars, hopen, lexemes?_escapeChar, hclose, Option.map_map, Option.map_map]
  rfl

theorem read?_ofChars (cs : List Char) :
    read? (Bytes.ofChars cs) = (lexemes? cs).bind fun ls =>
      (ofLexemes? ls).bind fun r => if countsAllowed r && withinLimits ls then some r else none := by
  rw [read?, patternLexemes?, if_pos (Utf8.isValid_ofChars cs), Utf8.decode_ofChars]
  rfl

theorem countsAllowed_repetition (x : Char) {c : Counts Nat} (hsmall : countAllowed c.least c.most) :
    countsAllowed (repetition x c) := by
  obtain ⟨hleast, hmost⟩ := countAllowed_iff.1 hsmall
  have hle : c.most.getD c.least ≤ maxCount := Construct.getD_le hleast fun m hm => (hmost m hm).1
  simp [repetition, countsAllowed, countsWithin, Nat.not_lt.2 hle]

/-- The automaton engine reads the same if no number has a leading zero. -/
theorem read?_repetition (x : Char) (hc : c.toList.all isNumeral) (hcanonical : c.toList.all isCanonical)
    (hsmall : countAllowed (c.map decimal).least (c.map decimal).most) :
    read? (Bytes.ofChars (repetitionChars x c)) = some (repetition x (c.map decimal)) := by
  have hcount : ∀ k, count? (c.braces ++ k) = some ((c.map decimal).least, (c.map decimal).most, c.braces.length) := by
    intro k
    rw [count?_braces hc, if_pos hcanonical]
  have hbraces := quantifies_of_count? hcount [] (by simp)
  rw [if_pos hsmall] at hbraces
  have hlex : lexemes? (repetitionChars x c) = some [.openGroup false, .atom (.char x), .closeGroup,
      .quantifier (c.map decimal).least (c.map decimal).most true] := by
    rw [lexemes?_repetitionChars, ← List.append_nil c.braces, lexemes?_cons hbraces, lexemes?]
    rfl
  obtain ⟨hleast, hmost⟩ := countAllowed_iff.1 hsmall
  have hlimits := Construct.withinLimits_repetition hleast (fun m hm => (hmost m hm).1) x
  have hallowed := countsAllowed_repetition x hsmall
  have hof : ofLexemes? [.openGroup false, .atom (.char x), .closeGroup,
      .quantifier (c.map decimal).least (c.map decimal).most true] = some (repetition x (c.map decimal)) := rfl
  rw [read?_ofChars, hlex, Option.bind_some, hof, Option.bind_some, hlimits, hallowed]
  rfl

theorem of_mem_braces (hc : c.toList.all isNumeral) : ∀ d ∈ c.braces, d.isDigit ∨ d = ',' ∨ d = '\x7d' := by
  intro d hd
  cases c with
  | exactly ds =>
    have hds : isNumeral ds := by simpa [Counts.toList] using hc
    obtain hmem | hmem := List.mem_append.1 hd
    . exact .inl (isDigit_of_isNumeral hds d hmem)
    . exact .inr (.inr (by simpa using hmem))
  | atLeast ds =>
    have hds : isNumeral ds := by simpa [Counts.toList] using hc
    obtain hmem | hmem := List.mem_append.1 hd
    . exact .inl (isDigit_of_isNumeral hds d hmem)
    . exact .inr (by simpa using hmem)
  | between ds es =>
    obtain ⟨hds, hes⟩ : isNumeral ds ∧ isNumeral es := by simpa [Counts.toList] using hc
    simp only [Counts.braces, List.mem_append, List.mem_cons, List.not_mem_nil, or_false] at hd
    obtain hmem | rfl | hmem | rfl := hd
    . exact .inl (isDigit_of_isNumeral hds d hmem)
    . exact .inr (.inl rfl)
    . exact .inl (isDigit_of_isNumeral hes d hmem)
    . exact .inr (.inr rfl)

theorem lexemes?_braces (hc : c.toList.all isNumeral) : lexemes? c.braces = some (textLexemes c.braces) := by
  have hplain := of_mem_braces hc
  generalize c.braces = cs at hplain
  induction cs with
  | nil => simp [lexemes?, textLexemes]
  | cons d cs ih =>
    obtain ⟨hd, hcs⟩ := List.forall_mem_cons.1 hplain
    have hlex : lexeme? d ([] ++ cs) = some (.atom (.char d), ([] : List Char).length) := by
      obtain hdigit | rfl | rfl := hd
      . exact lexeme?_ordinary (not_mem_specialChars_digit hdigit) cs
      . rfl
      . rfl
    rw [← List.nil_append cs, lexemes?_cons hlex, List.nil_append, ih hcs]
    rfl

theorem eq_of_read?_repetition {x : Char} {r : Regex} (hc : c.toList.all isNumeral)
    (hzero : ¬c.toList.all isCanonical) (hread : read? (Bytes.ofChars (repetitionChars x c)) = some r) :
    r = text (x :: '\x7b' :: c.braces) := by
  have hcount := count?_braces hc []
  rw [if_neg hzero, List.append_nil] at hcount
  have hbrace : lexeme? '\x7b' ([] ++ c.braces) = some (.atom (.char '\x7b'), ([] : List Char).length) := by
    rw [List.nil_append, lexeme?, hcount]
    rfl
  have hlex : lexemes? (repetitionChars x c) =
      some ([Lexeme.openGroup false, .atom (.char x), .closeGroup] ++ textLexemes ('\x7b' :: c.braces)) := by
    rw [lexemes?_repetitionChars, ← List.nil_append c.braces, lexemes?_cons hbrace, lexemes?_braces hc]
    rfl
  have hof : ofLexemes? ([Lexeme.openGroup false, .atom (.char x), .closeGroup] ++ textLexemes ('\x7b' :: c.braces)) =
      some (text (x :: '\x7b' :: c.braces)) := by
    have hstart : [Lexeme.openGroup false, .atom (.char x), .closeGroup].foldlM Builder.step {} = some
        { current := { index := none, units := [.char x], repeatable := true } } := rfl
    obtain ⟨repeatable, hfold⟩ := foldlM_atoms (('\x7b' :: c.braces).map .char)
      { current := { index := none, units := [.char x], repeatable := true } }
    rw [ofLexemes?, List.foldlM_append, hstart, textLexemes]
    simp only [Option.bind_eq_bind, Option.bind_some, hfold]
    simp [Frame.body, Frame.alternative, choice, text]
  rw [read?_ofChars, hlex, Option.bind_some, hof, Option.bind_some] at hread
  split at hread
  . exact (Option.some.inj hread).symm
  . simp at hread

end Reading

end Automaton

namespace Backtracking

section Counts

theorem digits_numeral {ds : List Char} (hds : isNumeral ds) {c : Char} (hc : c.isDigit = false) (k : List Char) :
    digits (ds ++ c :: k) = ds := takeWhile_numeral hds hc k

theorem isEmpty_numeral {ds : List Char} (hds : isNumeral ds) : ds.isEmpty = false := by
  simpa using ne_nil_of_isNumeral hds

theorem count?_braces {c : Counts (List Char)} (hc : c.toList.all isNumeral) (k : List Char) :
    count? (c.braces ++ k) = some ((c.map decimal).least, (c.map decimal).most, c.braces.length) := by
  cases c with
  | exactly ds =>
    have hds : isNumeral ds := by simpa [Counts.toList] using hc
    rw [Counts.braces, List.append_assoc, List.singleton_append, List.length_append, count?,
      digits_numeral hds (by decide)]
    simp only [List.drop_left, isEmpty_numeral hds]
    rfl
  | atLeast ds =>
    have hds : isNumeral ds := by simpa [Counts.toList] using hc
    rw [Counts.braces, List.append_assoc, List.cons_append, List.length_append, count?,
      digits_numeral hds (by decide)]
    simp only [List.drop_left, isEmpty_numeral hds]
    rfl
  | between ds es =>
    obtain ⟨hds, hes⟩ : isNumeral ds ∧ isNumeral es := by simpa [Counts.toList] using hc
    have hdigits := digits_numeral hes (c := '\x7d') (by decide) k
    rw [Counts.braces_between_append, Counts.length_braces_between, count?, digits_numeral hds (by decide)]
    simp only [List.drop_left, isEmpty_numeral hds, hdigits, isEmpty_numeral hes]
    rfl

end Counts

section Reading

variable {c : Counts (List Char)}

theorem countAllowed_of_small {least : Nat} {most : Option Nat} (h : Automaton.countAllowed least most) :
    countAllowed least most ∧ most.filter (· < maxNumber) = most ∧ least < maxNumber := by
  rw [Automaton.countAllowed_iff, Automaton.maxCount] at h
  rw [countAllowed, maxNumber]
  cases most with
  | none =>
    simp
    omega
  | some m =>
    have := h.2 m rfl
    simp
    omega

theorem lexeme?_braces (groups : Nat) (hc : c.toList.all isNumeral)
    (hsmall : Automaton.countAllowed (c.map decimal).least (c.map decimal).most) {k : List Char}
    (hk : k.head? ≠ some '?') :
    lexeme? groups '\x7b' (c.braces ++ k) =
      some (.quantifier (c.map decimal).least (c.map decimal).most true, c.braces.length) := by
  obtain ⟨hallowed, hfilter, -⟩ := countAllowed_of_small hsmall
  rw [lexeme?, count?_braces hc]
  dsimp only
  rw [if_pos hallowed, quantifier, hfilter, List.drop_left, Automaton.greedy_of_head? hk]
  rfl

theorem read?_repetition (x : Char) (hc : c.toList.all isNumeral)
    (hsmall : Automaton.countAllowed (c.map decimal).least (c.map decimal).most) :
    read? (Bytes.ofChars (repetitionChars x c)) = some (repetition x (c.map decimal)) := by
  have hlex : ∀ groups, lexemes? groups (repetitionChars x c) = some
      [.openGroup false, .atom (.char x), .closeGroup,
        .quantifier (c.map decimal).least (c.map decimal).most true] := by
    intro groups
    have hopen : ∀ k, lexemes? groups ('(' :: '?' :: ':' :: k) = (lexemes? groups k).map (.openGroup false :: ·) := by
      intro k
      have hlex : lexeme? groups '(' (['?', ':'] ++ k) = some (.openGroup false, ['?', ':'].length) := rfl
      exact lexemes?_cons hlex
    have hbraces := lexeme?_braces groups hc hsmall (k := []) (by simp)
    rw [repetitionChars, hopen, lexemes?_escapeChar, lexemes?_close, ← List.append_nil c.braces]
    rw [lexemes?_cons hbraces, lexemes?]
    rfl
  rw [read?_ofChars, hlex, Option.bind_some, hlex]
  rfl

end Reading

end Backtracking

end VerboseExpr.Regex
