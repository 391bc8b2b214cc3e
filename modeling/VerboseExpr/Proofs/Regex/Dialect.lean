import VerboseExpr.Proofs.Regex.Nesting
import VerboseExpr.Regex.Automaton.Syntax
import VerboseExpr.Regex.Backtracking.Syntax

namespace VerboseExpr.Regex

def Lexeme.isQuantifier : Lexeme → Bool
  | .quantifier .. => true
  | _ => false

def rounds (opens : List Bracket) : Nat := opens.count .round

/-- How many groups may be open in the text before and after a lexeme. -/
def Lexeme.Moves (l : Lexeme) (before after : Nat) : Prop :=
  match l with
  | .atom _ => before ≤ after
  | .openGroup _ => after = before + 1
  | .closeGroup => before = after + 1
  | .bar => after = before ∧ 0 < before
  | .quantifier .. => after = before

/-- The lexemes of a text in which `n` groups are open. -/
inductive Pending : (n : Nat) → List Lexeme → Prop where
  | done : Pending 0 []
  | step {n m : Nat} {l : Lexeme} {ls : List Lexeme} : l.Moves n m → Pending m ls → Pending n (l :: ls)

/-- The text after a lexeme is nested as the lexeme says. -/
def Advances (strict : Bool) (opens : List Bracket) (l : Lexeme) (rest : List Char) : Prop :=
  ∃ inner, Nested strict inner rest ∧ l.Moves (rounds opens) (rounds inner)

section Moves

variable {strict : Bool} {opens : List Bracket} {cs : List Char}

theorem Nested.atom (h : Nested strict opens cs) (r : Regex) : Advances strict opens (.atom r) cs :=
  ⟨opens, h, Nat.le_refl _⟩

theorem Nested.quantifier (h : Nested strict opens cs) (min : Nat) (max : Option Nat) (greedy : Bool) :
    Advances strict opens (.quantifier min max greedy) cs :=
  ⟨opens, h, rfl⟩

theorem Nested.opened (h : Nested strict (.round :: opens) cs) (capturing : Bool) :
    Advances strict opens (.openGroup capturing) cs :=
  ⟨_, h, List.count_cons_self⟩

theorem Nested.closed (h : Nested strict opens (')' :: cs)) : Advances strict opens .closeGroup cs := by
  obtain ⟨outer, rfl, hrest⟩ := h.of_closeRound
  exact ⟨outer, hrest, List.count_cons_self⟩

theorem Nested.barred (h : Nested strict opens ('|' :: cs)) : Advances strict opens .bar cs := by
  obtain ⟨hrest, outer, rfl⟩ := h.of_bar
  exact ⟨_, hrest, rfl, by simp [rounds]⟩

theorem Nested.ordinary {c : Char} (h : Nested strict opens (c :: cs)) (hc : c ∉ ['(', ')', '[', '|', '\\'])
    (r : Regex) : Advances strict opens (.atom r) cs := by
  cases h with
  | plain _ hrest => exact hrest.atom r
  | closeSquare hrest => exact ⟨_, hrest, by simp [Lexeme.Moves, rounds]⟩
  | escape | bar | openRound | closeRound | openSquare => simp at hc

theorem Outside.atom (h : Outside strict opens cs) (r : Regex) : Advances strict opens (.atom r) cs := by
  obtain ⟨inner, hsuffix, hnested⟩ := h
  have hle : rounds opens ≤ rounds inner := hsuffix.sublist.count_le Bracket.round
  exact ⟨inner, hnested, hle⟩

theorem Nested.greedy (h : Nested strict opens cs) : Nested strict opens (cs.drop (Regex.greedy cs).2) := by
  rw [Regex.greedy.eq_def]
  split
  . exact h.of_plain (by decide)
  . exact h

end Moves

/-- What dialects of patterns differ in. -/
structure Dialect where
  dot : CharSet
  class? : List Char → Option (CharSet × Nat)
  count? : List Char → Option (Nat × Option Nat × Nat)
  countAllowed : Nat → Option Nat → Bool
  /-- The greatest number of repetitions that a written one means. -/
  limit : Option Nat → Option Nat
  backslash? : List Char → Option (Lexeme × Nat)

namespace Dialect

def quantifier (d : Dialect) (min : Nat) (max : Option Nat) (n : Nat) (rest : List Char) : Lexeme × Nat :=
  (.quantifier min (d.limit max) (greedy (rest.drop n)).1, n + (greedy (rest.drop n)).2)

def lexeme? (d : Dialect) (c : Char) (rest : List Char) : Option (Lexeme × Nat) :=
  match c with
  | '(' =>
    match rest with
    | '?' :: ':' :: _ => some (.openGroup false, 2)
    | '?' :: _ => none
    | _ => some (.openGroup true, 0)
  | ')' => some (.closeGroup, 0)
  | '|' => some (.bar, 0)
  | '^' => some (.atom (.anchor .textStart), 0)
  | '$' => some (.atom (.anchor .textEnd), 0)
  | '.' => some (.atom (.set d.dot), 0)
  | '[' => (d.class? rest).map fun (s, n) => (.atom (.set s), n)
  | '*' => some (d.quantifier 0 none 0 rest)
  | '+' => some (d.quantifier 1 none 0 rest)
  | '?' => some (d.quantifier 0 (some 1) 0 rest)
  | '\x7b' =>
    match d.count? rest with
    | some (min, max, n) => if d.countAllowed min max then some (d.quantifier min max n rest) else none
    | none => some (.atom (.char c), 0)
  | '\\' => d.backslash? rest
  | _ => some (.atom (.char c), 0)

inductive Lexes (d : Dialect) : List Char → List Lexeme → Prop where
  | nil : Lexes d [] []
  | cons {c : Char} {rest : List Char} {l : Lexeme} {n : Nat} {ls : List Lexeme} :
    d.lexeme? c rest = some (l, n) → Lexes d (rest.drop n) ls → Lexes d (c :: rest) (l :: ls)

/-- The readers of the dialect keep to the brackets of a nested text. Only classes may take brackets, and then
opening ones only. -/
structure KeepsBrackets (d : Dialect) (strict : Bool) : Prop where
  class? : ∀ {opens rest s n}, d.class? rest = some (s, n) → Nested strict opens ('[' :: rest) →
    Outside strict opens (rest.drop n)
  count? : ∀ {opens rest min max n}, d.count? rest = some (min, max, n) → Nested strict opens rest →
    Nested strict opens (rest.drop n)
  backslash? : ∀ {opens rest l n}, d.backslash? rest = some (l, n) → Nested strict opens ('\\' :: rest) →
    (∃ r, l = .atom r) ∧ Nested strict opens (rest.drop n)

def quantifierChars : List Char := ['*', '+', '?', '\x7b']

section Reading

variable {d : Dialect} {strict : Bool} {opens : List Bracket} {c : Char} {rest : List Char} {l : Lexeme} {n : Nat}

theorem advances_quantifier {min : Nat} {max : Option Nat} {k : Nat} (h : d.quantifier min max k rest = (l, n))
    (hnested : Nested strict opens (rest.drop k)) : Advances strict opens l (rest.drop n) := by
  obtain ⟨rfl, rfl⟩ := Prod.mk.inj h
  rw [← List.drop_drop]
  exact hnested.greedy.quantifier min _ _

theorem KeepsBrackets.advances (hd : d.KeepsBrackets strict) (h : d.lexeme? c rest = some (l, n))
    (hnested : Nested strict opens (c :: rest)) : Advances strict opens l (rest.drop n) := by
  rw [lexeme?.eq_def] at h
  split at h
  case h_1 =>
    split at h
    . obtain ⟨rfl, rfl⟩ := Prod.mk.inj (Option.some.inj h)
      exact ((hnested.of_openRound.of_plain (by decide)).of_plain (by decide)).opened false
    . simp at h
    . obtain ⟨rfl, rfl⟩ := Prod.mk.inj (Option.some.inj h)
      exact hnested.of_openRound.opened true
  case h_2 =>
    obtain ⟨rfl, rfl⟩ := Prod.mk.inj (Option.some.inj h)
    exact hnested.closed
  case h_3 =>
    obtain ⟨rfl, rfl⟩ := Prod.mk.inj (Option.some.inj h)
    exact hnested.barred
  case h_4 | h_5 | h_6 =>
    obtain ⟨rfl, rfl⟩ := Prod.mk.inj (Option.some.inj h)
    exact (hnested.of_plain (by decide)).atom _
  case h_7 =>
    obtain ⟨⟨s, m⟩, hclass, h⟩ := Option.map_eq_some_iff.1 h
    obtain ⟨rfl, rfl⟩ := Prod.mk.inj h
    exact (hd.class? hclass hnested).atom _
  case h_8 | h_9 | h_10 => exact advances_quantifier (Option.some.inj h) (hnested.of_plain (by decide))
  case h_11 =>
    have hrest := hnested.of_plain (by decide)
    split at h
    . next min max m hcount =>
      split at h
      . exact advances_quantifier (Option.some.inj h) (hd.count? hcount hrest)
      . simp at h
    . obtain ⟨rfl, rfl⟩ := Prod.mk.inj (Option.some.inj h)
      exact hrest.atom _
  case h_12 =>
    obtain ⟨⟨r, rfl⟩, hrest⟩ := hd.backslash? h hnested
    exact hrest.atom r
  case h_13 =>
    obtain ⟨rfl, rfl⟩ := Prod.mk.inj (Option.some.inj h)
    apply hnested.ordinary
    simp only [List.mem_cons, List.not_mem_nil, or_false, not_or]
    refine ⟨?_, ?_, ?_, ?_, ?_⟩ <;> assumption

theorem KeepsBrackets.isQuantifier (hd : d.KeepsBrackets strict) (h : d.lexeme? c rest = some (l, n))
    (hnested : Nested strict opens (c :: rest)) (hc : c ∉ quantifierChars) : l.isQuantifier = false := by
  rw [lexeme?.eq_def] at h
  split at h
  case h_1 =>
    split at h
    . rw [← (Prod.mk.inj (Option.some.inj h)).1]
      rfl
    . simp at h
    . rw [← (Prod.mk.inj (Option.some.inj h)).1]
      rfl
  case h_7 =>
    obtain ⟨_, -, h⟩ := Option.map_eq_some_iff.1 h
    rw [← (Prod.mk.inj h).1]
    rfl
  case h_8 | h_9 | h_10 | h_11 => exact absurd hc (by decide)
  case h_12 =>
    obtain ⟨⟨r, rfl⟩, -⟩ := hd.backslash? h hnested
    rfl
  all_goals
    rw [← (Prod.mk.inj (Option.some.inj h)).1]
    rfl

theorem KeepsBrackets.pending {cs : List Char} {ls : List Lexeme} (hd : d.KeepsBrackets strict)
    (h : d.Lexes cs ls) (hnested : Nested strict opens cs) : Pending (rounds opens) ls := by
  induction h generalizing opens with
  | nil =>
    cases hnested
    exact .done
  | cons hl _ ih =>
    obtain ⟨inner, hrest, hmoves⟩ := hd.advances hl hnested
    exact .step hmoves (ih hrest)

end Reading

end Dialect

def Automaton.dialect : Dialect where
  dot := .allBut ['\n']
  class? := class?
  count? := count?
  countAllowed := countAllowed
  limit := id
  backslash? := backslash?

def Backtracking.dialect (groups : Nat) : Dialect where
  dot := .allBut ['\n', '\r']
  class? := class?
  count? := count?
  countAllowed := countAllowed
  limit := Option.filter (· < maxNumber)
  backslash? := backslash? groups

theorem Automaton.lexes_of_lexemes? {cs : List Char} {ls : List Lexeme} (h : lexemes? cs = some ls) :
    dialect.Lexes cs ls := by
  fun_induction lexemes? cs generalizing ls with
  | case1 =>
    obtain rfl := Option.some.inj h
    exact .nil
  | case2 c rest ih =>
    obtain ⟨⟨l, n⟩, hl, h⟩ := Option.bind_eq_some_iff.1 h
    obtain ⟨ls', hls, h⟩ := Option.bind_eq_some_iff.1 h
    obtain rfl := Option.some.inj h
    have hlexeme : dialect.lexeme? c rest = some (l, n) := hl
    exact .cons hlexeme (ih n hls)

theorem Backtracking.lexes_of_lexemes? {groups : Nat} {cs : List Char} {ls : List Lexeme}
    (h : lexemes? groups cs = some ls) : (dialect groups).Lexes cs ls := by
  fun_induction lexemes? groups cs generalizing ls with
  | case1 =>
    obtain rfl := Option.some.inj h
    exact .nil
  | case2 c rest ih =>
    obtain ⟨⟨l, n⟩, hl, h⟩ := Option.bind_eq_some_iff.1 h
    obtain ⟨ls', hls, h⟩ := Option.bind_eq_some_iff.1 h
    obtain rfl := Option.some.inj h
    have hlexeme : (dialect groups).lexeme? c rest = some (l, n) := hl
    exact .cons hlexeme (ih n hls)

end VerboseExpr.Regex
