import VerboseExpr.Proofs.Regex.Dialect
import VerboseExpr.Proofs.Regex.Lexing
import VerboseExpr.Proofs.Regex.Referring
import VerboseExpr.Proofs.Regex.Unreferring

/-!
What the engines make of a nested pattern. A class ends at the first closing square bracket, so it may swallow
opening brackets whose partners it leaves. Main statement: all that is read keeps to the brackets of the text,
unless a class begins with a closing bracket that the automaton takes for an ordinary character.
-/

namespace VerboseExpr.Regex

section Escapes

variable {strict : Bool} {opens : List Bracket} {cs : List Char}

theorem isDigit_not_mem {c : Char} (h : c.isDigit) : c ∉ structureChars := by
  intro hmem
  have hstructure : ∀ c ∈ structureChars, c.isDigit = false := by simp [structureChars]
  rw [hstructure c hmem] at h
  contradiction

theorem not_escapable {c : Char} (h : c ∈ ['A', 'z', 'b', 'B']) : ¬Escapable c := by
  simp only [List.mem_cons, List.not_mem_nil, or_false] at h
  obtain rfl | rfl | rfl | rfl := h
  all_goals decide

/-- An escape that takes digits at most, after the character that the backslash stands before. -/
def TakesDigits (rest : List Char) (n : Nat) : Prop :=
  ∃ ds, n = ds.length + 1 ∧ ds <+: rest.takeWhile Char.isDigit

theorem not_mem_take_digits {ds : List Char} (h : ds <+: cs.takeWhile Char.isDigit) :
    ∀ c ∈ cs.take ds.length, c ∉ structureChars := by
  rw [← List.prefix_iff_eq_take.1 (h.trans (List.takeWhile_prefix _))]
  intro c hc
  exact isDigit_not_mem (List.all_eq_true.1 List.all_takeWhile c (h.subset hc))

theorem TakesDigits.one (rest : List Char) : TakesDigits rest 1 := ⟨[], rfl, List.nil_prefix⟩

theorem Nested.drop_escape {c : Char} {n : Nat} (h : Nested strict opens cs) (hn : TakesDigits cs n) :
    Nested strict opens ((c :: cs).drop n) := by
  obtain ⟨ds, rfl, hds⟩ := hn
  rw [List.drop_succ_cons]
  exact h.drop (not_mem_take_digits hds)

theorem Inside.drop_escape {c : Char} {n : Nat} (h : Inside strict opens cs) (hn : TakesDigits cs n) :
    Inside strict opens ((c :: cs).drop n) := by
  obtain ⟨ds, rfl, hds⟩ := hn
  rw [List.drop_succ_cons]
  exact h.drop (not_mem_take_digits hds)

theorem Nested.drop_digits (h : Nested strict opens cs) :
    Nested strict opens (cs.drop (cs.takeWhile Char.isDigit).length) :=
  h.drop (not_mem_take_digits List.prefix_rfl)

theorem Inside.of_named {name more : List Char} (hname : ∀ c ∈ name, c ∉ structureChars)
    (h : Inside strict opens ('[' :: ':' :: (name ++ ':' :: ']' :: more))) : Inside strict opens more := by
  obtain ⟨inner, hsuffix, hnested⟩ := h
  have hname' := hnested.of_openSquare.2.2.of_plain (by decide)
  have hcolon := hname'.drop (n := name.length) (by simpa using hname)
  rw [List.drop_left] at hcolon
  obtain ⟨outer, heq, hmore⟩ := (hcolon.of_plain (by decide)).of_closeSquare
  obtain ⟨-, rfl⟩ := List.cons.inj heq
  exact ⟨inner, hsuffix, hmore⟩

end Escapes

namespace Automaton

section Readers

variable {strict : Bool} {opens : List Bracket} {c d : Char} {cs rest : List Char} {n : Nat}

theorem escape?_takesDigits (hd : Escapable d) (h : escape? (d :: rest) = some (c, n)) : TakesDigits rest n := by
  obtain hspecial | hletter | hdigit := hd
  . rw [escape?_special hspecial, Option.some.injEq, Prod.mk.injEq] at h
    rw [← h.2]
    exact .one rest
  . simp only [List.mem_cons, List.not_mem_nil, or_false] at hletter
    obtain rfl | rfl | rfl := hletter
    all_goals
      rw [← (Prod.mk.inj (Option.some.inj h)).2]
      exact .one rest
  . rw [escape?.eq_def] at h
    dsimp only at h
    split at h
    . next hoctal =>
      rw [Option.some.injEq, Prod.mk.injEq] at h
      have hd : isOctal d := by
        rw [Bool.or_eq_true, Bool.and_eq_true, decide_eq_true_eq] at hoctal
        obtain rfl | hoctal := hoctal
        . rfl
        . exact hoctal.1
      refine ⟨(rest.take 2).takeWhile isOctal, ?_, ?_⟩
      . rw [← h.2, List.take_succ_cons, List.takeWhile_cons, if_pos hd, List.length_cons]
      . apply Backtracking.prefix_takeWhile_of_all ((List.takeWhile_prefix isOctal).trans (List.take_prefix 2 rest))
        intro x hx
        exact Backtracking.isDigit_of_isOctal (List.all_eq_true.1 List.all_takeWhile x hx)
    . split at h
      case h_8 =>
        split at h
        . next hplain => simp [Char.isAlphanum, hdigit] at hplain
        . simp at h
      all_goals exact absurd hdigit (by decide)

theorem letterClass?_escapable (hd : Escapable d) : letterClass? d = none := by
  obtain hspecial | hletter | hdigit := hd
  . exact letterClass?_special hspecial
  . simp only [List.mem_cons, List.not_mem_nil, or_false] at hletter
    obtain rfl | rfl | rfl := hletter <;> rfl
  . rw [letterClass?.eq_def]
    split
    case h_7 => rfl
    all_goals exact absurd hdigit (by decide)

theorem inside_of_classChar? {lo : Char} (hclose : c ≠ ']') (h : classChar? c rest = some (lo, n))
    (hinside : Inside strict opens (c :: rest)) : Inside strict opens (rest.drop n) := by
  rw [classChar?] at h
  split at h
  . next hc =>
    rw [hc] at hinside
    obtain ⟨d, more, rfl, hd, hmore⟩ := hinside.of_backslash
    exact hmore.drop_escape (escape?_takesDigits hd h)
  . next hc =>
    rw [Option.some.injEq, Prod.mk.injEq] at h
    rw [← h.2]
    exact hinside.of_cons hclose hc

theorem inside_of_classRange? {item : List (Char × Char)} (hclose : c ≠ ']')
    (h : classRange? c rest = some (item, n)) (hinside : Inside strict opens (c :: rest)) :
    Inside strict opens (rest.drop n) := by
  rw [classRange?] at h
  obtain ⟨⟨lo, k⟩, hlo, h⟩ := Option.bind_eq_some_iff.1 h
  have hafter := inside_of_classChar? hclose hlo hinside
  dsimp only at h
  split at h
  . next d more hdrop =>
    split at h
    . obtain ⟨-, rfl⟩ := Prod.mk.inj (Option.some.inj h)
      exact hafter
    . next hd =>
      obtain ⟨⟨hi, m⟩, hhi, h⟩ := Option.bind_eq_some_iff.1 h
      dsimp only at h
      split at h
      . simp at h
      . obtain ⟨-, rfl⟩ := Prod.mk.inj (Option.some.inj h)
        rw [hdrop] at hafter
        have hlast := inside_of_classChar? hd hhi (hafter.of_cons (by decide) (by decide))
        rw [← List.drop_drop, ← List.drop_drop, hdrop]
        exact hlast
  . obtain ⟨-, rfl⟩ := Prod.mk.inj (Option.some.inj h)
    exact hafter

theorem not_mem_of_all {name : List Char} (h : name.all fun c => !structureChars.contains c) :
    ∀ c ∈ name, c ∉ structureChars := by
  simpa using h

theorem not_mem_of_namedRanges {name : String} {items : List (Char × Char)} (h : namedRanges? name = some items) :
    ∀ c ∈ name.toList, c ∉ structureChars := by
  rw [namedRanges?.eq_def] at h
  split at h
  case h_15 => simp at h
  all_goals exact not_mem_of_all (by decide)

theorem not_mem_of_namedClass {name : List Char} {items : List (Char × Char)} (h : namedClass? name = some items) :
    ∀ c ∈ name, c ∉ structureChars := by
  rw [namedClass?.eq_def] at h
  split at h
  . obtain ⟨ranges, hranges, -⟩ := Option.map_eq_some_iff.1 h
    have hbase := not_mem_of_namedRanges hranges
    rw [String.toList_ofList] at hbase
    exact List.forall_mem_cons.2 ⟨by decide, hbase⟩
  . have hname := not_mem_of_namedRanges h
    rwa [String.toList_ofList] at hname

theorem inside_of_classItem? {item : List (Char × Char)} (hclose : c ≠ ']')
    (h : classItem? c rest = some (item, n)) (hinside : Inside strict opens (c :: rest)) :
    Inside strict opens (rest.drop n) := by
  rw [classItem?.eq_def] at h
  split at h
  . next more _ =>
    split at h
    . next name hname =>
      obtain ⟨ranges, hranges, heq⟩ := Option.map_eq_some_iff.1 h
      obtain ⟨-, rfl⟩ := Prod.mk.inj heq
      obtain ⟨after, hmore⟩ := eq_of_nameBefore? hname
      rw [hmore] at hinside ⊢
      rw [List.drop_succ_cons, List.drop_length_add_append]
      exact hinside.of_named (not_mem_of_namedClass hranges)
    . exact inside_of_classRange? hclose h hinside
  . next d more =>
    obtain ⟨d', more', heq, hd, -⟩ := hinside.of_backslash
    obtain ⟨rfl, rfl⟩ := List.cons.inj heq
    rw [letterClass?_escapable hd] at h
    exact inside_of_classRange? hclose h hinside
  . exact inside_of_classRange? hclose h hinside

theorem outside_of_classItems? {first : Bool} {items : List (Char × Char)}
    (hfirst : first → cs.head? ≠ some ']') (h : classItems? first cs = some (items, n))
    (hinside : Inside strict opens cs) : Outside strict opens (cs.drop n) := by
  fun_induction classItems? first cs generalizing items n with
  | case1 => simp at h
  | case2 first c rest hclose =>
    rw [Bool.and_eq_true, decide_eq_true_eq] at hclose
    obtain ⟨-, rfl⟩ := Prod.mk.inj (Option.some.inj h)
    rw [hclose.1] at hinside
    exact hinside.close
  | case3 first c rest hclose ih =>
    have hc : c ≠ ']' := by
      rintro rfl
      cases first with
      | true => exact hfirst rfl rfl
      | false => exact hclose rfl
    obtain ⟨⟨item, k⟩, hitem, h⟩ := Option.bind_eq_some_iff.1 h
    obtain ⟨⟨more, m⟩, hmore, h⟩ := Option.bind_eq_some_iff.1 h
    obtain ⟨-, rfl⟩ := Prod.mk.inj (Option.some.inj h)
    have hrest := ih k (by simp) hmore (inside_of_classItem? hc hitem hinside)
    rwa [Nat.add_right_comm, List.drop_succ_cons, ← List.drop_drop]

theorem outside_of_class? {s : CharSet} (h : class? rest = some (s, n)) (hnested : Nested true opens ('[' :: rest)) :
    Outside true opens (rest.drop n) := by
  obtain ⟨hhead, hvoid, hrest⟩ := hnested.of_openSquare
  have hinside : Inside true opens rest := ⟨_, List.suffix_rfl, hrest⟩
  rw [class?.eq_def] at h
  split at h
  . next body =>
    obtain ⟨⟨items, m⟩, hitems, heq⟩ := Option.map_eq_some_iff.1 h
    obtain ⟨-, rfl⟩ := Prod.mk.inj heq
    have hbody : body.head? ≠ some ']' := by
      intro hclose
      obtain ⟨more, rfl⟩ := List.head?_eq_some_iff.1 hclose
      exact hvoid rfl rfl
    rw [List.drop_succ_cons]
    exact outside_of_classItems? (fun _ => hbody) hitems (hinside.of_cons (by decide) (by decide))
  . obtain ⟨⟨items, m⟩, hitems, heq⟩ := Option.map_eq_some_iff.1 h
    obtain ⟨-, rfl⟩ := Prod.mk.inj heq
    exact outside_of_classItems? (fun _ => hhead) hitems hinside

theorem nested_of_number? {v : Nat} (h : number? cs = some (v, n)) (hnested : Nested strict opens cs) :
    Nested strict opens (cs.drop n) := by
  rw [number?.eq_def] at h
  split at h
  . simp at h
  . simp at h
  . obtain ⟨-, rfl⟩ := Prod.mk.inj (Option.some.inj h)
    exact hnested.drop_digits

theorem nested_of_count? {min : Nat} {max : Option Nat} (h : count? cs = some (min, max, n))
    (hnested : Nested strict opens cs) : Nested strict opens (cs.drop n) := by
  rw [count?] at h
  obtain ⟨⟨v, k⟩, hv, h⟩ := Option.bind_eq_some_iff.1 h
  have hafter := nested_of_number? hv hnested
  dsimp only at h
  split at h
  . next hdrop =>
    obtain ⟨-, -, rfl⟩ : _ ∧ _ ∧ k + 1 = n := by simpa using h
    rw [hdrop] at hafter
    rw [← List.drop_drop, hdrop]
    exact hafter.of_plain (by decide)
  . next hdrop =>
    obtain ⟨-, -, rfl⟩ : _ ∧ _ ∧ k + 2 = n := by simpa using h
    rw [hdrop] at hafter
    rw [← List.drop_drop, hdrop]
    exact (hafter.of_plain (by decide)).of_plain (by decide)
  . next more _ hdrop =>
    obtain ⟨⟨w, m⟩, hw, h⟩ := Option.bind_eq_some_iff.1 h
    rw [hdrop] at hafter
    have hlast := nested_of_number? hw (hafter.of_plain (by decide))
    dsimp only at h
    split at h
    . next hdrop' =>
      obtain ⟨-, -, rfl⟩ : _ ∧ _ ∧ k + m + 2 = n := by simpa using h
      have hsum : k + m + 2 = k + 1 + m + 1 := by omega
      rw [hdrop'] at hlast
      rw [hsum, ← List.drop_drop, ← List.drop_drop, ← List.drop_drop, hdrop, List.drop_succ_cons,
        List.drop_zero, hdrop']
      exact hlast.of_plain (by decide)
    . simp at h
  . simp at h

theorem nested_of_backslash? {l : Lexeme} (h : backslash? cs = some (l, n))
    (hnested : Nested strict opens ('\\' :: cs)) : (∃ r, l = .atom r) ∧ Nested strict opens (cs.drop n) := by
  obtain ⟨d, more, rfl, hd, hmore⟩ := hnested.of_backslash
  have hletter : d ∉ ['A', 'z', 'b', 'B'] := fun hmem => not_escapable hmem hd
  rw [backslash?.eq_def] at h
  split at h
  case h_5 heq =>
    obtain ⟨rfl, rfl⟩ := List.cons.inj heq
    rw [letterClass?_escapable hd] at h
    obtain ⟨⟨e, m⟩, hescape, h⟩ := Option.map_eq_some_iff.1 h
    obtain ⟨rfl, rfl⟩ := Prod.mk.inj h
    exact ⟨⟨_, rfl⟩, hmore.drop_escape (escape?_takesDigits hd hescape)⟩
  case h_6 heq => simp at heq
  all_goals
    next heq =>
      obtain ⟨rfl, -⟩ := List.cons.inj heq
      simp at hletter

theorem keepsBrackets : dialect.KeepsBrackets true where
  class? := outside_of_class?
  count? := nested_of_count?
  backslash? := nested_of_backslash?

end Readers

end Automaton

namespace Backtracking

section Readers

variable {strict : Bool} {opens : List Bracket} {c d : Char} {cs rest : List Char} {n : Nat}

/-- A class with the given items, of which the class after its opening bracket is subtracted. What stands before
that class has taken `n` characters. -/
def subtraction? (items : List (Char × Char)) (rest : List Char) (n : Nat) : Option ClassBody :=
  (classBody? true none (rest.drop (negation rest))).bind fun inner =>
    if (rest.drop (negation rest + inner.used)).head? ≠ some ']' then none
    else some ⟨items, some (inner.toSet (negation rest == 1)), n + (negation rest + inner.used) + 1⟩

/-- A class from the character `d` on, which is written as `c` and `n` characters more. -/
def afterItem? (first : Bool) (pending : Option Char) (c d : Char) (more : List Char) (n : Nat) : Option ClassBody :=
  match pending with
  | some lo =>
    if c = '[' && !first then subtraction? [(lo, lo)] more (1 + n)
    else if d.toNat < lo.toNat then none
    else (classBody? false none more).map (·.after [(lo, d)] (1 + n))
  | none =>
    if more.head? = some '-' && (more.drop 1).head?.any (· != ']') then
      (classBody? false (some d) (more.drop 1)).map (·.after [] (2 + n))
    else if c = '-' && !first && more.head? = some '[' then subtraction? [] (more.drop 1) (2 + n)
    else (classBody? false none more).map (·.after [(d, d)] (1 + n))

/-- The character that begins with `c`, and how many characters more an escape or the name of a class takes. -/
def item? (pending : Option Char) (c : Char) (rest : List Char) : Option (Char × Nat) :=
  if c = '\\' && !rest.isEmpty then escape? rest
  else if c = '[' && pending.isNone then some (c, (skippedName? rest).getD 0)
  else some (c, 0)

theorem classBody?_cons (first : Bool) (pending : Option Char) (c : Char) (rest : List Char) :
    classBody? first pending (c :: rest) =
      if c = ']' then some ⟨[], none, 1⟩
      else if c = '\\' && !rest.isEmpty && rest.head? = some '-' then
        (classBody? false pending (rest.drop 1)).map (·.after [('-', '-')] 2)
      else
        (if c = '\\' && !rest.isEmpty then rest.head?.bind letterClass? else none).elim
          ((item? pending c rest).bind fun p => afterItem? first pending c p.1 (rest.drop p.2) p.2)
          fun items =>
            if pending.isSome then none
            else (classBody? false none (rest.drop 1)).map (·.after items 2) := by
  -- the hyphen before the class that is subtracted is one of the characters before it
  have hhyphen : ∀ more n, subtraction? [] (List.drop 1 more) (2 + n) =
      (classBody? true none (more.drop (1 + negation (more.drop 1)))).bind fun inner =>
        if (more.drop (1 + negation (more.drop 1) + inner.used)).head? ≠ some ']' then none
        else some ⟨[], some (inner.toSet (negation (more.drop 1) == 1)),
          1 + n + (1 + negation (more.drop 1) + inner.used) + 1⟩ := by
    intro more n
    simp only [subtraction?, List.drop_drop]
    congr 1
    funext inner
    have hdrop : 1 + (negation (more.drop 1) + inner.used) = 1 + negation (more.drop 1) + inner.used := by omega
    have hused : 2 + n + (negation (more.drop 1) + inner.used) + 1 =
        1 + n + (1 + negation (more.drop 1) + inner.used) + 1 := by omega
    rw [hdrop, hused]
  rw [classBody?.eq_def]
  dsimp only
  split
  . rfl
  . split
    . rfl
    . cases hletter : if c = '\\' && !rest.isEmpty then rest.head?.bind letterClass? else none with
      | some items => rfl
      | none =>
        rw [item?, Option.elim_none]
        dsimp only [afterItem?]
        simp only [hhyphen]
        by_cases hescaped : (c = '\\' && !rest.isEmpty) = true
        . rw [if_pos hescaped, if_pos hescaped]
          rfl
        . rw [if_neg hescaped, if_neg hescaped]
          split <;> rfl

theorem escape?_takesDigits (hd : Escapable d) (h : escape? (d :: rest) = some (c, n)) : TakesDigits rest n := by
  obtain hspecial | hletter | hdigit := hd
  . rw [Automaton.mem_specialChars] at hspecial
    obtain rfl | rfl | rfl | rfl | rfl | rfl | rfl | rfl | rfl | rfl | rfl | rfl | rfl | rfl | rfl := hspecial
    all_goals
      rw [← (Prod.mk.inj (Option.some.inj h)).2]
      exact .one rest
  . simp only [List.mem_cons, List.not_mem_nil, or_false] at hletter
    obtain rfl | rfl | rfl := hletter
    all_goals
      rw [← (Prod.mk.inj (Option.some.inj h)).2]
      exact .one rest
  . obtain ⟨e, ds, hescape, hds⟩ := escape?_digit hdigit rest
    rw [hescape, Option.some.injEq, Prod.mk.injEq] at h
    exact ⟨ds, h.2.symm, hds⟩

theorem letterClass?_escapable (hd : Escapable d) : letterClass? d = none := by
  rw [letterClass?.eq_def]
  split
  case h_7 => rfl
  all_goals exact absurd hd (by decide)

theorem inside_of_skippedName? (h : skippedName? rest = some n) (hinside : Inside strict opens ('[' :: rest)) :
    Inside strict opens (rest.drop n) := by
  rw [skippedName?.eq_def] at h
  split at h
  . next more =>
    dsimp only at h
    generalize hsign : (if more.length > 1 && more.head? = some '^' then 1 else 0) = sign at h
    split at h
    . next after hafter =>
      obtain rfl := Option.some.inj h
      generalize hword : ((more.drop sign).takeWhile isWordChar).length = word at hafter ⊢
      have hplain : ∀ c ∈ more.take (sign + word), c ∉ structureChars := by
        rw [List.take_add, List.forall_mem_append]
        constructor
        . rw [← hsign]
          split
          . next hhead =>
            rw [Bool.and_eq_true, decide_eq_true_eq, decide_eq_true_eq] at hhead
            obtain ⟨base, rfl⟩ := List.head?_eq_some_iff.1 hhead.2
            simp [structureChars]
          . simp
        . rw [← hword, ← List.prefix_iff_eq_take.1 (List.takeWhile_prefix _)]
          intro c hc hmem
          have hstructure : structureChars.all fun c => !isWordChar c := by decide
          have hwordChar := List.all_eq_true.1 List.all_takeWhile c hc
          have hplain := List.all_eq_true.1 hstructure c hmem
          rw [hwordChar] at hplain
          contradiction
      rw [← List.take_append_drop (sign + word) more, hafter] at hinside
      have hrest := hinside.of_named hplain
      rw [List.drop_succ_cons, ← List.drop_drop, hafter]
      exact hrest
    . simp at h
  . simp at h

theorem inside_of_item? {pending : Option Char} (hclose : c ≠ ']') (h : item? pending c rest = some (d, n))
    (hinside : Inside strict opens (c :: rest)) : Inside strict opens (rest.drop n) := by
  rw [item?] at h
  split at h
  . next hescaped =>
    rw [Bool.and_eq_true, decide_eq_true_eq] at hescaped
    rw [hescaped.1] at hinside
    obtain ⟨e, more, rfl, he, hmore⟩ := hinside.of_backslash
    exact hmore.drop_escape (escape?_takesDigits he h)
  . next hescaped =>
    have hc : c ≠ '\\' := by
      rintro rfl
      obtain ⟨e, more, rfl, -, -⟩ := hinside.of_backslash
      exact hescaped rfl
    split at h
    . next hopen =>
      rw [Bool.and_eq_true, decide_eq_true_eq] at hopen
      obtain ⟨-, rfl⟩ := Prod.mk.inj (Option.some.inj h)
      cases hname : skippedName? rest with
      | none => exact hinside.of_cons hclose hc
      | some k =>
        rw [hopen.1] at hinside
        exact inside_of_skippedName? hname hinside
    . obtain ⟨-, rfl⟩ := Prod.mk.inj (Option.some.inj h)
      exact hinside.of_cons hclose hc

theorem inside_of_negation (h : Inside strict opens rest) : Inside strict opens (rest.drop (negation rest)) := by
  apply h.drop
  rw [negation]
  split
  . next hhead =>
    obtain ⟨more, rfl⟩ := List.head?_eq_some_iff.1 hhead
    simp [structureChars]
  . simp

theorem used_after (b : ClassBody) (items : List (Char × Char)) (k : Nat) : (b.after items k).used = k + b.used := rfl

/-- Classes of at most `k` characters leave all brackets open that were open before them. -/
def LeavesOpen (strict : Bool) (k : Nat) : Prop :=
  ∀ cs first pending opens b, cs.length ≤ k → classBody? first pending cs = some b → Inside strict opens cs →
    Outside strict opens (cs.drop b.used)

theorem LeavesOpen.mono {k l : Nat} (h : LeavesOpen strict l) (hle : k ≤ l) : LeavesOpen strict k :=
  fun cs first pending opens b hlength => h cs first pending opens b (Nat.le_trans hlength hle)

theorem outside_of_subtraction? {items : List (Char × Char)} {b : ClassBody} (hleaves : LeavesOpen strict rest.length)
    (h : subtraction? items rest n = some b) (hinside : Inside strict opens ('[' :: rest)) :
    ∃ used, b.used = n + used ∧ Outside strict opens (rest.drop used) := by
  obtain ⟨inner, hinner, h⟩ := Option.bind_eq_some_iff.1 h
  split at h
  . simp at h
  . next hclose =>
    obtain rfl := Option.some.inj h
    obtain ⟨opens', hsuffix, hnested⟩ := hinside
    have hrest : Inside strict opens' rest := ⟨_, List.suffix_rfl, hnested.of_openSquare.2.2⟩
    have hlength : (rest.drop (negation rest)).length ≤ rest.length := by
      rw [List.length_drop]
      exact Nat.sub_le _ _
    obtain ⟨outer, hsuffix', hend⟩ := hleaves _ _ _ opens' inner hlength hinner (inside_of_negation hrest)
    obtain ⟨after, hafter⟩ := List.head?_eq_some_iff.1 (Decidable.not_not.1 hclose)
    rw [List.drop_drop, hafter] at hend
    have hlast : Inside strict opens (']' :: after) := ⟨outer, hsuffix.trans hsuffix', hend⟩
    refine ⟨negation rest + inner.used + 1, rfl, ?_⟩
    rw [← List.drop_drop, hafter]
    exact hlast.close

theorem outside_of_afterItem? {first : Bool} {pending : Option Char} {b : ClassBody}
    (hleaves : LeavesOpen strict rest.length) (hclose : c ≠ ']') (hitem : item? pending c rest = some (d, n))
    (h : afterItem? first pending c d (rest.drop n) n = some b) (hinside : Inside strict opens (c :: rest)) :
    Outside strict opens ((c :: rest).drop b.used) := by
  have hmore := inside_of_item? hclose hitem hinside
  have hleaves' : ∀ k, LeavesOpen strict (rest.drop k).length := fun k => hleaves.mono (by simp)
  -- what follows the item is read on, and the item itself has taken `n + 1` characters
  have hdrop : ∀ k, (c :: rest).drop (1 + n + k) = (rest.drop n).drop k := by
    intro k
    rw [Nat.add_assoc, Nat.add_comm, List.drop_succ_cons, List.drop_drop]
  have hreads : ∀ {items b}, classBody? false none (rest.drop n) = some b →
      Outside strict opens ((c :: rest).drop (b.after items (1 + n)).used) := by
    intro items b hb
    rw [used_after, hdrop]
    exact hleaves' n _ _ _ _ _ (Nat.le_refl _) hb hmore
  rw [afterItem?.eq_def] at h
  split at h
  . next lo =>
    split at h
    . next hopen =>
      rw [Bool.and_eq_true, decide_eq_true_eq] at hopen
      obtain ⟨rfl, -⟩ := hopen
      obtain rfl : 0 = n := by simpa [item?] using congrArg (Option.map Prod.snd) hitem
      obtain ⟨used, hused, houtside⟩ := outside_of_subtraction? hleaves h hinside
      rw [hused, hdrop]
      exact houtside
    . split at h
      . simp at h
      . obtain ⟨b, hb, rfl⟩ := Option.map_eq_some_iff.1 h
        exact hreads hb
  . have htwo : ∀ k, 2 + n + k = 1 + n + (k + 1) := by omega
    split at h
    . next hhyphen =>
      obtain ⟨b, hb, rfl⟩ := Option.map_eq_some_iff.1 h
      rw [Bool.and_eq_true, decide_eq_true_eq] at hhyphen
      obtain ⟨more, heq⟩ := List.head?_eq_some_iff.1 hhyphen.1
      have hle := hleaves' n
      rw [heq] at hmore hle hb
      rw [used_after, htwo, hdrop, heq]
      exact hle _ _ _ _ _ (Nat.le_succ _) hb (hmore.of_cons (by decide) (by decide))
    . split at h
      . next hopen =>
        rw [Bool.and_eq_true, decide_eq_true_eq] at hopen
        obtain ⟨more, heq⟩ := List.head?_eq_some_iff.1 hopen.2
        have hle := hleaves' n
        rw [heq] at hmore hle h
        obtain ⟨used, hused, houtside⟩ := outside_of_subtraction? (hle.mono (Nat.le_succ _)) h hmore
        rw [hused, htwo, hdrop, heq]
        exact houtside
      . obtain ⟨b, hb, rfl⟩ := Option.map_eq_some_iff.1 h
        exact hreads hb

theorem leavesOpen (strict : Bool) (k : Nat) : LeavesOpen strict k := by
  induction k with
  | zero =>
    intro cs first pending opens b hle h
    obtain rfl := List.eq_nil_of_length_eq_zero (Nat.eq_zero_of_le_zero hle)
    simp [classBody?] at h
  | succ k ih =>
    intro cs first pending opens b hle h hinside
    cases cs with
    | nil => simp [classBody?] at h
    | cons c rest =>
      rw [List.length_cons, Nat.add_le_add_iff_right] at hle
      have hleaves : LeavesOpen strict rest.length := ih.mono hle
      rw [classBody?_cons] at h
      split at h
      . next hc =>
        obtain rfl := Option.some.inj h
        rw [hc] at hinside
        exact hinside.close
      . next hclose =>
        split at h
        . next hescaped =>
          obtain ⟨b, hb, rfl⟩ := Option.map_eq_some_iff.1 h
          rw [Bool.and_eq_true, Bool.and_eq_true, decide_eq_true_eq] at hescaped
          rw [hescaped.1.1] at hinside
          obtain ⟨d, more, rfl, -, hmore⟩ := hinside.of_backslash
          have hrest := hleaves more _ _ _ _ (by simp) hb hmore
          rwa [used_after, Nat.add_comm]
        . have hletter : (if c = '\\' && !rest.isEmpty then rest.head?.bind letterClass? else none) = none := by
            split
            . next hescaped =>
              rw [Bool.and_eq_true, decide_eq_true_eq] at hescaped
              rw [hescaped.1] at hinside
              obtain ⟨d, more, rfl, hd, -⟩ := hinside.of_backslash
              exact letterClass?_escapable hd
            . rfl
          rw [hletter, Option.elim_none] at h
          obtain ⟨⟨d, n⟩, hitem, h⟩ := Option.bind_eq_some_iff.1 h
          exact outside_of_afterItem? hleaves hclose hitem h hinside

theorem outside_of_class? {s : CharSet} (h : class? rest = some (s, n)) (hnested : Nested strict opens ('[' :: rest)) :
    Outside strict opens (rest.drop n) := by
  have hinside : Inside strict opens rest := ⟨_, List.suffix_rfl, hnested.of_openSquare.2.2⟩
  rw [class?] at h
  obtain ⟨b, hb, heq⟩ := Option.map_eq_some_iff.1 h
  obtain ⟨-, rfl⟩ := Prod.mk.inj heq
  rw [← List.drop_drop]
  exact leavesOpen strict _ _ _ _ _ _ (Nat.le_refl _) hb (inside_of_negation hinside)

theorem nested_of_count? {min : Nat} {max : Option Nat} (h : count? cs = some (min, max, n))
    (hnested : Nested strict opens cs) : Nested strict opens (cs.drop n) := by
  have hafter := hnested.drop_digits
  rw [count?] at h
  dsimp only at h
  rw [digits] at h
  split at h
  . simp at h
  . split at h
    . next hdrop =>
      obtain ⟨-, -, rfl⟩ : _ ∧ _ ∧ (cs.takeWhile Char.isDigit).length + 1 = n := by simpa using h
      rw [hdrop] at hafter
      rw [← List.drop_drop, hdrop]
      exact hafter.of_plain (by decide)
    . next more hdrop =>
      rw [hdrop] at hafter
      have hlast := (hafter.of_plain (by decide)).drop_digits
      rw [digits] at h
      split at h
      . next hdrop' =>
        obtain ⟨-, -, rfl⟩ : _ ∧ _ ∧
            (cs.takeWhile Char.isDigit).length + (more.takeWhile Char.isDigit).length + 2 = n := by simpa using h
        rw [hdrop'] at hlast
        rw [Nat.add_assoc, ← List.drop_drop, hdrop, List.drop_succ_cons, ← List.drop_drop, hdrop']
        exact hlast.of_plain (by decide)
      . simp at h
    . simp at h

theorem takesDigits_digits (hd : d.isDigit) (rest : List Char) : TakesDigits rest (digits (d :: rest)).length := by
  refine ⟨rest.takeWhile Char.isDigit, ?_, List.prefix_rfl⟩
  rw [digits, List.takeWhile_cons, if_pos hd, List.length_cons]

theorem nested_of_backslash? {groups : Nat} {l : Lexeme} (h : backslash? groups cs = some (l, n))
    (hnested : Nested strict opens ('\\' :: cs)) : (∃ r, l = .atom r) ∧ Nested strict opens (cs.drop n) := by
  obtain ⟨d, more, rfl, hd, hmore⟩ := hnested.of_backslash
  have hletter : d ∉ ['A', 'z', 'b', 'B'] := fun hmem => not_escapable hmem hd
  rw [backslash?.eq_def] at h
  split at h
  case h_5 heq =>
    obtain ⟨rfl, rfl⟩ := List.cons.inj heq
    rw [letterClass?_escapable hd] at h
    dsimp only at h
    split at h
    . simp at h
    . split at h
      . next hrefers =>
        rw [Bool.and_eq_true, Bool.and_eq_true] at hrefers
        obtain ⟨rfl, rfl⟩ := Prod.mk.inj (Option.some.inj h)
        exact ⟨⟨_, rfl⟩, hmore.drop_escape (takesDigits_digits hrefers.1.1 more)⟩
      . obtain ⟨⟨e, m⟩, hescape, h⟩ := Option.map_eq_some_iff.1 h
        obtain ⟨rfl, rfl⟩ := Prod.mk.inj h
        exact ⟨⟨_, rfl⟩, hmore.drop_escape (escape?_takesDigits hd hescape)⟩
  case h_6 heq => simp at heq
  all_goals
    next heq =>
      obtain ⟨rfl, -⟩ := List.cons.inj heq
      simp at hletter

theorem keepsBrackets (groups : Nat) (strict : Bool) : (dialect groups).KeepsBrackets strict where
  class? := outside_of_class?
  count? := nested_of_count?
  backslash? := nested_of_backslash?

end Readers

end Backtracking

end VerboseExpr.Regex
