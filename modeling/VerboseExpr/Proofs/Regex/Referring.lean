import VerboseExpr.Proofs.Regex.Flatten
import VerboseExpr.Proofs.Regex.Literal
import VerboseExpr.Proofs.Regex.Reading

namespace VerboseExpr.Regex.Backtracking

open Automaton (extend)

section Lexemes

variable {groups : Nat} {c : Char} {more k : List Char}

theorem lexemes?_cons {l : Lexeme} (h : lexeme? groups c (more ++ k) = some (l, more.length)) :
    lexemes? groups (c :: (more ++ k)) = (lexemes? groups k).map (l :: ·) := by
  rw [lexemes?, h]
  simp only [Option.bind_eq_bind, Option.bind_some, List.drop_left]
  cases lexemes? groups k with
  | none => rfl
  | some ls => rfl

theorem lexemes?_refused (h : lexeme? groups c k = none) : lexemes? groups (c :: k) = none := by
  rw [lexemes?, h]
  rfl

theorem lexemes?_escapeChar (groups : Nat) (c : Char) (k : List Char) :
    lexemes? groups (Pattern.escapeChar c ++ k) = (lexemes? groups k).map (.atom (.char c) :: ·) := by
  rw [Pattern.escapeChar]
  split
  . next h =>
    have hlex : lexeme? groups '\\' ([c] ++ k) = some (.atom (.char c), [c].length) := lexeme?_special h groups k
    exact lexemes?_cons hlex
  . next h =>
    have hlex : lexeme? groups c ([] ++ k) = some (.atom (.char c), ([] : List Char).length) :=
      lexeme?_ordinary h groups k
    exact lexemes?_cons hlex

theorem lexemes?_text (groups : Nat) (cs k : List Char) :
    lexemes? groups (cs.flatMap Pattern.escapeChar ++ k) = (lexemes? groups k).map (textLexemes cs ++ ·) := by
  induction cs with
  | nil =>
    rw [List.flatMap_nil, List.nil_append]
    cases lexemes? groups k <;> rfl
  | cons c cs ih =>
    rw [List.flatMap_cons, List.append_assoc, lexemes?_escapeChar, ih, Option.map_map]
    rfl

theorem head?_escaped_ne (cs : List Char) (k : List Char) :
    (cs.flatMap Pattern.escapeChar ++ ')' :: k).head? ≠ some '?' := by
  cases cs with
  | nil => simp
  | cons c cs =>
    obtain ⟨d, more, heq, hd, -⟩ := Automaton.lexeme?_escapeChar c
    rw [List.flatMap_cons, heq]
    simpa using hd

theorem lexemes?_open (groups : Nat) {k : List Char} (hk : k.head? ≠ some '?') :
    lexemes? groups ('(' :: k) = (lexemes? groups k).map (.openGroup true :: ·) := by
  have hlex : lexeme? groups '(' ([] ++ k) = some (.openGroup true, ([] : List Char).length) := by
    rw [List.nil_append, lexeme?]
    . rfl
    . rintro rest rfl
      simp at hk
    . rintro rest rfl
      simp at hk
  exact lexemes?_cons hlex

theorem lexemes?_close (groups : Nat) (k : List Char) :
    lexemes? groups (')' :: k) = (lexemes? groups k).map (.closeGroup :: ·) := by
  have hlex : lexeme? groups ')' ([] ++ k) = some (.closeGroup, ([] : List Char).length) := rfl
  exact lexemes?_cons hlex

end Lexemes

section Builder

/-- The lexemes add some units to a pattern with `n` groups, which has `m` groups then. -/
structure Builds (n m : Nat) (ls : List Lexeme) (us : List Regex) : Prop where
  count : m = n + groupCount ls
  build : ∀ b : Builder, b.groups = n → ∃ q, ls.foldlM Builder.step b = some (extend b us q m)

variable {n l m : Nat} {ls ls' : List Lexeme} {us us' : List Regex}

theorem builds_nil (n : Nat) : Builds n n [] [] where
  count := rfl
  build := by
    rintro b rfl
    exact ⟨b.current.repeatable, rfl⟩

theorem Builds.append (h : Builds n l ls us) (h' : Builds l m ls' us') :
    Builds n m (ls ++ ls') (us ++ us') where
  count := by rw [h'.count, h.count, groupCount, groupCount, groupCount, List.countP_append, Nat.add_assoc]
  build := by
    intro b hb
    obtain ⟨q, hq⟩ := h.build b hb
    obtain ⟨q', hq'⟩ := h'.build (extend b us q l) rfl
    refine ⟨q', ?_⟩
    rw [List.foldlM_append, hq, Option.bind_eq_bind, Option.bind_some, hq']
    simp [extend]

theorem builds_atom (n : Nat) (r : Regex) : Builds n n [.atom r] [r] where
  count := rfl
  build := by
    rintro b rfl
    exact ⟨true, rfl⟩

theorem builds_text (n : Nat) (cs : List Char) : Builds n n (textLexemes cs) (cs.map .char) := by
  induction cs with
  | nil => exact builds_nil n
  | cons c cs ih => exact (builds_atom n (.char c)).append ih

theorem Builds.group (h : Builds (n + 1) m ls us) :
    Builds n m (.openGroup true :: (ls ++ [Lexeme.closeGroup])) [.group (n + 1) (concat us)] where
  count := by
    rw [h.count, groupCount, groupCount]
    simp
    omega
  build := by
    rintro b rfl
    obtain ⟨q, hq⟩ := h.build { current := { index := some (b.groups + 1) }, around := b.current :: b.around,
                                groups := b.groups + 1 } rfl
    refine ⟨true, ?_⟩
    rw [List.foldlM_cons, Builder.step, Option.bind_eq_bind, Option.bind_some, List.foldlM_append, hq]
    simp [Builder.step, extend, Frame.push, Frame.unit, Frame.body, Frame.alternative, choice]

theorem Builds.ofLexemes? (h : Builds 0 m ls us) : Regex.ofLexemes? ls = some (concat us) := by
  obtain ⟨q, hq⟩ := h.build {} rfl
  rw [Regex.ofLexemes?, hq]
  simp [extend, Frame.body, Frame.alternative, choice]

end Builder

section Digits

variable {groups : Nat} {d : Char} {rest : List Char}

theorem letterClass?_digit (hd : d.isDigit) : letterClass? d = none := by
  rw [letterClass?.eq_def]
  split
  case h_7 => rfl
  all_goals exact absurd hd (by decide)

theorem lexeme?_digit (hd : d.isDigit) (groups : Nat) (rest : List Char) :
    lexeme? groups '\\' (d :: rest) =
      if d ≠ '0' ∧ maxNumber < decimal (digits (d :: rest)) then none
      else if d ≠ '0' ∧ decimal (digits (d :: rest)) ≤ groups then
        some (.atom (.reference (decimal (digits (d :: rest)))), (digits (d :: rest)).length)
      else (escape? (d :: rest)).map fun (c, n) => (.atom (.char c), n) := by
  show backslash? groups (d :: rest) = _
  rw [backslash?.eq_def]
  split
  case h_5 heq =>
    obtain ⟨rfl, -⟩ := List.cons.inj heq
    simp [letterClass?_digit hd, hd]
  case h_6 heq => simp at heq
  all_goals
    next heq =>
      obtain ⟨rfl, -⟩ := List.cons.inj heq
      exact absurd hd (by decide)

theorem le_foldl_decimal (n : Nat) (ds : List Char) :
    n ≤ ds.foldl (fun n d => 10 * n + (d.toNat - '0'.toNat)) n := by
  induction ds generalizing n with
  | nil => exact Nat.le_refl n
  | cons d ds ih =>
    rw [List.foldl_cons]
    have := ih (10 * n + (d.toNat - '0'.toNat))
    omega

theorem ten_le_decimal {e : Char} {ds : List Char} (hd : d.isDigit) (hzero : d ≠ '0') :
    10 ≤ decimal (d :: e :: ds) := by
  have hle := le_foldl_decimal (10 * (d.toNat - '0'.toNat) + (e.toNat - '0'.toNat)) ds
  have hdigit := Char.isDigit_iff_toNat.1 hd
  have hne : d.toNat ≠ '0'.toNat := fun h => hzero (Char.toNat_inj.1 h)
  have hpos : 1 ≤ d.toNat - '0'.toNat := by omega
  have hdecimal : decimal (d :: e :: ds) = ds.foldl (fun n d => 10 * n + (d.toNat - '0'.toNat))
      (10 * (d.toNat - '0'.toNat) + (e.toNat - '0'.toNat)) := by
    rw [decimal, List.foldl_cons, List.foldl_cons, Nat.mul_zero, Nat.zero_add]
  omega

theorem isDigit_of_isOctal (h : isOctal d) : d.isDigit := by
  rw [isOctal, Bool.and_eq_true, decide_eq_true_eq, decide_eq_true_eq] at h
  have hle : d.toNat ≤ '7'.toNat := h.2
  exact Char.isDigit_iff_toNat.2 ⟨h.1, Nat.le_trans hle (by decide)⟩

theorem prefix_takeWhile_of_all {p : Char → Bool} {cs ds : List Char} (h : cs <+: ds) (hall : ∀ x ∈ cs, p x) :
    cs <+: ds.takeWhile p := by
  obtain ⟨more, rfl⟩ := h
  rw [List.takeWhile_append_of_pos hall]
  exact List.prefix_append cs _

theorem exists_octalDigits (hd : isOctal d) (rest : List Char) :
    ∃ ds, octalDigits (d :: rest) = d :: ds ∧ ds <+: rest.takeWhile Char.isDigit := by
  have hsplit : ((d :: rest).take 3).takeWhile isOctal = d :: (rest.take 2).takeWhile isOctal := by
    rw [List.take_succ_cons, List.takeWhile_cons, if_pos hd]
  have hall : ∀ x ∈ (rest.take 2).takeWhile isOctal, x.isDigit := by
    intro x hx
    exact isDigit_of_isOctal (List.all_eq_true.1 List.all_takeWhile x hx)
  have hdigits := prefix_takeWhile_of_all ((List.takeWhile_prefix isOctal).trans (List.take_prefix 2 rest)) hall
  simp only [octalDigits, hsplit]
  split
  . exact ⟨_, rfl, (List.take_prefix 1 _).trans hdigits⟩
  . exact ⟨_, rfl, hdigits⟩

theorem escape?_digit (hd : d.isDigit) (rest : List Char) :
    ∃ c ds, escape? (d :: rest) = some (c, ds.length + 1) ∧ ds <+: rest.takeWhile Char.isDigit := by
  rw [escape?.eq_def]
  dsimp only
  split
  . next hoctal =>
    obtain ⟨ds, heq, hds⟩ := exists_octalDigits hoctal rest
    rw [heq]
    exact ⟨_, ds, rfl, hds⟩
  . split
    case h_12 => exact ⟨d, [], rfl, List.nil_prefix⟩
    all_goals exact absurd hd (by decide)

/-- What a backslash with digits is read as: a reference to a group that exists, or else a character. -/
def Denotes (groups : Nat) (d : Char) (rest : List Char) (u : Regex) : Prop :=
  if d ≠ '0' ∧ decimal (digits (d :: rest)) ≤ groups then u = .reference (decimal (digits (d :: rest)))
  else ∃ c, u = .char c

theorem Denotes.members_eq {u : Regex} (h : Denotes groups d rest u) : members u = [u] := by
  rw [Denotes] at h
  split at h
  . rw [h]
    rfl
  . obtain ⟨c, rfl⟩ := h
    rfl

theorem exists_lexeme?_digit (hd : d.isDigit) (groups : Nat)
    (hsmall : d ≠ '0' → decimal (digits (d :: rest)) ≤ maxNumber) :
    ∃ u ds, Denotes groups d rest u ∧ ds <+: rest.takeWhile Char.isDigit ∧
      lexeme? groups '\\' (d :: rest) = some (.atom u, ds.length + 1) := by
  rw [lexeme?_digit hd, if_neg (fun h => Nat.not_le_of_lt h.2 (hsmall h.1))]
  split
  . next hexists =>
    refine ⟨.reference (decimal (digits (d :: rest))), rest.takeWhile Char.isDigit, ?_, List.prefix_rfl, ?_⟩
    . rw [Denotes, if_pos hexists]
    . rw [digits, List.takeWhile_cons, if_pos hd, List.length_cons]
  . next hnone =>
    obtain ⟨c, ds, hescape, hds⟩ := escape?_digit hd rest
    refine ⟨.char c, ds, ?_, hds, ?_⟩
    . rw [Denotes, if_neg hnone]
      exact ⟨c, rfl⟩
    . rw [hescape]
      rfl

theorem exists_lexemes?_digit (hd : d.isDigit) (groups : Nat)
    (hsmall : d ≠ '0' → decimal (digits (d :: rest)) ≤ maxNumber) :
    ∃ u ds, Denotes groups d rest u ∧ ds <+: rest.takeWhile Char.isDigit ∧
      ∀ k, rest = ds ++ k → lexemes? groups ('\\' :: d :: rest) = (lexemes? groups k).map (.atom u :: ·) := by
  obtain ⟨u, ds, hu, hds, hlex⟩ := exists_lexeme?_digit hd groups hsmall
  refine ⟨u, ds, hu, hds, ?_⟩
  rintro k rfl
  have hatom : lexeme? groups '\\' ((d :: ds) ++ k) = some (.atom u, (d :: ds).length) := hlex
  exact lexemes?_cons hatom

end Digits

section Whole

theorem read?_ofChars (cs : List Char) :
    read? (Bytes.ofChars cs) = (lexemes? 0 cs).bind fun first =>
      (lexemes? (groupCount first) cs).bind ofLexemes? := by
  rw [read?, Utf8.decode_ofChars]
  rfl

theorem flatMap_members {us : List Regex} (h : ∀ u ∈ us, members u = [u]) : us.flatMap members = us := by
  induction us with
  | nil => rfl
  | cons u us ih =>
    rw [List.forall_mem_cons] at h
    rw [List.flatMap_cons, h.1, ih h.2]
    rfl

theorem concat_inj {us rs : List Regex} (hus : ∀ u ∈ us, members u = [u]) (hrs : ∀ r ∈ rs, members r = [r]) :
    concat us = concat rs ↔ us = rs := by
  constructor
  . intro heq
    have hmembers := congrArg members heq
    rwa [members_concat, members_concat, flatMap_members hus, flatMap_members hrs] at hmembers
  . rintro rfl
    rfl

theorem read?_iff {cs : List Char} {m : Nat} {rs : List Regex} {right : Bool} (hrs : ∀ r ∈ rs, members r = [r])
    (h : ∀ g, right = false ∧ lexemes? g cs = none ∨
      ∃ ls us, lexemes? g cs = some ls ∧ Builds 0 m ls us ∧ (∀ u ∈ us, members u = [u]) ∧
        (m ≤ g → (us = rs ↔ right))) :
    (read? (Bytes.ofChars cs)).map flatten = some (concat rs) ↔ right := by
  rw [read?_ofChars]
  -- the pattern is read twice, the first time only to count its groups
  obtain ⟨hright, hnone⟩ | ⟨first, _, hfirst, hbuilds, -, -⟩ := h 0
  . simp [hnone, hright]
  . have hcount : groupCount first = m := by
      rw [hbuilds.count, Nat.zero_add]
    rw [hfirst, Option.bind_some, hcount]
    obtain ⟨hright, hnone⟩ | ⟨ls, us, hlex, hbuilds, hus, hunits⟩ := h m
    . simp [hnone, hright]
    . rw [hlex, Option.bind_some, hbuilds.ofLexemes?, Option.map_some, Option.some.injEq, flatten, members_concat,
        flatMap_members hus, concat_inj hus hrs]
      exact hunits (Nat.le_refl m)

end Whole

end VerboseExpr.Regex.Backtracking
