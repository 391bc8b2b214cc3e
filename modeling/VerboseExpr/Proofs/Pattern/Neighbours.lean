import VerboseExpr.Proofs.Compilation.Append
import VerboseExpr.Proofs.Pattern.Correct
import VerboseExpr.Proofs.Regex.Referring

/-!
References between texts and groups. A reference is written as a backslash and digits with nothing after them,
so that its pattern depends on its neighbour. Main statement: the backtracking engine reads a concatenation of
texts, groups and references as what it denotes exactly if no reference stands before a digit and none is
written with a leading zero.
-/

namespace VerboseExpr.Pattern

open Element Regex Regex.Backtracking
open Regex.Automaton (not_mem_specialChars_digit)

inductive Part where
  | text (cs : List Char)
  /-- A group around a text. -/
  | group (cs : List Char)
  /-- A reference with its index, which is quoted or not. -/
  | reference (index : List Char) (quoted : Bool)
  deriving DecidableEq, Repr

namespace Part

def indexElement (index : List Char) (quoted : Bool) : Element :=
  if quoted then literal (Bytes.ofChars index) else command (Bytes.ofChars index) []

def element : Part → Element
  | text cs => literal (Bytes.ofChars cs)
  | group cs => command "group" [literal (Bytes.ofChars cs)]
  | reference index quoted => command "refer" [indexElement index quoted]

def groups : List Part → Nat
  | [] => 0
  | group _ :: rest => groups rest + 1
  | _ :: rest => groups rest

/-- Is every index the number, from one to nine, of one of the groups before it, of which `n` come before all
parts? -/
def referable (n : Nat) : List Part → Bool
  | [] => true
  | text _ :: rest => referable n rest
  | group _ :: rest => referable (n + 1) rest
  | reference index _ :: rest =>
    index.all Char.isDigit && 1 ≤ decimal index && decimal index ≤ 9 && decimal index ≤ n && referable n rest

def beginsDigit : List Part → Bool
  | text [] :: rest => beginsDigit rest
  | text (c :: _) :: _ => c.isDigit
  | _ => false

/-- Is every index a single digit without another digit after it? -/
def clear : List Part → Bool
  | [] => true
  | reference index _ :: rest => index.length == 1 && !beginsDigit rest && clear rest
  | _ :: rest => clear rest

def chars : Part → List Char
  | text cs => cs.flatMap escapeChar
  | group cs => '(' :: (cs.flatMap escapeChar ++ [')'])
  | reference index _ => '\\' :: index

def charsAll (ps : List Part) : List Char := ps.flatMap chars

/-- The length of the pattern of some parts, where every part counts once more. -/
def size (ps : List Part) : Nat := ps.length + (charsAll ps).length

/-- What some parts after `n` groups denote, unit by unit. -/
def units (n : Nat) : List Part → List Regex
  | [] => []
  | text cs :: rest => cs.map .char ++ units n rest
  | group cs :: rest => .group (n + 1) (Regex.text cs) :: units (n + 1) rest
  | reference index _ :: rest => .reference (decimal index) :: units n rest

section Reading

variable {n i g : Nat} {k : List Char}

@[simp]
theorem charsAll_cons (p : Part) (ps : List Part) : charsAll (p :: ps) = p.chars ++ charsAll ps := rfl

theorem size_cons (p : Part) (ps : List Part) : size (p :: ps) = p.chars.length + 1 + size ps := by
  rw [size, size, charsAll_cons, List.length_cons, List.length_append]
  omega

theorem escapeChar_digit {c : Char} (hc : c.isDigit) : escapeChar c = [c] := by
  rw [escapeChar, if_neg (not_mem_specialChars_digit hc)]

theorem head?_escapeChar (c : Char) (cs : List Char) :
    (escapeChar c ++ cs).head?.any Char.isDigit = c.isDigit := by
  cases hc : c.isDigit with
  | true =>
    rw [escapeChar_digit hc]
    exact hc
  | false =>
    rw [escapeChar]
    split
    . rfl
    . exact hc

theorem head?_charsAll {ps : List Part} (hk : k.head?.any Char.isDigit = false) :
    (charsAll ps ++ k).head?.any Char.isDigit = beginsDigit ps := by
  fun_induction beginsDigit ps with
  | case1 rest ih => exact ih
  | case2 c cs rest =>
    rw [charsAll_cons, chars, List.flatMap_cons, List.append_assoc, List.append_assoc, head?_escapeChar]
  | case3 ps hnil hcons =>
    obtain _ | ⟨(_ | ⟨c, cs⟩) | _ | _, rest⟩ := ps
    . exact hk
    . exact absurd rfl (hnil rest)
    . exact absurd rfl (hcons c cs rest)
    . rfl
    . rfl

theorem exists_drop_digit {d : Char} {cs : List Char} {ps : List Part} (hk : k.head?.any Char.isDigit = false)
    (hd : d.isDigit) (hcs : charsAll ps ++ k = d :: cs) (hps : referable n ps) :
    ∃ ps', cs = charsAll ps' ++ k ∧ referable n ps' ∧ groups ps' = groups ps ∧
      size ps' ≤ size ps := by
  have hbegins : beginsDigit ps := by
    rw [← head?_charsAll hk, hcs]
    exact hd
  fun_induction beginsDigit ps with
  | case1 rest ih =>
    obtain ⟨ps', hcs', hps', hgroups, hlength⟩ := ih hcs hps hbegins
    refine ⟨ps', hcs', hps', hgroups, Nat.le_trans hlength ?_⟩
    rw [size_cons]
    omega
  | case2 c rest ps =>
    rw [charsAll_cons, chars, List.flatMap_cons, escapeChar_digit hbegins] at hcs
    obtain ⟨-, rfl⟩ := List.cons.inj hcs
    refine ⟨text rest :: ps, rfl, hps, rfl, ?_⟩
    rw [size_cons, size_cons, chars, chars, List.flatMap_cons, List.length_append]
    omega
  | case3 => contradiction

theorem exists_drop_digits {ds : List Char} {ps : List Part} (hk : k.head?.any Char.isDigit = false)
    (hds : ds <+: (charsAll ps ++ k).takeWhile Char.isDigit) (hps : referable n ps) :
    ∃ ps', charsAll ps ++ k = ds ++ (charsAll ps' ++ k) ∧ referable n ps' ∧ groups ps' = groups ps ∧
      size ps' ≤ size ps := by
  induction ds generalizing ps with
  | nil => exact ⟨ps, rfl, hps, rfl, Nat.le_refl _⟩
  | cons d ds ih =>
    cases hcs : charsAll ps ++ k with
    | nil =>
      rw [hcs] at hds
      simp at hds
    | cons c cs =>
      rw [hcs, List.takeWhile_cons] at hds
      split at hds
      . next hc =>
        rw [List.cons_prefix_cons] at hds
        obtain ⟨rfl, hds⟩ := hds
        obtain ⟨ps₁, rfl, hps₁, hgroups₁, hlength₁⟩ := exists_drop_digit hk hc hcs hps
        obtain ⟨ps', hrest, hps', hgroups, hlength⟩ := ih hds hps₁
        refine ⟨ps', by rw [hrest, List.cons_append], hps', by rw [hgroups, hgroups₁], ?_⟩
        exact Nat.le_trans hlength hlength₁
      . simp at hds

/-- How the parts are read before `k`, after `i` groups in a pattern with `g` groups. They are read as some
units, and as the right ones if and only if no reference runs into what follows. They are refused only if one
does. -/
inductive Readable (n i g : Nat) (k : List Char) (ps : List Part) : Prop where
  | refused : clear ps = false → lexemes? g (charsAll ps ++ k) = none → Readable n i g k ps
  | read {ls : List Lexeme} {us : List Regex} :
    lexemes? g (charsAll ps ++ k) = (lexemes? g k).map (ls ++ ·) → Builds i (i + groups ps) ls us →
    (∀ u ∈ us, members u = [u]) → (n + groups ps ≤ g → (us = units i ps ↔ clear ps)) → Readable n i g k ps

theorem readable_nil (n i g : Nat) (k : List Char) : Readable n i g k [] := by
  have hnone : lexemes? g k = (lexemes? g k).map ([] ++ ·) := by
    cases lexemes? g k <;> rfl
  apply Readable.read hnone (builds_nil i)
  . simp
  . simp [units, clear]

theorem Readable.cons {p : Part} {rest : List Part} {ls : List Lexeme} {us : List Regex} (own : Nat)
    (h : Readable (n + own) (i + own) g k rest)
    (hlex : lexemes? g (charsAll (p :: rest) ++ k) = (lexemes? g (charsAll rest ++ k)).map (ls ++ ·))
    (hbuilds : Builds i (i + own) ls us) (hus : ∀ u ∈ us, members u = [u])
    (hown : groups (p :: rest) = own + groups rest) (hclear : clear (p :: rest) = clear rest)
    (hunits : n + groups (p :: rest) ≤ g → units i (p :: rest) = us ++ units (i + own) rest) :
    Readable n i g k (p :: rest) := by
  cases h with
  | refused hrest hnone =>
    apply Readable.refused
    . rw [hclear, hrest]
    . rw [hlex, hnone]
      rfl
  | @read ls' us' hlex' hbuilds' hus' hunits' =>
    have hboth : lexemes? g (charsAll (p :: rest) ++ k) = (lexemes? g k).map ((ls ++ ls') ++ ·) := by
      rw [hlex, hlex', Option.map_map]
      congr 1
      funext ls''
      exact (List.append_assoc ls ls' ls'').symm
    have happend := hbuilds.append hbuilds'
    rw [Nat.add_assoc, ← hown] at happend
    apply Readable.read hboth happend
    . rw [List.forall_mem_append]
      exact ⟨hus, hus'⟩
    . intro hg
      rw [hunits hg, List.append_cancel_left_eq, hclear]
      rw [hown, ← Nat.add_assoc] at hg
      exact hunits' hg

theorem Readable.cons_text {rest : List Part} (h : Readable n i g k rest) (cs : List Char) :
    Readable n i g k (.text cs :: rest) := by
  have hlex : lexemes? g (charsAll (.text cs :: rest) ++ k) =
      (lexemes? g (charsAll rest ++ k)).map (textLexemes cs ++ ·) := by
    rw [charsAll_cons, chars, List.append_assoc, lexemes?_text]
  apply Readable.cons 0 h hlex (builds_text i cs)
  . rw [List.forall_mem_map]
    exact fun c _ => rfl
  . exact (Nat.zero_add _).symm
  . rfl
  . intro _
    rfl

theorem members_text (cs : List Char) : members (Regex.text cs) = cs.map .char := by
  rw [Regex.text, members_concat, List.flatMap_map, List.map_eq_flatMap]
  rfl

theorem Readable.cons_group {rest : List Part} (h : Readable (n + 1) (i + 1) g k rest) (cs : List Char) :
    Readable n i g k (.group cs :: rest) := by
  have hchars : charsAll (.group cs :: rest) ++ k =
      '(' :: (cs.flatMap escapeChar ++ ')' :: (charsAll rest ++ k)) := by
    simp [chars]
  have hlex : lexemes? g (charsAll (.group cs :: rest) ++ k) =
      (lexemes? g (charsAll rest ++ k)).map ((Lexeme.openGroup true :: (textLexemes cs ++ [Lexeme.closeGroup])) ++ ·) := by
    rw [hchars, lexemes?_open g (head?_escaped_ne cs _), lexemes?_text, lexemes?_close, Option.map_map,
      Option.map_map]
    congr 1
    funext ls
    simp
  apply Readable.cons 1 h hlex (builds_text (i + 1) cs).group
  . rw [List.forall_mem_singleton, members, members_concat, List.flatMap_map, List.map_eq_flatMap]
    rfl
  . exact Nat.add_comm _ _
  . rfl
  . intro _
    rfl

theorem flatMap_escapeChar_digits {ds : List Char} (hds : ds.all Char.isDigit) : ds.flatMap escapeChar = ds := by
  induction ds with
  | nil => rfl
  | cons d ds ih =>
    rw [List.all_cons, Bool.and_eq_true] at hds
    rw [List.flatMap_cons, escapeChar_digit hds.1, ih hds.2]
    rfl

theorem Readable.cons_reference {d : Char} {rest : List Part} (h : Readable n i g k rest)
    (hk : k.head?.any Char.isDigit = false) (hd : d.isDigit) (hzero : d ≠ '0') (hrest : beginsDigit rest = false)
    (hn : decimal [d] ≤ n) (hnine : decimal [d] ≤ 9) (quoted : Bool) :
    Readable n i g k (reference [d] quoted :: rest) := by
  have hdigits : (charsAll rest ++ k).takeWhile Char.isDigit = [] := by
    rw [← head?_charsAll hk] at hrest
    cases hcs : charsAll rest ++ k with
    | nil => rfl
    | cons c cs =>
      rw [hcs, List.head?_cons, Option.any_some] at hrest
      rw [List.takeWhile_cons, hrest]
      rfl
  have hindex : digits (d :: (charsAll rest ++ k)) = [d] := by
    rw [digits, List.takeWhile_cons, if_pos hd, hdigits]
  obtain ⟨u, ds, hu, hds, hlex⟩ := exists_lexemes?_digit hd g fun _ => by
    rw [hindex]
    exact Nat.le_trans hnine (by decide)
  rw [hdigits, List.prefix_nil] at hds
  subst hds
  have hfirst : lexemes? g (charsAll (reference [d] quoted :: rest) ++ k) =
      (lexemes? g (charsAll rest ++ k)).map ([.atom u] ++ ·) := hlex _ rfl
  apply Readable.cons 0 h hfirst (builds_atom i u)
  . exact List.forall_mem_singleton.2 hu.members_eq
  . exact (Nat.zero_add _).symm
  . simp [clear, hrest]
  . intro hg
    have hle : decimal [d] ≤ g := Nat.le_trans hn (Nat.le_trans (Nat.le_add_right n _) hg)
    rw [Denotes, hindex, if_pos ⟨hzero, hle⟩] at hu
    rw [hu]
    rfl

theorem clear_runOn {d : Char} {ds : List Char} {rest : List Part} (hrest : beginsDigit (.text ds :: rest))
    (quoted : Bool) : clear (reference (d :: ds) quoted :: rest) = false := by
  cases ds with
  | nil =>
    rw [beginsDigit] at hrest
    simp [clear, hrest]
  | cons e ds => simp [clear]

theorem ten_le_runOn {d : Char} {ps : List Part} (hk : k.head?.any Char.isDigit = false) (hd : d.isDigit)
    (hzero : d ≠ '0') (hps : beginsDigit ps) : 10 ≤ decimal (digits (d :: (charsAll ps ++ k))) := by
  rw [← head?_charsAll hk] at hps
  cases hcs : charsAll ps ++ k with
  | nil => simp [hcs] at hps
  | cons e cs =>
    rw [hcs, List.head?_cons, Option.any_some] at hps
    rw [digits, List.takeWhile_cons, if_pos hd, List.takeWhile_cons, if_pos hps]
    exact ten_le_decimal hd hzero

theorem Readable.cons_runOn {d : Char} {ds : List Char} {rest : List Part}
    (h : ∀ ps, size ps ≤ size (.text ds :: rest) → referable n ps → Readable n i g k ps)
    (hk : k.head?.any Char.isDigit = false) (hd : d.isDigit) (hds : ds.all Char.isDigit)
    (hnine : decimal (d :: ds) ≤ 9) (hrest : beginsDigit (.text ds :: rest)) (hps : referable n rest)
    (quoted : Bool) : Readable n i g k (reference (d :: ds) quoted :: rest) := by
  have hchars : charsAll (reference (d :: ds) quoted :: rest) ++ k =
      '\\' :: d :: (charsAll (.text ds :: rest) ++ k) := by
    simp [chars, flatMap_escapeChar_digits hds]
  have hclear := clear_runOn (d := d) hrest quoted
  by_cases hsmall : d ≠ '0' → decimal (digits (d :: (charsAll (.text ds :: rest) ++ k))) ≤ maxNumber
  . obtain ⟨u, es, hu, hes, hlex⟩ := exists_lexemes?_digit hd g hsmall
    obtain ⟨ps', hdrop, hps', hgroups, hsize⟩ := exists_drop_digits hk hes hps
    have hfirst := hlex _ hdrop
    rw [← hchars] at hfirst
    -- the longer number is at least ten, and so not the index that was meant
    have hne : u ≠ .reference (decimal (d :: ds)) := by
      rw [Denotes] at hu
      split at hu
      . next hexists =>
        have hten := ten_le_runOn hk hd hexists.1 hrest
        rw [hu, ne_eq, Regex.reference.injEq]
        omega
      . obtain ⟨c, rfl⟩ := hu
        simp
    cases h ps' hsize hps' with
    | refused _ hnone =>
      apply Readable.refused hclear
      rw [hfirst, hnone]
      rfl
    | @read ls us hlex' hbuilds hus _ =>
      have hboth : lexemes? g (charsAll (reference (d :: ds) quoted :: rest) ++ k) =
          (lexemes? g k).map ((.atom u :: ls) ++ ·) := by
        rw [hfirst, hlex', Option.map_map]
        rfl
      rw [hgroups] at hbuilds
      apply Readable.read hboth ((builds_atom i u).append hbuilds)
      . exact List.forall_mem_cons.2 ⟨hu.members_eq, hus⟩
      . intro _
        simp [units, hne, hclear]
  . -- a number that is too great is refused where it is read
    rw [Classical.not_imp, Nat.not_le] at hsmall
    apply Readable.refused hclear
    rw [hchars]
    apply lexemes?_refused
    rw [lexeme?_digit hd, if_pos hsmall]

theorem readable {ps : List Part} (hk : k.head?.any Char.isDigit = false) (hps : referable n ps) (i : Nat) :
    Readable n i g k ps := by
  induction hm : size ps using Nat.strongRecOn generalizing n i ps with
  | ind m ih =>
    subst hm
    cases ps with
    | nil => exact readable_nil n i g k
    | cons p rest =>
      have hsmaller := size_cons p rest
      cases p with
      | text cs =>
        rw [referable] at hps
        exact (ih (size rest) (by omega) hps i rfl).cons_text cs
      | group cs =>
        rw [referable] at hps
        exact (ih (size rest) (by omega) hps (i + 1) rfl).cons_group cs
      | reference index quoted =>
        simp only [referable, Bool.and_eq_true, decide_eq_true_eq] at hps
        obtain ⟨⟨⟨⟨hdigits, hpos⟩, hnine⟩, hn⟩, hrest⟩ := hps
        cases index with
        | nil => exact absurd hpos (by decide)
        | cons d ds =>
          rw [List.all_cons, Bool.and_eq_true] at hdigits
          cases hbegins : beginsDigit (.text ds :: rest) with
          | true =>
            -- more digits than the index may have: they are read together, whether they belong to it or to a text
            have hsize : size (.text ds :: rest) < size (reference (d :: ds) quoted :: rest) := by
              rw [hsmaller, size_cons, chars, chars, flatMap_escapeChar_digits hdigits.2, List.length_cons,
                List.length_cons]
              omega
            apply Readable.cons_runOn _ hk hdigits.1 hdigits.2 hnine hbegins hrest quoted
            intro ps hle hps
            exact ih (size ps) (by omega) hps i rfl
          | false =>
            cases ds with
            | cons e ds =>
              rw [beginsDigit] at hbegins
              simp [hbegins] at hdigits
            | nil =>
              have hzero : d ≠ '0' := by
                rintro rfl
                exact absurd hpos (by decide)
              have hread := ih (size rest) (by omega) hrest i rfl
              exact hread.cons_reference hk hdigits.1 hzero hbegins hn hnine quoted

end Reading

section Emission

theorem value_indexElement (index : List Char) (quoted : Bool) :
    (indexElement index quoted).value = Bytes.ofChars index := by
  cases quoted with
  | false | true => rfl

theorem fold_singleton (e : Element) : fold [e] = [e] := by
  apply fold_eq_self
  intro x hx
  simp at hx

theorem emit_concatenation {es : List Element} {css : List (List Char)} (hfold : fold es = es)
    (hes : es.mapM emit = .ok (css.map Bytes.ofChars)) :
    emit (command Command.concatenation.name es) = .ok (Bytes.ofChars css.flatten) := by
  have hroot : Command.concatenation.name = rootName := rfl
  rw [hroot, emit_root, hfold, hes, Except.map, flatten_map_ofChars]

theorem emit_group {es : List Element} {css : List (List Char)} (hfold : fold es = es)
    (hes : es.mapM emit = .ok (css.map Bytes.ofChars)) :
    emit (command Command.group.name es) = .ok (Bytes.ofChars ('(' :: (css.flatten ++ [')']))) := by
  have hparts : emitAll Command.group.name 0 0 es = .ok (css.map Bytes.ofChars) := by
    rw [emitAll_zero, hes]
  rw [command, emit_of_ne_literal (by decide), hfold]
  exact assemble_eq (ofName?_name .group) (accepts_atLeast.2 (Nat.zero_le _)) hparts
    (congrArg some (wrap_ofChars "(" ")" css))

theorem emit_element {p : Part} {n : Nat} (h : referable n [p]) : emit p.element = .ok (Bytes.ofChars p.chars) := by
  cases p with
  | text cs => rw [element, Element.literal, emit_literal, escape_ofChars, chars]
  | group cs =>
    have hes : [Element.literal (Bytes.ofChars cs)].mapM emit = .ok ([cs.flatMap escapeChar].map Bytes.ofChars) := by
      rw [List.mapM_cons, Element.literal, emit_literal, escape_ofChars]
      rfl
    have hemit := emit_group (fold_singleton _) hes
    rw [List.flatten_singleton] at hemit
    exact hemit
  | reference index quoted =>
    simp only [referable, Bool.and_eq_true, decide_eq_true_eq] at h
    obtain ⟨⟨⟨⟨hdigits, hpos⟩, -⟩, -⟩, -⟩ := h
    have hne : index ≠ [] := by
      rintro rfl
      exact absurd hpos (by decide)
    have hinteger : isInteger (indexElement index quoted).value := by
      rw [value_indexElement]
      exact isInteger_ofChars hne hdigits
    have hparts : emitAll "refer" 1 0 [indexElement index quoted] = .ok [Bytes.ofChars index] := by
      rw [emitAll_cons_eq_ok_iff]
      refine ⟨Bytes.ofChars index, [], ?_, ?_, rfl⟩
      . rw [operand_of_lt Nat.one_pos]
        exact ⟨hinteger, value_indexElement index quoted⟩
      . rw [emitAll]
    rw [element, command, emit_of_ne_literal (by decide), fold_singleton]
    exact assemble_eq (ofName?_name .reference) rfl hparts rfl

theorem fold_map_element (ps : List Part) : fold (ps.map element) = ps.map element := by
  apply fold_eq_self
  intro e he
  obtain ⟨p, -, rfl⟩ := List.mem_map.1 (List.dropLast_subset _ he)
  cases p with
  | text cs => rfl
  | group cs => exact bareCommand?_of_args_ne_nil (by simp [element, command, args])
  | reference index quoted => exact bareCommand?_of_args_ne_nil (by simp [element, command, args])

theorem referable_of_mem {ps : List Part} {n : Nat} (h : referable n ps) : ∀ p ∈ ps, ∃ m, referable m [p] := by
  fun_induction referable n ps with
  | case1 => simp
  | case2 n cs rest ih => exact List.forall_mem_cons.2 ⟨⟨n, rfl⟩, ih h⟩
  | case3 n cs rest ih => exact List.forall_mem_cons.2 ⟨⟨n, rfl⟩, ih h⟩
  | case4 n index quoted rest ih =>
    rw [Bool.and_eq_true] at h
    refine List.forall_mem_cons.2 ⟨⟨n, ?_⟩, ih h.2⟩
    rw [referable, h.1]
    rfl

theorem mapM_emit_element {ps : List Part} {n : Nat} (h : referable n ps) :
    (ps.map element).mapM emit = .ok ((ps.map chars).map Bytes.ofChars) := by
  have hps := referable_of_mem h
  clear h
  induction ps with
  | nil => rfl
  | cons p ps ih =>
    rw [List.forall_mem_cons] at hps
    obtain ⟨⟨m, hp⟩, hps⟩ := hps
    rw [List.map_cons, List.mapM_cons, emit_element hp, ih hps]
    rfl

theorem denote_text (n : Nat) (cs : List Char) : denote n (literal (Bytes.ofChars cs)) = Regex.text cs := by
  rw [literal, denote, if_pos rfl, Utf8.decode_ofChars]
  rfl

theorem groupCount_text (cs : List Char) : groupCount (literal (Bytes.ofChars cs)) = 0 := by
  rw [literal, groupCount, if_pos rfl]

theorem members_denote (n : Nat) (p : Part) : members (denote n p.element) = units n [p] := by
  cases p with
  | text cs => rw [element, denote_text, members_text, units, units, List.append_nil]
  | group cs =>
    have hname : Command.ofName? (Bytes.ofString "group") = some .group := ofName?_name .group
    have hargs : denoteAll 0 (n + 1) [literal (Bytes.ofChars cs)] = [Regex.text cs] := by
      rw [denoteAll, denoteAll, denote_text]
    have hdenote : denote n (group cs).element = .group (n + 1) (Regex.text cs) := by
      rw [element, command, denote, if_neg (by decide), hname]
      show Regex.group (n + 1) (concat (denoteAll 0 (n + 1) [literal (Bytes.ofChars cs)])) = _
      rw [hargs]
      rfl
    rw [hdenote, members, members_text, units, units]
    rfl
  | reference index quoted =>
    have hname : Command.ofName? (Bytes.ofString "refer") = some .reference := ofName?_name .reference
    have hdenote : denote n (reference index quoted).element = .reference (decimal index) := by
      rw [element, command, denote, if_neg (by decide), hname]
      dsimp only
      rw [meaning, number, value_indexElement, Utf8.decode_ofChars]
    rw [hdenote, members, units, units]

theorem groupCount_element (p : Part) : groupCount p.element = groups [p] := by
  cases p with
  | text cs => exact groupCount_text cs
  | group cs =>
    have hname : Command.ofName? (Bytes.ofString "group") = some .group := ofName?_name .group
    rw [element, command, groupCount, if_neg (by decide), hname]
    show 1 + groupCountAll 0 [literal (Bytes.ofChars cs)] = 1
    rw [groupCountAll, groupCountAll, groupCount_text]
  | reference index quoted =>
    have hname : Command.ofName? (Bytes.ofString "refer") = some .reference := ofName?_name .reference
    rw [element, command, groupCount, if_neg (by decide), hname]
    show 0 + groupCountAll 1 [indexElement index quoted] = 0
    rw [groupCountAll, groupCountAll]

theorem flatMap_members_denoteAll (n : Nat) (ps : List Part) :
    (denoteAll 0 n (ps.map element)).flatMap members = units n ps := by
  induction ps generalizing n with
  | nil => simp [denoteAll, units]
  | cons p ps ih =>
    rw [List.map_cons, denoteAll, List.flatMap_cons, ih, members_denote, groupCount_element]
    cases p with
    | text cs => simp [units, groups]
    | group cs => simp [units, groups]
    | reference index quoted => simp [units, groups]

theorem members_denote_concatenation (ps : List Part) :
    members (denote 0 (command Command.concatenation.name (ps.map element))) = units 0 ps := by
  have hname : Command.ofName? Command.concatenation.name = some .concatenation := by decide
  rw [command, denote, if_neg (by decide), hname, ← flatMap_members_denoteAll]
  exact members_concat _

theorem members_denote_group (ps : List Part) :
    members (denote 0 (command Command.group.name (ps.map element))) = [.group 1 (concat (units 1 ps))] := by
  rw [command, denote, if_neg (by decide), ofName?_name, ← flatMap_members_denoteAll, ← members_concat]
  rfl

end Emission

section Whole

theorem members_of_mem_units (i : Nat) (ps : List Part) : ∀ u ∈ units i ps, members u = [u] := by
  fun_induction units i ps with
  | case1 => simp
  | case2 i cs rest ih =>
    rw [List.forall_mem_append, List.forall_mem_map]
    exact ⟨fun c _ => rfl, ih⟩
  | case3 i cs rest ih =>
    rw [List.forall_mem_cons, members, members_text]
    exact ⟨rfl, ih⟩
  | case4 i index quoted rest ih => exact List.forall_mem_cons.2 ⟨rfl, ih⟩

theorem read?_concatenation {ps : List Part} (hps : referable 0 ps) :
    (read? (Bytes.ofChars (charsAll ps))).map flatten = some (concat (units 0 ps)) ↔ clear ps := by
  apply read?_iff (m := groups ps) (members_of_mem_units 0 ps)
  intro g
  have hread : Readable 0 0 g [] ps := readable rfl hps 0
  cases hread with
  | refused hclear hnone =>
    rw [List.append_nil] at hnone
    exact .inl ⟨hclear, hnone⟩
  | @read ls us hlex hbuilds hus hunits =>
    rw [List.append_nil, lexemes?, Option.map_some, List.append_nil] at hlex
    rw [Nat.zero_add] at hbuilds hunits
    exact .inr ⟨ls, us, hlex, hbuilds, hus, hunits⟩

theorem head?_charsAll_ne (ps : List Part) : (charsAll ps ++ [')']).head? ≠ some '?' := by
  induction ps with
  | nil => simp [charsAll]
  | cons p ps ih =>
    cases p with
    | text cs =>
      cases cs with
      | nil => exact ih
      | cons c cs =>
        obtain ⟨d, more, heq, hd, -⟩ := Automaton.lexeme?_escapeChar c
        rw [charsAll_cons, chars, List.flatMap_cons, heq]
        simpa using hd
    | group cs => simp [chars]
    | reference index quoted => simp [chars]

theorem read?_group {ps : List Part} (hps : referable 0 ps) :
    (read? (Bytes.ofChars ('(' :: (charsAll ps ++ [')'])))).map flatten =
      some (.group 1 (concat (units 1 ps))) ↔ clear ps := by
  have hmembers : ∀ r ∈ [Regex.group 1 (concat (units 1 ps))], members r = [r] := by
    rw [List.forall_mem_singleton, members, members_concat, flatMap_members (members_of_mem_units 1 ps)]
  apply read?_iff (m := 1 + groups ps) hmembers
  intro g
  have hread : Readable 0 1 g [')'] ps := readable rfl hps 1
  cases hread with
  | refused hclear hnone =>
    refine .inl ⟨hclear, ?_⟩
    rw [lexemes?_open g (head?_charsAll_ne ps), hnone]
    rfl
  | @read ls us hlex hbuilds hus hunits =>
    refine .inr ⟨.openGroup true :: (ls ++ [Lexeme.closeGroup]), [.group 1 (concat us)], ?_, hbuilds.group, ?_, ?_⟩
    . rw [lexemes?_open g (head?_charsAll_ne ps), hlex, lexemes?_close, lexemes?]
      rfl
    . rw [List.forall_mem_singleton, members, members_concat, flatMap_members hus]
    . intro hg
      rw [← hunits (by omega), List.cons.injEq, Regex.group.injEq,
        concat_inj hus (members_of_mem_units 1 ps)]
      simp only [true_and, and_true]

end Whole

/-- A concatenation of texts, groups and references is read as what it denotes if and only if no reference runs
into what follows. -/
theorem read_references_iff {c : Command} {ps : List Part} (hc : c = .concatenation ∨ c = .group)
    (hps : referable 0 ps) :
    ∃ p, emit (command c.name (ps.map element)) = .ok p ∧
      ((read? p).map flatten = some (denote 0 (command c.name (ps.map element))).flatten ↔ clear ps) := by
  have hes := mapM_emit_element hps
  have hfold := fold_map_element ps
  obtain rfl | rfl := hc
  . refine ⟨Bytes.ofChars (charsAll ps), ?_, ?_⟩
    . rw [charsAll, List.flatMap_def]
      exact emit_concatenation hfold hes
    . rw [flatten, members_denote_concatenation]
      exact read?_concatenation hps
  . refine ⟨Bytes.ofChars ('(' :: (charsAll ps ++ [')'])), ?_, ?_⟩
    . rw [charsAll, List.flatMap_def]
      exact emit_group hfold hes
    . rw [flatten, members_denote_group]
      exact read?_group hps

def spacedParts : List Part :=
  [.group "a1".toList, .reference ['1'] false, .text [], .reference ['1'] true, .text "-2".toList, .group [],
    .reference ['2'] false, .group "9".toList]

theorem read_references_iff_spaced :
    (Command.group = .concatenation ∨ Command.group = .group) ∧ referable 0 spacedParts ∧ clear spacedParts ∧
      ∃ p, emit (command Command.group.name (spacedParts.map element)) = .ok p ∧
        ((read? p).map flatten =
          some (denote 0 (command Command.group.name (spacedParts.map element))).flatten ↔ clear spacedParts) := by
  have hps : referable 0 spacedParts := by decide
  exact ⟨.inr rfl, hps, by decide, read_references_iff (.inr rfl) hps⟩

def digitParts : List Part := [.group "a".toList, .reference ['1'] false, .text "2".toList]

def digitTree : Element := command Command.concatenation.name (digitParts.map element)

theorem read_reference_before_digit :
    referable 0 digitParts ∧ emit digitTree = .ok "(a)\\12" ∧
      (read? "(a)\\12").map flatten = some (concat [.group 1 (.char 'a'), .char '\n']) ∧
      (denote 0 digitTree).flatten = concat [.group 1 (.char 'a'), .reference 1, .char '2'] ∧
      (read? "(a)\\12").map flatten ≠ some (denote 0 digitTree).flatten := by
  decide +kernel

end Part

end VerboseExpr.Pattern
