import VerboseExpr.Proofs.Regex.Flatten
import VerboseExpr.Proofs.Regex.Lexing

namespace VerboseExpr.Regex.Automaton

/-- Reads characters after what has been read so far. -/
def readOn (b : Builder) (cs : List Char) : Option Builder := lexemes? cs >>= fun ls => ls.foldlM Builder.step b

section ReadOn

variable {b : Builder} {c : Char} {more k : List Char}

theorem readOn_nil (b : Builder) : readOn b [] = some b := by
  rw [readOn, lexemes?]
  rfl

theorem readOn_cons {l : Lexeme} (h : lexeme? c (more ++ k) = some (l, more.length)) :
    readOn b (c :: (more ++ k)) = (b.step l).bind fun b' => readOn b' k := by
  simp only [readOn]
  rw [lexemes?, h]
  simp only [Option.bind_eq_bind, Option.bind_some, List.drop_left]
  cases hk : lexemes? k with
  | none => cases b.step l <;> rfl
  | some ls => rfl

theorem readOn_refused (h : lexeme? c k = none) : readOn b (c :: k) = none := by
  simp only [readOn]
  rw [lexemes?, h]
  rfl

theorem readOn_atom {r : Regex} (h : lexeme? c (more ++ k) = some (.atom r, more.length)) :
    readOn b (c :: (more ++ k)) = readOn { b with current := b.current.push r } k := by
  rw [readOn_cons h]
  rfl

theorem readOn_group (b : Builder) (k : List Char) : readOn b ('(' :: '?' :: ':' :: k) =
    readOn { b with current := { index := none }, around := b.current :: b.around } k := by
  have hlex : lexeme? '(' (['?', ':'] ++ k) = some (.openGroup false, ['?', ':'].length) := rfl
  exact readOn_cons hlex

theorem readOn_capture (b : Builder) (hk : k.head? ≠ some '?') : readOn b ('(' :: k) =
    readOn { current := { index := some (b.groups + 1) }, around := b.current :: b.around,
             groups := b.groups + 1 } k := by
  have hlex : lexeme? '(' ([] ++ k) = some (.openGroup true, ([] : List Char).length) := by
    rw [List.nil_append, lexeme?]
    . rfl
    . rintro rest rfl
      simp at hk
    . rintro rest rfl
      simp at hk
  exact readOn_cons hlex

theorem readOn_close {outer : Frame} {around : List Frame} (h : b.around = outer :: around) (k : List Char) :
    readOn b (')' :: k) =
      readOn { b with current := outer.push b.current.unit, around := around } k := by
  have hlex : lexeme? ')' ([] ++ k) = some (.closeGroup, ([] : List Char).length) := rfl
  rw [← List.nil_append k, readOn_cons hlex, Builder.step, h]
  rfl

theorem readOn_bar (b : Builder) (k : List Char) : readOn b ('|' :: k) =
    readOn { b with current := { b.current with
      alternatives := b.current.alternative :: b.current.alternatives, units := [],
      repeatable := false } } k := by
  have hlex : lexeme? '|' ([] ++ k) = some (.bar, ([] : List Char).length) := rfl
  exact readOn_cons hlex

end ReadOn

/-- The same pattern with some more units and `m` groups in all. -/
def extend (b : Builder) (us : List Regex) (repeatable : Bool) (m : Nat) : Builder :=
  { b with
    current := { b.current with units := us.reverse ++ b.current.units, repeatable := repeatable },
    groups := m }

/-- After `n` groups, and if no question mark follows, the characters are read as units with the given
members and bring the number of groups to `m`, unless some of their counts do not fit. -/
structure Extends (n m : Nat) (fits : Bool) (cs : List Char) (rs : List Regex) : Prop where
  head : cs.head? ≠ some '?'
  read : ∀ b k, b.groups = n → k.head? ≠ some '?' →
    ∃ us repeatable, us.flatMap members = rs ∧
      readOn b (cs ++ k) = if fits then readOn (extend b us repeatable m) k else none

namespace Extends

variable {n l m : Nat} {f g : Bool} {cs ds : List Char} {rs ss : List Regex}

theorem head_append (h : cs.head? ≠ some '?') (h' : ds.head? ≠ some '?') : (cs ++ ds).head? ≠ some '?' := by
  cases cs with
  | nil => exact h'
  | cons c cs => exact h

theorem nil (n : Nat) : Extends n n true [] [] where
  head := by simp
  read := by
    intro b k hb _
    refine ⟨[], b.current.repeatable, rfl, ?_⟩
    rw [← hb]
    rfl

theorem append (h : Extends n l f cs rs) (h' : Extends l m g ds ss) :
    Extends n m (f && g) (cs ++ ds) (rs ++ ss) where
  head := head_append h.head h'.head
  read := by
    intro b k hb hk
    -- the second piece does not begin with a question mark, so it cannot change a quantifier of the first
    obtain ⟨us, q, hus, hread⟩ := h.read b (ds ++ k) hb (head_append h'.head hk)
    obtain ⟨vs, q', hvs, hread'⟩ := h'.read (extend b us q l) k rfl hk
    refine ⟨us ++ vs, q', ?_, ?_⟩
    . rw [List.flatMap_append, hus, hvs]
    . rw [List.append_assoc, hread, hread']
      cases f with
      | false => rfl
      | true => simp [extend]

theorem atom {c : Char} {more : List Char} {r : Regex} (n : Nat) (hc : c ≠ '?')
    (h : ∀ k, lexeme? c (more ++ k) = some (.atom r, more.length)) :
    Extends n n true (c :: more) (members r) where
  head := by simpa using hc
  read := by
    intro b k hb _
    refine ⟨[r], true, by simp, ?_⟩
    rw [List.cons_append, readOn_atom (h k), ← hb]
    rfl

theorem char (n : Nat) (c : Char) : Extends n n true (Pattern.escapeChar c) [.char c] := by
  obtain ⟨d, more, heq, hd, hlex⟩ := lexeme?_escapeChar c
  rw [heq]
  exact atom n hd hlex

theorem text (n : Nat) (cs : List Char) :
    Extends n n true (cs.flatMap Pattern.escapeChar) (cs.map .char) := by
  induction cs with
  | nil => exact nil n
  | cons c cs ih => exact (char n c).append ih

theorem captured (h : Extends (n + 1) m f cs rs) :
    Extends n m f ('(' :: (cs ++ [')'])) [.group (n + 1) (concat rs)] where
  head := by simp
  read := by
    intro b k hb hk
    obtain ⟨us, q, hus, hread⟩ := h.read
      { current := { index := some (n + 1) }, around := b.current :: b.around, groups := n + 1 }
      (')' :: k) rfl (by simp)
    have htext : '(' :: (cs ++ [')']) ++ k = '(' :: (cs ++ ')' :: k) := by simp
    have hopen : (cs ++ ')' :: k).head? ≠ some '?' := head_append h.head (by simp)
    refine ⟨[.group (n + 1) (concat us)], true, ?_, ?_⟩
    . rw [List.flatMap_singleton, members, members_concat, hus]
    . rw [htext, readOn_capture b hopen, hb, hread, readOn_close rfl]
      simp [extend, Frame.unit, Frame.body, Frame.alternative, Frame.push, choice]

theorem repeated {q : Char} {more : List Char} {min : Nat} {max : Option Nat}
    (h : Extends n m f cs rs) (hq : Quantifies q more min max) :
    Extends n m (countAllowed min max && f) ('(' :: '?' :: ':' :: (cs ++ ')' :: q :: more))
      [.rep min max true (concat rs)] where
  head := by simp
  read := by
    intro b k hb hk
    obtain ⟨us, q', hus, hread⟩ := h.read
      { b with current := { index := none }, around := b.current :: b.around }
      (')' :: q :: (more ++ k)) hb (by simp)
    have htext : '(' :: '?' :: ':' :: (cs ++ ')' :: q :: more) ++ k =
        '(' :: '?' :: ':' :: (cs ++ ')' :: q :: (more ++ k)) := by simp
    have hlex := hq k hk
    refine ⟨[.rep min max true (concat us)], false, ?_, ?_⟩
    . rw [List.flatMap_singleton, members, members_concat, hus]
    . rw [htext, readOn_group b, hread, readOn_close rfl]
      by_cases hallowed : countAllowed min max = true
      . rw [if_pos hallowed] at hlex
        rw [readOn_cons hlex]
        simp [extend, Frame.unit, Frame.body, Frame.alternative, Frame.push, choice, Builder.step, hallowed]
      . rw [if_neg hallowed] at hlex
        rw [readOn_refused hlex]
        simp [hallowed]

end Extends

/-- Pieces that extend a pattern one after another. -/
inductive ExtendsAll : Nat → Nat → Bool → List (List Char) → List (List Regex) → Prop where
  | nil (n : Nat) : ExtendsAll n n true [] []
  | cons {n l m : Nat} {f g : Bool} {cs : List Char} {css : List (List Char)} {rs : List Regex}
      {rss : List (List Regex)} :
    Extends n l f cs rs → ExtendsAll l m g css rss → ExtendsAll n m (f && g) (cs :: css) (rs :: rss)

def bars : List (List Char) → List Char
  | [] => []
  | [cs] => cs
  | cs :: css => cs ++ '|' :: bars css

namespace ExtendsAll

variable {n m : Nat} {f : Bool} {css : List (List Char)} {rss : List (List Regex)}

theorem flatten (h : ExtendsAll n m f css rss) : Extends n m f css.flatten rss.flatten := by
  induction h with
  | nil n => exact Extends.nil n
  | cons h _ ih => exact h.append ih

theorem of_nil (h : ExtendsAll n m f css []) : css = [] ∧ m = n := by
  cases h with
  | nil => exact ⟨rfl, rfl⟩

theorem length_eq (h : ExtendsAll n m f css rss) : css.length = rss.length := by
  induction h with
  | nil n => rfl
  | cons _ _ ih => rw [List.length_cons, List.length_cons, ih]

theorem readOn_bars (h : ExtendsAll n m f css rss) (hne : css ≠ []) {b : Builder} {k : List Char}
    (hb : b.groups = n) (hunits : b.current.units = []) (hk : k.head? ≠ some '?') :
    ∃ frame rs, rs.map members = rss ∧ frame.index = b.current.index ∧
      (frame.alternative :: frame.alternatives).reverse = b.current.alternatives.reverse ++ rs ∧
      readOn b (bars css ++ k) = if f then readOn { b with current := frame, groups := m } k else none := by
  induction h generalizing b with
  | nil n => contradiction
  | @cons n l m f g cs css rs rss h hrest ih =>
    cases hcss : css with
    | nil =>
      subst hcss
      cases hrest with
      | nil =>
        obtain ⟨us, q, hus, hread⟩ := h.read b k hb hk
        refine ⟨(extend b us q l).current, [concat us], ?_, rfl, ?_, ?_⟩
        . simp [hus]
        . simp [extend, Frame.alternative, hunits]
        . rw [Bool.and_true]
          exact hread
    | cons ds dss =>
      -- the bar completes the first piece as an alternative, and the rest is read in a fresh one
      obtain ⟨us, q, hus, hread⟩ := h.read b ('|' :: (bars css ++ k)) hb (by simp)
      obtain ⟨frame, ss, hss, hindex, halternatives, hread'⟩ := ih (by simp [hcss])
        (b := { extend b us q l with current := { index := b.current.index
                                                  alternatives := concat us :: b.current.alternatives } })
        rfl rfl
      have hbars : bars (cs :: ds :: dss) = cs ++ '|' :: bars css := by
        rw [hcss]
        rfl
      have halternative : (extend b us q l).current.alternative = concat us := by
        simp [extend, Frame.alternative, hunits]
      refine ⟨frame, concat us :: ss, ?_, hindex, ?_, ?_⟩
      . simp [hus, hss]
      . rw [halternatives]
        simp
      . rw [hbars, List.append_assoc, List.cons_append, hread, readOn_bar, halternative]
        cases f with
        | false => rfl
        | true => exact hread'

theorem chosen (h : ExtendsAll n m f css rss) (hne : css ≠ []) {rs : List Regex} (hrs : rs.map members = rss) :
    Extends n m f ('(' :: '?' :: ':' :: (bars css ++ [')'])) (members (choice rs)) where
  head := by simp
  read := by
    intro b k hb hk
    obtain ⟨frame, ss, hss, hindex, halternatives, hread⟩ := h.readOn_bars hne
      (b := { b with current := { index := none }, around := b.current :: b.around })
      (k := ')' :: k) hb rfl (by simp)
    have htext : '(' :: '?' :: ':' :: (bars css ++ [')']) ++ k =
        '(' :: '?' :: ':' :: (bars css ++ ')' :: k) := by simp
    refine ⟨[choice ss], true, ?_, ?_⟩
    . rw [List.flatMap_singleton]
      apply members_choice_congr
      rw [hss, hrs]
    . rw [htext, readOn_group b, hread, readOn_close rfl]
      have hunit : frame.unit = choice ss := by
        rw [Frame.unit, hindex]
        simp only [Frame.body, halternatives]
        rfl
      simp [extend, Frame.push, hunit]

end ExtendsAll

section Whole

theorem parse?_ofChars (cs : List Char) :
    parse? (Bytes.ofChars cs) = readOn {} cs >>= fun b =>
      match b.around with
      | [] => some b.current.body
      | _ :: _ => none := by
  rw [parse?, patternLexemes?, if_pos (Utf8.isValid_ofChars cs), Utf8.decode_ofChars, readOn]
  cases lexemes? cs with
  | none => rfl
  | some ls => rfl

theorem Extends.parse?_eq {m : Nat} {f : Bool} {cs : List Char} {rs : List Regex}
    (h : Extends 0 m f cs rs) :
    ∃ r, members r = rs ∧ parse? (Bytes.ofChars cs) = if f then some r else none := by
  obtain ⟨us, q, hus, hread⟩ := h.read {} [] rfl (by simp)
  rw [List.append_nil] at hread
  refine ⟨concat us, ?_, ?_⟩
  . rw [members_concat, hus]
  . rw [parse?_ofChars, hread]
    cases f with
    | false => rfl
    | true =>
      rw [if_pos rfl, readOn_nil]
      simp [extend, Frame.body, Frame.alternative, choice]

theorem read?_eq_filter (p : Bytes) :
    read? p = (parse? p).filter fun r => countsAllowed r && (patternLexemes? p).any withinLimits := by
  rw [read?, parse?]
  cases patternLexemes? p with
  | none => rfl
  | some ls =>
    simp only [Option.bind_eq_bind, Option.bind_some]
    cases ofLexemes? ls with
    | none => rfl
    | some r => rfl

end Whole

end VerboseExpr.Regex.Automaton
