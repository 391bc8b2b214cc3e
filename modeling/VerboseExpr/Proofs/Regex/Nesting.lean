import VerboseExpr.Proofs.Pattern.WellBracketed

namespace VerboseExpr

namespace Utf8

theorem decode_cons_ascii {b : UInt8} (hb : b.toNat < 0x80) (rest : Bytes) :
    decode (b :: rest) = asciiChar b :: decode rest := by
  have hreads : Reads b rest ⟨Char.ofNat b.toNat, [b], true⟩ := .one hb
  rw [decode, hreads.units_eq]
  rfl

theorem decode_cons_bad {b : UInt8} {rest : Bytes} (hb : first b rest = .bad b) :
    decode (b :: rest) = replacement :: decode rest := by
  rw [decode, units, hb]
  rfl

theorem decode_of_tails {n : Nat} {rest : Bytes}
    (h : ∀ b ∈ rest.take n, 0x80 ≤ b.toNat ∧ b.toNat ≤ 0xBF) :
    decode rest = (rest.take n).map (fun _ => replacement) ++ decode (rest.drop n) := by
  induction n generalizing rest with
  | zero => rfl
  | succ n ih =>
    cases rest with
    | nil => rfl
    | cons b rest =>
      rw [List.take_succ_cons, List.forall_mem_cons] at h
      have hbad : first b rest = .bad b := by
        rw [first.eq_def]
        dsimp only
        rw [if_neg (by omega), if_pos (by omega)]
      rw [decode_cons_bad hbad, ih h.2]
      rfl

theorem Reads.tails {b : UInt8} {rest : Bytes} {u : Unit} (h : Reads b rest u) :
    ∀ c ∈ rest.take (u.width - 1), 0x80 ≤ c.toNat ∧ c.toNat ≤ 0xBF := by
  cases h with
  | one => simp [Unit.width]
  | two _ _ hc hc' => simpa [Unit.width] using ⟨hc, hc'⟩
  | @three c _ _ _ _ hc hc' hd hd' =>
    have hlo : 0x80 ≤ c.toNat := by split at hc <;> omega
    have hhi : c.toNat ≤ 0xBF := by split at hc' <;> omega
    simpa [Unit.width] using ⟨⟨hlo, hhi⟩, hd, hd'⟩
  | @four c _ _ _ _ _ hc hc' hd hd' he he' =>
    have hlo : 0x80 ≤ c.toNat := by split at hc <;> omega
    have hhi : c.toNat ≤ 0xBF := by split at hc' <;> omega
    simpa [Unit.width] using ⟨⟨hlo, hhi⟩, ⟨hd, hd'⟩, he, he'⟩

theorem Reads.le_char {b : UInt8} {rest : Bytes} {u : Unit} (h : Reads b rest u) (hb : 0x80 ≤ b.toNat) :
    0x80 ≤ u.char.toNat := by
  obtain ⟨hchar, -, hsplit⟩ := h.ofChar_eq
  rw [← Nat.not_lt]
  intro hlt
  rw [ofChar_of_lt hlt] at hchar
  rw [← hchar, List.singleton_append, List.cons.injEq] at hsplit
  rw [hsplit.1, UInt8.toNat_ofNat_of_lt' (by omega : _ < 256)] at hb
  omega

theorem exists_decode_cons {b : UInt8} (hb : 0x80 ≤ b.toNat) (rest : Bytes) :
    ∃ c n, decode (b :: rest) = c :: decode (rest.drop n) ∧ 0x80 ≤ c.toNat ∧
      (decode rest).drop n = decode (rest.drop n) ∧ ∀ d ∈ (decode rest).take n, d = replacement := by
  cases reads_or_bad b rest with
  | inr hbad => exact ⟨replacement, 0, decode_cons_bad hbad, by decide, rfl, by simp⟩
  | inl hreads =>
    generalize first b rest = u at hreads
    have hlength : (rest.take (u.width - 1)).length = u.width - 1 := by
      cases hreads <;> rfl
    have hdecode := decode_of_tails hreads.tails
    refine ⟨u.char, u.width - 1, ?_, hreads.le_char hb, ?_, ?_⟩
    . rw [decode, hreads.units_eq]
      rfl
    . rw [hdecode, List.drop_left' (by rw [List.length_map, hlength])]
    . rw [hdecode, List.take_left' (by rw [List.length_map, hlength])]
      intro d hd
      obtain ⟨_, -, rfl⟩ := List.mem_map.1 hd
      rfl

end Utf8

namespace Regex

inductive Bracket where
  | round
  | square
  deriving DecidableEq, Repr

/-- The characters that give a pattern its structure. -/
def structureChars : List Char := ['(', ')', '[', ']', '|', '\\']

def Escapable (c : Char) : Prop := c ∈ Pattern.specialChars ∨ c ∈ ['n', 'r', 't'] ∨ c.isDigit

instance : DecidablePred Escapable := fun c =>
  inferInstanceAs (Decidable (c ∈ Pattern.specialChars ∨ c ∈ ['n', 'r', 't'] ∨ c.isDigit))

/-- What follows in a pattern when the given brackets are open, the innermost first. Bars stand right inside
round brackets only, and square brackets hold something. In a `strict` text they hold more than a circumflex. -/
inductive Nested (strict : Bool) : List Bracket → List Char → Prop where
  | nil : Nested strict [] []
  | plain {opens : List Bracket} {c : Char} {cs : List Char} :
    c ∉ structureChars → Nested strict opens cs → Nested strict opens (c :: cs)
  | escape {opens : List Bracket} {c : Char} {cs : List Char} :
    Escapable c → Nested strict opens cs → Nested strict opens ('\\' :: c :: cs)
  | bar {opens : List Bracket} {cs : List Char} :
    Nested strict (.round :: opens) cs → Nested strict (.round :: opens) ('|' :: cs)
  | openRound {opens : List Bracket} {cs : List Char} :
    Nested strict (.round :: opens) cs → Nested strict opens ('(' :: cs)
  | closeRound {opens : List Bracket} {cs : List Char} :
    Nested strict opens cs → Nested strict (.round :: opens) (')' :: cs)
  | openSquare {opens : List Bracket} {cs : List Char} :
    cs.head? ≠ some ']' → (strict → cs.take 2 ≠ ['^', ']']) → Nested strict (.square :: opens) cs →
    Nested strict opens ('[' :: cs)
  | closeSquare {opens : List Bracket} {cs : List Char} :
    Nested strict opens cs → Nested strict (.square :: opens) (']' :: cs)

section Inversion

variable {strict : Bool} {opens : List Bracket} {c : Char} {cs : List Char}

namespace Nested

theorem of_plain (hc : c ∉ structureChars) (h : Nested strict opens (c :: cs)) : Nested strict opens cs := by
  cases h with
  | plain _ h => exact h
  | escape | bar | openRound | closeRound | openSquare | closeSquare => simp [structureChars] at hc

theorem of_backslash (h : Nested strict opens ('\\' :: cs)) :
    ∃ d more, cs = d :: more ∧ Escapable d ∧ Nested strict opens more := by
  cases h with
  | plain hc => simp [structureChars] at hc
  | escape hd h => exact ⟨_, _, rfl, hd, h⟩

theorem of_bar (h : Nested strict opens ('|' :: cs)) :
    Nested strict opens cs ∧ ∃ outer, opens = .round :: outer := by
  cases h with
  | plain hc => simp [structureChars] at hc
  | bar h => exact ⟨h, _, rfl⟩

theorem of_openRound (h : Nested strict opens ('(' :: cs)) : Nested strict (.round :: opens) cs := by
  cases h with
  | plain hc => simp [structureChars] at hc
  | openRound h => exact h

theorem of_closeRound (h : Nested strict opens (')' :: cs)) :
    ∃ outer, opens = .round :: outer ∧ Nested strict outer cs := by
  cases h with
  | plain hc => simp [structureChars] at hc
  | closeRound h => exact ⟨_, rfl, h⟩

theorem of_openSquare (h : Nested strict opens ('[' :: cs)) :
    cs.head? ≠ some ']' ∧ (strict → cs.take 2 ≠ ['^', ']']) ∧ Nested strict (.square :: opens) cs := by
  cases h with
  | plain hc => simp [structureChars] at hc
  | openSquare hne hstrict h => exact ⟨hne, hstrict, h⟩

theorem of_closeSquare (h : Nested strict opens (']' :: cs)) :
    ∃ outer, opens = .square :: outer ∧ Nested strict outer cs := by
  cases h with
  | plain hc => simp [structureChars] at hc
  | closeSquare h => exact ⟨_, rfl, h⟩

theorem drop {n : Nat} (hplain : ∀ c ∈ cs.take n, c ∉ structureChars) (h : Nested strict opens cs) :
    Nested strict opens (cs.drop n) := by
  induction n generalizing cs with
  | zero => exact h
  | succ n ih =>
    cases cs with
    | nil => exact h
    | cons c cs =>
      rw [List.take_succ_cons, List.forall_mem_cons] at hplain
      exact ih hplain.2 (h.of_plain hplain.1)

end Nested

/-- What follows inside a class that was opened when the given brackets were open. -/
def Inside (strict : Bool) (opens : List Bracket) (cs : List Char) : Prop :=
  ∃ inner, .square :: opens <:+ inner ∧ Nested strict inner cs

/-- What follows a class: the brackets that were open before it still are. -/
def Outside (strict : Bool) (opens : List Bracket) (cs : List Char) : Prop :=
  ∃ inner, opens <:+ inner ∧ Nested strict inner cs

namespace Inside

theorem suffix_of_cons {b : Bracket} {inner : List Bracket} (h : .square :: opens <:+ b :: inner) :
    opens <:+ inner := by
  obtain heq | hsuffix := List.suffix_cons_iff.1 h
  . obtain ⟨-, rfl⟩ := List.cons.inj heq
    exact List.suffix_rfl
  . exact (List.suffix_cons .square opens).trans hsuffix

theorem close (h : Inside strict opens (']' :: cs)) : Outside strict opens cs := by
  obtain ⟨inner, hsuffix, hnested⟩ := h
  obtain ⟨outer, rfl, hrest⟩ := hnested.of_closeSquare
  exact ⟨outer, suffix_of_cons hsuffix, hrest⟩

theorem of_backslash (h : Inside strict opens ('\\' :: cs)) :
    ∃ d more, cs = d :: more ∧ Escapable d ∧ Inside strict opens more := by
  obtain ⟨inner, hsuffix, hnested⟩ := h
  obtain ⟨d, more, rfl, hd, hrest⟩ := hnested.of_backslash
  exact ⟨d, more, rfl, hd, inner, hsuffix, hrest⟩

theorem of_cons (hclose : c ≠ ']') (hc : c ≠ '\\') (h : Inside strict opens (c :: cs)) : Inside strict opens cs := by
  obtain ⟨inner, hsuffix, hnested⟩ := h
  cases hnested with
  | plain _ hnested => exact ⟨inner, hsuffix, hnested⟩
  | escape | closeSquare => contradiction
  | bar hnested => exact ⟨_, hsuffix, hnested⟩
  | openRound hnested => exact ⟨_, hsuffix.trans (List.suffix_cons .round inner), hnested⟩
  | openSquare _ _ hnested => exact ⟨_, hsuffix.trans (List.suffix_cons .square inner), hnested⟩
  | closeRound hnested =>
    obtain heq | hsuffix := List.suffix_cons_iff.1 hsuffix
    . simp at heq
    . exact ⟨_, hsuffix, hnested⟩

theorem drop {n : Nat} (hplain : ∀ c ∈ cs.take n, c ∉ structureChars) (h : Inside strict opens cs) :
    Inside strict opens (cs.drop n) := by
  obtain ⟨inner, hsuffix, hnested⟩ := h
  exact ⟨inner, hsuffix, hnested.drop hplain⟩

end Inside

end Inversion

section Decoding

open Pattern (WellBracketed isPlainByte isEscapable)
open Utf8 (decode asciiChar)

theorem not_mem_structureChars {c : Char} (hc : 0x80 ≤ c.toNat) : c ∉ structureChars := by
  intro hmem
  have hascii : ∀ c ∈ structureChars, c.toNat < 0x80 := by simp [structureChars]
  have := hascii c hmem
  omega

theorem Nested.decode_cons {strict : Bool} {opens : List Bracket} {b : UInt8} {k : Bytes} (hb : 0x80 ≤ b.toNat)
    (h : Nested strict opens (decode k)) : Nested strict opens (decode (b :: k)) := by
  obtain ⟨c, n, hdecode, hc, hdrop, htake⟩ := Utf8.exists_decode_cons hb k
  rw [hdecode, ← hdrop]
  apply Nested.plain (not_mem_structureChars hc)
  apply h.drop
  intro d hd
  rw [htake d hd]
  decide

theorem asciiChar_inj {b : UInt8} {c : Char} (hb : b.toNat < 0x80) (h : asciiChar b = c) : b.toNat = c.toNat := by
  rw [← h, Utf8.toNat_asciiChar hb]

theorem asciiChar_not_mem {b : UInt8} (hb : isPlainByte b) (hlt : b.toNat < 0x80) : asciiChar b ∉ structureChars := by
  intro hmem
  have hstructure : structureChars.all fun c => !isPlainByte c.toNat.toUInt8 := by decide
  have hplain := List.all_eq_true.1 hstructure _ hmem
  rw [Utf8.toNat_asciiChar hlt, Utf8.toUInt8_eq rfl, hb] at hplain
  contradiction

theorem escapable_asciiChar {b : UInt8} (hb : isEscapable b) : b.toNat < 0x80 ∧ Escapable (asciiChar b) := by
  rw [isEscapable, Bool.or_eq_true, Bool.or_eq_true, List.contains_iff_mem, Bool.and_eq_true, decide_eq_true_eq,
    decide_eq_true_eq, UInt8.le_iff_toNat_le, UInt8.le_iff_toNat_le] at hb
  obtain (hspecial | hletter) | ⟨hlo, hhi⟩ := hb
  . obtain ⟨c, hc, hcb⟩ := (Pattern.isSpecial_iff b).1 hspecial
    have hlt := Pattern.toNat_lt_of_mem_specialChars hc
    refine ⟨by omega, .inl ?_⟩
    rwa [asciiChar, ← hcb, Char.ofNat_toNat]
  . have hletters : ∀ b ∈ Bytes.ofString "nrt", b.toNat < 0x80 ∧ asciiChar b ∈ ['n', 'r', 't'] := by
      decide +kernel
    obtain ⟨hlt, hmem⟩ := hletters b hletter
    exact ⟨hlt, .inr (.inl hmem)⟩
  . have hlt : b.toNat < 0x80 := Nat.lt_of_le_of_lt hhi (by decide)
    refine ⟨hlt, .inr (.inr ?_)⟩
    rw [Char.isDigit_iff_toNat, Utf8.toNat_asciiChar hlt]
    exact ⟨hlo, hhi⟩

theorem head?_decode {b : UInt8} (hb : b ≠ 0x5D) (k : Bytes) : (decode (b :: k)).head? ≠ some ']' := by
  by_cases hlt : b.toNat < 0x80
  . rw [Utf8.decode_cons_ascii hlt, List.head?_cons, ne_eq, Option.some.injEq]
    intro heq
    apply hb
    apply UInt8.toNat_inj.1
    rw [asciiChar_inj hlt heq]
    rfl
  . obtain ⟨c, n, hdecode, hc, -⟩ := Utf8.exists_decode_cons (by omega : 0x80 ≤ b.toNat) k
    rw [hdecode, List.head?_cons, ne_eq, Option.some.injEq]
    rintro rfl
    exact absurd hc (by decide)

/-- A pattern whose brackets are matched is nested, whatever is open and follows. -/
theorem nested_of_wellBracketed {g : Bool} {p k : Bytes} {opens : List Bracket} (h : WellBracketed g p)
    (hopens : g → ∃ outer, opens = .round :: outer) (hk : Nested false opens (decode k)) :
    Nested false opens (decode (p ++ k)) := by
  -- what follows is any nested text, so that the two parts of a bracketed one can be put behind each other
  induction h generalizing opens k with
  | nil => exact hk
  | @plain g b u hb _ ih =>
    have hrest := ih hopens hk
    by_cases hlt : b.toNat < 0x80
    . rw [List.cons_append, Utf8.decode_cons_ascii hlt]
      exact .plain (asciiChar_not_mem hb hlt) hrest
    . exact hrest.decode_cons (by omega)
  | @escape g b u hb _ ih =>
    obtain ⟨hlt, hescapable⟩ := escapable_asciiChar hb
    rw [List.cons_append, List.cons_append, Utf8.decode_cons_ascii (by decide), Utf8.decode_cons_ascii hlt]
    exact .escape hescapable (ih hopens hk)
  | bar _ ih =>
    obtain ⟨outer, rfl⟩ := hopens rfl
    rw [List.cons_append, Utf8.decode_cons_ascii (by decide)]
    exact .bar (ih hopens hk)
  | @round g u v _ _ ihu ihv =>
    have hrest := (ihv hopens hk).closeRound
    rw [List.append_assoc, List.cons_append, List.cons_append, Utf8.decode_cons_ascii (by decide)]
    apply Nested.openRound
    apply ihu fun _ => ⟨opens, rfl⟩
    rw [Utf8.decode_cons_ascii (by decide)]
    exact hrest
  | @square g u v hne hu _ ihu ihv =>
    have hrest := (ihv hopens hk).closeSquare
    rw [List.append_assoc, List.cons_append, List.cons_append, Utf8.decode_cons_ascii (by decide)]
    apply Nested.openSquare
    . obtain ⟨b, u, rfl⟩ := List.exists_cons_of_ne_nil hne
      exact head?_decode hu.head_ne _
    . simp
    . apply ihu (by simp)
      rw [Utf8.decode_cons_ascii (by decide)]
      exact hrest

theorem nested_of_emit {e : Element} {p : Bytes} (h : Pattern.emit e = .ok p) : Nested false [] (decode p) := by
  have hnil : Nested false [] (decode []) := by
    rw [decode, Utf8.units]
    exact .nil
  have hnested := nested_of_wellBracketed (Pattern.wellBracketed_of_emit h) (by simp) hnil
  rwa [List.append_nil] at hnested

end Decoding

section Void

/-- Is there a class with nothing but a circumflex in it? -/
def hasVoidClass : List Char → Bool
  | [] => false
  | c :: rest =>
    if c = '\\' then
      match rest with
      | [] => false
      | _ :: more => hasVoidClass more
    else (c = '[' && rest.take 2 == ['^', ']']) || hasVoidClass rest

theorem hasVoidClass_cons {c : Char} (hc : c ≠ '\\') (cs : List Char) :
    hasVoidClass (c :: cs) = ((c = '[' && cs.take 2 == ['^', ']']) || hasVoidClass cs) := by
  rw [hasVoidClass.eq_def]
  simp only [hc, if_false]

theorem hasVoidClass_of_cons {c : Char} {cs : List Char} (hc : c ≠ '\\') (h : hasVoidClass (c :: cs) = false) :
    hasVoidClass cs = false := by
  rw [hasVoidClass_cons hc, Bool.or_eq_false_iff] at h
  exact h.2

theorem Nested.strict {opens : List Bracket} {cs : List Char} (h : Nested false opens cs)
    (hvoid : hasVoidClass cs = false) : Nested true opens cs := by
  induction h with
  | nil => exact .nil
  | plain hc _ ih =>
    have hne := ne_of_mem_of_not_mem (by decide : '\\' ∈ structureChars) hc
    exact .plain hc (ih (hasVoidClass_of_cons hne.symm hvoid))
  | escape hc _ ih => exact .escape hc (ih hvoid)
  | bar _ ih => exact .bar (ih (hasVoidClass_of_cons (by decide) hvoid))
  | openRound _ ih => exact .openRound (ih (hasVoidClass_of_cons (by decide) hvoid))
  | closeRound _ ih => exact .closeRound (ih (hasVoidClass_of_cons (by decide) hvoid))
  | openSquare hne _ _ ih =>
    refine .openSquare hne ?_ (ih (hasVoidClass_of_cons (by decide) hvoid))
    rintro - hcircumflex
    simp [hasVoidClass_cons, hcircumflex] at hvoid
  | closeSquare _ ih => exact .closeSquare (ih (hasVoidClass_of_cons (by decide) hvoid))

end Void

end Regex

end VerboseExpr
