import VerboseExpr.Pattern.Escape
import VerboseExpr.Proofs.Text.Utf8

namespace VerboseExpr

namespace Utf8

theorem ofChar_of_lt {c : Char} (h : c.toNat < 0x80) : Bytes.ofChar c = [c.toNat.toUInt8] := by
  rw [Bytes.ofChar]
  simp [h]

theorem le_of_mem_ofChar {c : Char} {b : UInt8} (h : ¬c.toNat < 0x80) (hb : b ∈ Bytes.ofChar c) :
    0x80 ≤ b.toNat := by
  have hvalid : c.toNat < 0xD800 ∨ 0xDFFF < c.toNat ∧ c.toNat < 0x110000 := c.valid
  rw [Bytes.ofChar] at hb
  split at hb
  . contradiction
  . split at hb
    . simp only [List.mem_cons, List.not_mem_nil, or_false] at hb
      obtain rfl | rfl := hb
      . rw [UInt8.toNat_ofNat_of_lt' (by omega : _ < 256)]
        omega
      . rw [UInt8.toNat_ofNat_of_lt' (by omega : _ < 256)]
        omega
    . split at hb
      . simp only [List.mem_cons, List.not_mem_nil, or_false] at hb
        obtain rfl | rfl | rfl := hb
        all_goals
          rw [UInt8.toNat_ofNat_of_lt' (by omega : _ < 256)]
          omega
      . simp only [List.mem_cons, List.not_mem_nil, or_false] at hb
        obtain rfl | rfl | rfl | rfl := hb
        all_goals
          rw [UInt8.toNat_ofNat_of_lt' (by omega : _ < 256)]
          omega

theorem toNat_of_bad_mem_units {x : UInt8} {b : Bytes} (h : .bad x ∈ units b) : 0x80 ≤ x.toNat := by
  induction b using units.induct with
  | case1 => simp [units] at h
  | case2 y rest u ih =>
    rw [units, List.mem_cons] at h
    cases h with
    | inr hrest => exact ih hrest
    | inl hfirst =>
      by_cases hy : y.toNat < 0x80
      . rw [(Reads.one hy).first_eq] at hfirst
        simp [Unit.bad] at hfirst
      . cases reads_or_bad y rest with
        | inl hreads =>
          have hvalid := hreads.ofChar_eq.2.1
          rw [← hfirst] at hvalid
          contradiction
        | inr hbad =>
          rw [hbad] at hfirst
          simp only [Unit.bad, Unit.mk.injEq, List.cons.injEq, and_true] at hfirst
          rw [hfirst.2]
          omega

theorem char_eq_iff_of_mem_units {c : Char} (hc : c.toNat < 0x80) {b : Bytes} {u : Unit} (hu : u ∈ units b) :
    u.char = c ↔ c.toNat.toUInt8 ∈ u.bytes := by
  have hbyte : c.toNat.toUInt8.toNat = c.toNat := UInt8.toNat_ofNat_of_lt' (by omega : c.toNat < 256)
  obtain hvalid | ⟨x, rfl⟩ := of_mem_units hu
  . rw [hvalid]
    dsimp only
    constructor
    . intro heq
      rw [heq, ofChar_of_lt hc]
      apply List.mem_singleton_self
    . intro hmem
      by_cases hlt : u.char.toNat < 0x80
      . rw [ofChar_of_lt hlt, List.mem_singleton] at hmem
        have hchar : u.char.toNat.toUInt8.toNat = u.char.toNat :=
          UInt8.toNat_ofNat_of_lt' (by omega : u.char.toNat < 256)
        rw [← hmem, hbyte] at hchar
        rw [← Char.ofNat_toNat u.char, ← hchar, Char.ofNat_toNat]
      . have := le_of_mem_ofChar hlt hmem
        omega
  . have hx := toNat_of_bad_mem_units hu
    constructor
    . intro heq
      have hreplacement : (Unit.bad x).char.toNat = 0xFFFD := rfl
      rw [← heq] at hc
      omega
    . intro hmem
      rw [Unit.bad, List.mem_singleton] at hmem
      rw [← hmem] at hx
      omega

theorem mem_decode_iff {c : Char} (hc : c.toNat < 0x80) (b : Bytes) : c ∈ decode b ↔ c.toNat.toUInt8 ∈ b := by
  conv => rhs; rw [← flatMap_bytes_units b]
  rw [decode, List.mem_map, List.mem_flatMap]
  constructor
  . rintro ⟨u, hu, heq⟩
    exact ⟨u, hu, (char_eq_iff_of_mem_units hc hu).1 heq⟩
  . rintro ⟨u, hu, hmem⟩
    exact ⟨u, hu, (char_eq_iff_of_mem_units hc hu).2 hmem⟩

def asciiChar (b : UInt8) : Char := Char.ofNat b.toNat

theorem toNat_asciiChar {b : UInt8} (h : b.toNat < 0x80) : (asciiChar b).toNat = b.toNat := by
  rw [asciiChar, toNat_ofNat (by omega)]

theorem ofChars_map_asciiChar {v : Bytes} (h : ∀ b ∈ v, b.toNat < 0x80) :
    Bytes.ofChars (v.map asciiChar) = v := by
  induction v with
  | nil => rfl
  | cons b v ih =>
    have hb : b.toNat < 0x80 := h b List.mem_cons_self
    have hchar := toNat_asciiChar hb
    have hv := ih fun c hc => h c (List.mem_cons_of_mem b hc)
    rw [List.map_cons, Bytes.ofChars_cons, hv, ofChar_of_lt (by omega), hchar, toUInt8_eq rfl]
    rfl

end Utf8

namespace Pattern

def specialChars : List Char :=
  ['^', '$', '.', '[', ']', '-', '?', '+', '*', '(', ')', '\x7b', '\x7d', '|', '\\']

def escapeChar (c : Char) : List Char := if c ∈ specialChars then ['\\', c] else [c]

section Escape

theorem specialBytes_eq : specialBytes = specialChars.map fun c => c.toNat.toUInt8 := by
  decide +kernel

theorem toNat_lt_of_mem_specialChars {c : Char} (h : c ∈ specialChars) : c.toNat < 0x80 := by
  have hall : specialChars.all fun c => decide (c.toNat < 0x80) := by decide
  exact of_decide_eq_true (List.all_eq_true.1 hall c h)

theorem isSpecial_iff (b : UInt8) : isSpecial b ↔ ∃ c ∈ specialChars, c.toNat = b.toNat := by
  rw [isSpecial, List.contains_iff_mem, specialBytes_eq, List.mem_map]
  constructor
  . rintro ⟨c, hc, rfl⟩
    have hlt := toNat_lt_of_mem_specialChars hc
    exact ⟨c, hc, (UInt8.toNat_ofNat_of_lt' (by omega : _ < 256)).symm⟩
  . rintro ⟨c, hc, heq⟩
    exact ⟨c, hc, Utf8.toUInt8_eq heq⟩

theorem isSpecial_of_lt {c : Char} (h : c.toNat < 0x80) :
    isSpecial c.toNat.toUInt8 ↔ c ∈ specialChars := by
  rw [isSpecial_iff, UInt8.toNat_ofNat_of_lt' (by omega : _ < 256)]
  constructor
  . rintro ⟨d, hd, heq⟩
    rw [← Char.ofNat_toNat c, ← heq, Char.ofNat_toNat]
    exact hd
  . intro hc
    exact ⟨c, hc, rfl⟩

theorem containsAny_specialBytes_iff (v : Bytes) : Utf8.containsAny v specialBytes ↔ ∃ b ∈ v, isSpecial b := by
  have hdecode : Utf8.decode specialBytes = specialChars := by
    rw [specialBytes, Bytes.ofString, Utf8.decode_ofChars]
    rfl
  rw [Utf8.containsAny, hdecode, List.any_eq_true]
  constructor
  . rintro ⟨c, hc, hspecial⟩
    rw [List.contains_iff_mem] at hspecial
    have hlt := toNat_lt_of_mem_specialChars hspecial
    refine ⟨c.toNat.toUInt8, (Utf8.mem_decode_iff hlt v).1 hc, ?_⟩
    rw [isSpecial_of_lt hlt]
    exact hspecial
  . rintro ⟨b, hb, hspecial⟩
    obtain ⟨c, hc, heq⟩ := (isSpecial_iff b).1 hspecial
    refine ⟨c, ?_, List.contains_iff_mem.2 hc⟩
    rw [Utf8.mem_decode_iff (toNat_lt_of_mem_specialChars hc), Utf8.toUInt8_eq heq]
    exact hb

theorem escapeBytes_eq_self {v : Bytes} (h : ∀ b ∈ v, isSpecial b = false) : escapeBytes v = v := by
  induction v with
  | nil => rfl
  | cons b v ih =>
    rw [List.forall_mem_cons] at h
    rw [escapeBytes] at ih ⊢
    rw [List.flatMap_cons, ih h.2, h.1]
    rfl

theorem escape_eq_escapeBytes (v : Bytes) : escape v = escapeBytes v := by
  rw [escape]
  split
  . rfl
  . next hnone =>
    rw [containsAny_specialBytes_iff] at hnone
    rw [escapeBytes_eq_self]
    intro b hb
    rw [Bool.eq_false_iff]
    exact fun hspecial => hnone ⟨b, hb, hspecial⟩

@[simp]
theorem escape_nil : escape [] = [] := escape_eq_escapeBytes []

theorem escape_cons (b : UInt8) (v : Bytes) :
    escape (b :: v) = (if isSpecial b then [0x5C, b] else [b]) ++ escape v := by
  rw [escape_eq_escapeBytes, escape_eq_escapeBytes, escapeBytes, List.flatMap_cons]
  rfl

theorem escape_append (v w : Bytes) : escape (v ++ w) = escape v ++ escape w := by
  rw [escape_eq_escapeBytes, escapeBytes, List.flatMap_append, escape_eq_escapeBytes, escape_eq_escapeBytes]
  rfl

theorem escape_eq_self {v : Bytes} (h : ∀ b ∈ v, 0x80 ≤ b.toNat) : escape v = v := by
  rw [escape_eq_escapeBytes, escapeBytes_eq_self]
  intro b hb
  rw [Bool.eq_false_iff]
  intro hspecial
  obtain ⟨c, hc, heq⟩ := (isSpecial_iff b).1 hspecial
  have hlt := toNat_lt_of_mem_specialChars hc
  have hle := h b hb
  omega

theorem escape_ofChar (c : Char) : escape (Bytes.ofChar c) = Bytes.ofChars (escapeChar c) := by
  by_cases hc : c.toNat < 0x80
  . rw [Utf8.ofChar_of_lt hc, escape_cons, escape_nil, List.append_nil, escapeChar]
    split
    . next h =>
      rw [isSpecial_of_lt hc] at h
      rw [if_pos h, Bytes.ofChars_cons, Bytes.ofChars_cons, Bytes.ofChars_nil, Utf8.ofChar_of_lt hc]
      rfl
    . next h =>
      rw [isSpecial_of_lt hc] at h
      rw [if_neg h, Bytes.ofChars_cons, Bytes.ofChars_nil, Utf8.ofChar_of_lt hc, List.append_nil]
  . have hnot : c ∉ specialChars := fun hmem => hc (toNat_lt_of_mem_specialChars hmem)
    rw [escape_eq_self fun b hb => Utf8.le_of_mem_ofChar hc hb]
    rw [escapeChar, if_neg hnot, Bytes.ofChars_cons, Bytes.ofChars_nil, List.append_nil]

theorem escape_ofChars (cs : List Char) :
    escape (Bytes.ofChars cs) = Bytes.ofChars (cs.flatMap escapeChar) := by
  induction cs with
  | nil => exact escape_nil
  | cons c cs ih =>
    rw [Bytes.ofChars_cons, escape_append, escape_ofChar, ih]
    rw [List.flatMap_cons, Bytes.ofChars_append]

end Escape

section Integer

theorem isInteger_iff (v : Bytes) : isInteger v ↔ v ≠ [] ∧ ∀ b ∈ v, 0x30 ≤ b.toNat ∧ b.toNat ≤ 0x39 := by
  simp [isInteger, UInt8.le_iff_toNat_le]

theorem exists_digits {v : Bytes} (h : isInteger v) :
    ∃ ds, v = Bytes.ofChars ds ∧ ds ≠ [] ∧ ds.all Char.isDigit ∧ ds.length = v.length ∧
      (ds.head? = some '0' → v.head? = some 0x30) := by
  rw [isInteger_iff] at h
  obtain ⟨hne, hdigits⟩ := h
  have hascii : ∀ b ∈ v, b.toNat < 0x80 := by
    intro b hb
    have := hdigits b hb
    omega
  refine ⟨v.map Utf8.asciiChar, ?_, ?_, ?_, List.length_map .., ?_⟩
  . rw [Utf8.ofChars_map_asciiChar hascii]
  . simpa using hne
  . rw [List.all_map, List.all_eq_true]
    intro b hb
    rw [Function.comp_apply, Char.isDigit_iff_toNat, Utf8.toNat_asciiChar (hascii b hb)]
    exact hdigits b hb
  . intro hzero
    cases v with
    | nil => contradiction
    | cons b v =>
      have hchar := Utf8.toNat_asciiChar (hascii b List.mem_cons_self)
      rw [List.map_cons, List.head?_cons, Option.some.injEq] at hzero
      rw [hzero] at hchar
      rw [List.head?_cons, Option.some.injEq]
      exact UInt8.toNat_inj.1 hchar.symm

theorem isInteger_ofChars {ds : List Char} (hne : ds ≠ []) (hds : ds.all Char.isDigit) :
    isInteger (Bytes.ofChars ds) := by
  rw [isInteger_iff]
  rw [List.all_eq_true] at hds
  constructor
  . intro hnil
    have hdecode := Utf8.decode_ofChars ds
    rw [hnil, Utf8.decode, Utf8.units] at hdecode
    exact hne hdecode.symm
  . intro b hb
    rw [Bytes.ofChars, List.mem_flatMap] at hb
    obtain ⟨d, hd, hb⟩ := hb
    have hdigit := Char.isDigit_iff_toNat.1 (hds d hd)
    have hle : d.toNat ≤ 0x39 := hdigit.2
    rw [Utf8.ofChar_of_lt (by omega), List.mem_singleton] at hb
    rw [hb, UInt8.toNat_ofNat_of_lt' (by omega : _ < 256)]
    exact hdigit

end Integer

end Pattern

end VerboseExpr
