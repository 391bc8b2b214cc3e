import Mathlib
import VerboseExpr.Proofs.Pattern.Escape
import VerboseExpr.Text.Quoted

namespace VerboseExpr

theorem Unicode.Ranges.contains_eq (table : Ranges) (c : Char) :
    table.contains c = table.toList.any fun r => r.1 ≤ c.toNat && c.toNat ≤ r.2 := by
  unfold contains
  rw [← Array.any_toList]

theorem Unicode.isPrintable_break {c : Char} (h : c.toNat = 0x0A ∨ c.toNat = 0x0D) : isPrintable c = false := by
  unfold isPrintable
  rw [Ranges.contains_eq]
  obtain h | h := h
  all_goals
    rw [h]
    decide +kernel

namespace Quoted

section Hex

theorem hexValue?_hexDigit {n : Nat} (h : n < 16) : hexValue? (Bytes.hexDigit n) = some n := by
  have hall : ∀ m < 16, hexValue? (Bytes.hexDigit m) = some m := by decide
  exact hall n h

theorem hex_zero (n : Nat) : Bytes.hex 0 n = [] := rfl

theorem hex_succ (width n : Nat) :
    Bytes.hex (width + 1) n = Bytes.hexDigit (n / 16 ^ width % 16) :: Bytes.hex width n := rfl

theorem length_hex (width n : Nat) : (Bytes.hex width n).length = width := by
  induction width with
  | zero => rfl
  | succ width ih => rw [hex_succ, List.length_cons, ih]

theorem foldlM_hex (width n start : Nat) :
    (Bytes.hex width n).foldlM (fun n d => (hexValue? d).map (16 * n + ·)) start =
      some (start * 16 ^ width + n % 16 ^ width) := by
  induction width generalizing start with
  | zero => simp [hex_zero, Nat.mod_one]
  | succ width ih =>
    have hdigit : hexValue? (Bytes.hexDigit (n / 16 ^ width % 16)) = some (n / 16 ^ width % 16) := by
      apply hexValue?_hexDigit
      omega
    have hsplit : n % 16 ^ (width + 1) = n % 16 ^ width + 16 ^ width * (n / 16 ^ width % 16) := by
      rw [Nat.pow_succ, Nat.mod_mul]
    rw [hex_succ, List.foldlM_cons, hdigit]
    simp only [Option.map_some, Option.bind_eq_bind, Option.bind_some]
    rw [ih, hsplit, Nat.pow_succ, Nat.add_mul, Nat.mul_comm 16 start, Nat.mul_assoc, Nat.mul_comm 16 (16 ^ width),
      Nat.mul_comm (n / 16 ^ width % 16), Nat.add_assoc, Nat.add_comm (16 ^ width * (n / 16 ^ width % 16))]

theorem takeHex?_hex {width n : Nat} (h : n < 16 ^ width) (k : Bytes) :
    takeHex? width (Bytes.hex width n ++ k) = some n := by
  have htake : (Bytes.hex width n ++ k).take width = Bytes.hex width n := List.take_left' (length_hex width n)
  have hlength : width ≤ (Bytes.hex width n ++ k).length := by
    rw [List.length_append, length_hex]
    omega
  unfold takeHex? hexNumber?
  rw [if_pos hlength, htake, foldlM_hex, Nat.zero_mul, Nat.zero_add, Nat.mod_eq_of_lt h]

end Hex

/-- Is the byte half of a line break, or all of it? -/
def IsBreak (b : UInt8) : Prop := b = 0x0A ∨ b = 0x0D

instance (b : UInt8) : Decidable (IsBreak b) := inferInstanceAs (Decidable (_ ∨ _))

def IsPlain (b : UInt8) : Prop := b ≠ 0x22 ∧ b ≠ 0x5C ∧ ¬IsBreak b

instance (b : UInt8) : Decidable (IsPlain b) := inferInstanceAs (Decidable (_ ∧ _))

/-- What may stand between quotes: a quote does so only after a backslash, and a line break not at all. -/
inductive Enclosed : Bytes → Prop where
  | nil : Enclosed []
  | plain {b : UInt8} {rest : Bytes} : IsPlain b → Enclosed rest → Enclosed (b :: rest)
  | escape {b : UInt8} {rest : Bytes} : ¬IsBreak b → Enclosed rest → Enclosed (0x5C :: b :: rest)

theorem Enclosed.of_forall {w : Bytes} (h : ∀ b ∈ w, IsPlain b) {k : Bytes} (hk : Enclosed k) : Enclosed (w ++ k) := by
  induction w with
  | nil => exact hk
  | cons b w ih =>
    rw [List.forall_mem_cons] at h
    exact .plain h.1 (ih h.2)

/-- The first bytes are read as the others, whatever follows them, and may stand between quotes. -/
structure Spells (w b : Bytes) : Prop where
  decodes : ∀ k, decodeBody (w ++ k) = (decodeBody k).map fun x => (b ++ x.1, x.2)
  encloses : ∀ k, Enclosed k → Enclosed (w ++ k)

namespace Spells

theorem nil : Spells [] [] where
  decodes k := by simp
  encloses _ hk := hk

theorem append {w w' b b' : Bytes} (h : Spells w b) (h' : Spells w' b') : Spells (w ++ w') (b ++ b') where
  decodes k := by
    rw [List.append_assoc, h.decodes, h'.decodes, Option.map_map]
    simp only [Function.comp_def, List.append_assoc]
  encloses k hk := by
    rw [List.append_assoc]
    apply h.encloses
    apply h'.encloses
    exact hk

theorem plain {w : Bytes} (h : ∀ b ∈ w, IsPlain b) : Spells w w where
  decodes k := by
    induction w with
    | nil => simp
    | cons b w ih =>
      rw [List.forall_mem_cons] at h
      obtain ⟨⟨hquote, hbackslash, hbreak⟩, hrest⟩ := h
      have hfeed : b ≠ 0x0A := fun heq => hbreak (.inl heq)
      rw [List.cons_append, decodeBody.eq_def]
      simp only [hquote, hfeed, hbackslash, if_false, ne_eq, not_false_eq_true, if_true]
      rw [ih hrest, Option.map_map]
      rfl
  encloses k hk := .of_forall h hk

theorem short {letter b : UInt8} (h : shortValue? letter = some b) : Spells [0x5C, letter] [b] where
  decodes k := by
    have hhex : letter ≠ 0x78 := by
      rintro rfl
      contradiction
    have hscalar : ¬(letter = 0x75 ∨ letter = 0x55) := by
      rintro (rfl | rfl) <;> contradiction
    have hoctal : ¬(0x30 ≤ letter ∧ letter ≤ 0x37) := by
      intro hdigit
      have hbounds : 0x30 ≤ letter.toNat ∧ letter.toNat ≤ 0x37 := by
        simpa [UInt8.le_iff_toNat_le] using hdigit
      have hnone : ∀ n < 0x38, 0x30 ≤ n → shortValue? n.toUInt8 = none := by decide
      have hletter := hnone letter.toNat (by omega) hbounds.1
      rw [Utf8.toUInt8_eq rfl, h] at hletter
      contradiction
    rw [List.cons_append, List.cons_append, List.nil_append, decodeBody.eq_def]
    dsimp only
    rw [if_neg (by decide), if_neg (by decide), if_neg (by decide), if_neg hhex, if_neg hscalar,
      if_neg hoctal, h]
    cases decodeBody k <;> rfl
  encloses k hk := by
    apply Enclosed.escape _ hk
    rintro (rfl | rfl) <;> contradiction

theorem isPlain_hexDigit : ∀ n < 16, IsPlain (Bytes.hexDigit n) := by decide

theorem forall_mem_hex (width n : Nat) : ∀ b ∈ Bytes.hex width n, IsPlain b := by
  induction width with
  | zero => simp [hex_zero]
  | succ width ih =>
    rw [hex_succ, List.forall_mem_cons]
    refine ⟨isPlain_hexDigit _ ?_, ih⟩
    omega

theorem enclosed_hex {letter : UInt8} (hletter : ¬IsBreak letter) (width n : Nat) {k : Bytes} (hk : Enclosed k) :
    Enclosed ([0x5C, letter] ++ Bytes.hex width n ++ k) := by
  rw [List.append_assoc]
  exact .escape hletter (.of_forall (forall_mem_hex width n) hk)

theorem byte (b : UInt8) : Spells (byteEscape b.toNat) [b] where
  decodes k := by
    have hlt : b.toNat < 16 ^ 2 := b.toNat_lt
    have hdrop : (Bytes.hex 2 b.toNat ++ k).drop 2 = k := List.drop_left' (length_hex 2 b.toNat)
    unfold byteEscape
    rw [List.append_assoc, List.cons_append, List.cons_append, List.nil_append, decodeBody.eq_def]
    dsimp only
    rw [if_neg (by decide), if_neg (by decide), if_neg (by decide), if_pos rfl, takeHex?_hex hlt, hdrop]
    simp only [Option.bind_eq_bind, Option.bind_some, Utf8.toUInt8_eq rfl]
    cases decodeBody k <;> rfl
  encloses k hk := enclosed_hex (by decide) 2 b.toNat hk

theorem isScalar_toNat (c : Char) : isScalar c.toNat := by
  have hvalid : c.toNat < 0xD800 ∨ 0xDFFF < c.toNat ∧ c.toNat < 0x110000 := c.valid
  unfold isScalar
  rw [Bool.or_eq_true, Bool.and_eq_true, decide_eq_true_eq, decide_eq_true_eq, decide_eq_true_eq]
  omega

theorem scalar {letter : UInt8} {width : Nat} {c : Char}
    (hletter : letter = 0x75 ∧ width = 4 ∨ letter = 0x55 ∧ width = 8) (hc : c.toNat < 16 ^ width) :
    Spells ([0x5C, letter] ++ Bytes.hex width c.toNat) (Bytes.ofChar c) where
  decodes k := by
    have hdrop : (Bytes.hex width c.toNat ++ k).drop width = k := List.drop_left' (length_hex width c.toNat)
    have htake := takeHex?_hex hc k
    rw [List.append_assoc, List.cons_append, List.cons_append, List.nil_append, decodeBody.eq_def]
    dsimp only
    rw [if_neg (by decide), if_neg (by decide), if_neg (by decide)]
    obtain ⟨rfl, rfl⟩ | ⟨rfl, rfl⟩ := hletter
    . rw [if_neg (by decide), if_pos (by decide), if_pos rfl, htake, hdrop]
      simp only [Option.bind_eq_bind, Option.bind_some, isScalar_toNat, Char.ofNat_toNat]
      cases decodeBody k <;> rfl
    . rw [if_neg (by decide), if_pos (by decide), if_neg (by decide), htake, hdrop]
      simp only [Option.bind_eq_bind, Option.bind_some, isScalar_toNat, Char.ofNat_toNat]
      cases decodeBody k <;> rfl
  encloses k hk := by
    apply enclosed_hex _ width c.toNat hk
    obtain ⟨rfl, rfl⟩ | ⟨rfl, rfl⟩ := hletter
    all_goals decide

end Spells

section Units

theorem forall_mem_ofChar {c : Char} (hc : Unicode.isPrintable c) (hquote : c.toNat ≠ 0x22)
    (hbackslash : c.toNat ≠ 0x5C) :
    ∀ b ∈ Bytes.ofChar c, IsPlain b := by
  intro b hb
  -- a character of one byte is that byte, and all bytes of the others are above 0x7F
  by_cases hascii : c.toNat < 0x80
  . rw [Utf8.ofChar_of_lt hascii, List.mem_singleton] at hb
    have hbyte : b.toNat = c.toNat := by rw [hb, UInt8.toNat_ofNat_of_lt' (by omega : _ < 256)]
    have hbreak : ¬(c.toNat = 0x0A ∨ c.toNat = 0x0D) := by
      intro heq
      rw [Unicode.isPrintable_break heq] at hc
      contradiction
    refine ⟨?_, ?_, ?_⟩
    . rintro rfl
      exact hquote hbyte.symm
    . rintro rfl
      exact hbackslash hbyte.symm
    . rintro (rfl | rfl)
      . exact hbreak (.inl hbyte.symm)
      . exact hbreak (.inr hbyte.symm)
  . have hle := Utf8.le_of_mem_ofChar hascii hb
    refine ⟨?_, ?_, ?_⟩
    . rintro rfl
      exact absurd hle (by decide)
    . rintro rfl
      exact absurd hle (by decide)
    . rintro (rfl | rfl) <;> exact absurd hle (by decide)

theorem shortValue?_of_shortEscape? {c : Char} {letter : UInt8} (h : shortEscape? c = some letter) :
    ∃ b, shortValue? letter = some b ∧ Bytes.ofChar c = [b] := by
  unfold shortEscape? at h
  have hc : ∀ n, n < 0x80 → c.toNat = n → Bytes.ofChar c = [n.toUInt8] := by
    intro n hn heq
    rw [Utf8.ofChar_of_lt (by omega), heq]
  split at h
  case h_8 => contradiction
  all_goals
    next heq =>
      obtain rfl := Option.some.inj h
      exact ⟨_, rfl, hc _ (by decide) heq⟩

theorem spells_char (c : Char) : Spells (encodeUnit 0x22 ⟨c, Bytes.ofChar c, true⟩) (Bytes.ofChar c) := by
  -- the cases are those of the writer, from the quote and the backslash to the longest escape
  unfold encodeUnit
  dsimp only
  rw [if_neg (by simp)]
  split
  . next h =>
    simp only [Bool.or_eq_true, decide_eq_true_eq] at h
    obtain ⟨b, hb, hbytes⟩ : ∃ b, shortValue? b = some b ∧ Bytes.ofChar c = [b] := by
      obtain hn | hn := h
      . exact ⟨0x22, rfl, by rw [Utf8.ofChar_of_lt (by rw [hn]; decide), hn]; rfl⟩
      . exact ⟨0x5C, rfl, by rw [Utf8.ofChar_of_lt (by rw [hn]; decide), hn]; rfl⟩
    rw [hbytes]
    exact .short hb
  . next h =>
    simp only [Bool.or_eq_true, decide_eq_true_eq, not_or] at h
    split
    . next hprintable => exact .plain (forall_mem_ofChar hprintable h.1 h.2)
    . split
      . next letter hletter =>
        obtain ⟨b, hb, hbytes⟩ := shortValue?_of_shortEscape? hletter
        rw [hbytes]
        exact .short hb
      . split
        . next hcontrol =>
          simp only [Bool.or_eq_true, decide_eq_true_eq] at hcontrol
          have hbyte := Spells.byte c.toNat.toUInt8
          rw [UInt8.toNat_ofNat_of_lt' (by omega : _ < 256)] at hbyte
          rw [Utf8.ofChar_of_lt (by omega)]
          exact hbyte
        . split
          . next hshort => exact .scalar (.inl ⟨rfl, rfl⟩) hshort
          . have hvalid : c.toNat < 0xD800 ∨ 0xDFFF < c.toNat ∧ c.toNat < 0x110000 := c.valid
            exact .scalar (.inr ⟨rfl, rfl⟩) (by omega)

theorem spells_unit {b : Bytes} {u : Utf8.Unit} (h : u ∈ Utf8.units b) : Spells (encodeUnit 0x22 u) u.bytes := by
  cases Utf8.of_mem_units h with
  | inl hchar =>
    rw [hchar]
    apply spells_char
  | inr hbad =>
    obtain ⟨c, rfl⟩ := hbad
    have hescape : encodeUnit 0x22 (.bad c) = byteEscape c.toNat := by simp [encodeUnit, Utf8.Unit.bad]
    rw [hescape]
    apply Spells.byte

theorem spells_flatMap {us : List Utf8.Unit} (h : ∀ u ∈ us, Spells (encodeUnit 0x22 u) u.bytes) :
    Spells (us.flatMap (encodeUnit 0x22)) (us.flatMap (·.bytes)) := by
  induction us with
  | nil => exact .nil
  | cons u us ih =>
    rw [List.forall_mem_cons] at h
    rw [List.flatMap_cons, List.flatMap_cons]
    exact h.1.append (ih h.2)

end Units

def body (b : Bytes) : Bytes := (Utf8.units b).flatMap (encodeUnit 0x22)

theorem encode_eq (b : Bytes) : encode b = 0x22 :: (body b ++ [0x22]) := by
  unfold encode body
  simp

theorem spells_body (b : Bytes) : Spells (body b) b := by
  have hspells := spells_flatMap fun u hu => spells_unit (b := b) hu
  rwa [Utf8.flatMap_bytes_units] at hspells

theorem enclosed_body (b : Bytes) : Enclosed (body b) := by
  have henclosed := (spells_body b).encloses [] .nil
  rwa [List.append_nil] at henclosed

/-- A quotation is read as the text that it was made of, and what follows it is left. -/
@[simp]
theorem decode?_encode_append (b k : Bytes) : decode? (encode b ++ k) = some (b, k) := by
  have hquote : decodeBody (0x22 :: k) = some ([], k) := by
    rw [decodeBody.eq_def]
    rfl
  rw [encode_eq, List.cons_append, List.append_assoc, decode?, if_pos rfl, (spells_body b).decodes,
    List.singleton_append, hquote]
  simp

end Quoted

end VerboseExpr
