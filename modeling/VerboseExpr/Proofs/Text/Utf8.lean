import VerboseExpr.Text.Utf8

namespace VerboseExpr.Utf8

section Bytes

theorem toUInt8_eq {n : Nat} {b : UInt8} (h : n = b.toNat) : n.toUInt8 = b := by
  rw [h]
  simp [Nat.toUInt8]

theorem toNat_ofNat {n : Nat} (h : n < 0xD800 ∨ (0xDFFF < n ∧ n < 0x110000)) :
    (Char.ofNat n).toNat = n := by
  have hvalid : n.isValidChar := h
  rw [Char.ofNat, dif_pos hvalid]
  rfl

theorem between_iff (lo hi : Nat) (b : UInt8) : between lo hi b ↔ lo ≤ b.toNat ∧ b.toNat ≤ hi := by
  simp [between]

end Bytes

/-- The well-formed beginnings of a text and what is read from them. -/
inductive Reads : UInt8 → Bytes → Unit → Prop where
  | one {b : UInt8} {rest : Bytes} :
    b.toNat < 0x80 → Reads b rest ⟨Char.ofNat b.toNat, [b], true⟩
  | two {b c : UInt8} {rest : Bytes} :
    0xC2 ≤ b.toNat → b.toNat < 0xE0 → 0x80 ≤ c.toNat → c.toNat ≤ 0xBF →
    Reads b (c :: rest) ⟨Char.ofNat (b.toNat % 0x20 * 0x40 + tail c), [b, c], true⟩
  | three {b c d : UInt8} {rest : Bytes} :
    0xE0 ≤ b.toNat → b.toNat < 0xF0 → (if b.toNat = 0xE0 then 0xA0 else 0x80) ≤ c.toNat →
    c.toNat ≤ (if b.toNat = 0xED then 0x9F else 0xBF) → 0x80 ≤ d.toNat → d.toNat ≤ 0xBF →
    Reads b (c :: d :: rest)
      ⟨Char.ofNat (b.toNat % 0x10 * 0x1000 + tail c * 0x40 + tail d), [b, c, d], true⟩
  | four {b c d e : UInt8} {rest : Bytes} :
    0xF0 ≤ b.toNat → b.toNat < 0xF5 → (if b.toNat = 0xF0 then 0x90 else 0x80) ≤ c.toNat →
    c.toNat ≤ (if b.toNat = 0xF4 then 0x8F else 0xBF) → 0x80 ≤ d.toNat → d.toNat ≤ 0xBF →
    0x80 ≤ e.toNat → e.toNat ≤ 0xBF →
    Reads b (c :: d :: e :: rest)
      ⟨Char.ofNat (b.toNat % 8 * 0x40000 + tail c * 0x1000 + tail d * 0x40 + tail e),
        [b, c, d, e], true⟩

theorem Reads.first_eq {b : UInt8} {rest : Bytes} {u : Unit} (h : Reads b rest u) :
    first b rest = u := by
  cases h with
  | one hb =>
    rw [first.eq_def]
    simp [hb]
  | two hb hb' hc hc' =>
    have hbetween := (between_iff 0x80 0xBF _).2 ⟨hc, hc'⟩
    rw [first.eq_def]
    dsimp only
    rw [if_neg (by omega), if_neg (by omega), if_pos hb', if_pos hbetween]
  | three hb hb' hc hc' hd hd' =>
    have hbetween := (between_iff _ _ _).2 ⟨hc, hc'⟩
    have hbetween' := (between_iff 0x80 0xBF _).2 ⟨hd, hd'⟩
    rw [first.eq_def]
    dsimp only
    rw [if_neg (by omega), if_neg (by omega), if_neg (by omega), if_pos hb']
    rw [hbetween, hbetween']
    rfl
  | four hb hb' hc hc' hd hd' he he' =>
    have hbetween := (between_iff _ _ _).2 ⟨hc, hc'⟩
    have hbetween' := (between_iff 0x80 0xBF _).2 ⟨hd, hd'⟩
    have hbetween'' := (between_iff 0x80 0xBF _).2 ⟨he, he'⟩
    rw [first.eq_def]
    dsimp only
    rw [if_neg (by omega), if_neg (by omega), if_neg (by omega), if_neg (by omega), if_pos hb']
    rw [hbetween, hbetween', hbetween'']
    rfl

theorem reads_or_bad (b : UInt8) (rest : Bytes) : Reads b rest (first b rest) ∨ first b rest = .bad b := by
  fun_cases first b rest with
  | case1 rest n hb => exact .inl (.one hb)
  | case3 n hb hb' hb'' c rest hbetween =>
    rw [between_iff] at hbetween
    exact .inl (.two (by omega) (by omega) hbetween.1 hbetween.2)
  | case6 n hb hb' hb'' hb''' lo hi c d rest hbetween =>
    rw [Bool.and_eq_true, between_iff, between_iff] at hbetween
    exact .inl (.three (by omega) (by omega) hbetween.1.1 hbetween.1.2 hbetween.2.1 hbetween.2.2)
  | case9 n hb hb' hb'' hb''' hb'''' lo hi c d e rest hbetween =>
    rw [Bool.and_eq_true, Bool.and_eq_true, between_iff, between_iff, between_iff] at hbetween
    exact .inl (.four (by omega) (by omega) hbetween.1.1.1 hbetween.1.1.2 hbetween.1.2.1 hbetween.1.2.2
      hbetween.2.1 hbetween.2.2)
  | case2 | case4 | case5 | case7 | case8 | case10 | case11 | case12 => exact .inr rfl

theorem Reads.ofChar_eq {b : UInt8} {rest : Bytes} {u : Unit} (h : Reads b rest u) :
    Bytes.ofChar u.char = u.bytes ∧ u.valid ∧ b :: rest = u.bytes ++ rest.drop (u.width - 1) := by
  cases h with
  | one hb =>
    refine ⟨?_, rfl, rfl⟩
    rw [Bytes.ofChar, toNat_ofNat (by omega)]
    simp only [hb, if_true]
    rw [toUInt8_eq rfl]
  | @two c _ hb hb' hc hc' =>
    refine ⟨?_, rfl, rfl⟩
    unfold tail
    rw [Bytes.ofChar, toNat_ofNat (by omega)]
    dsimp only
    rw [if_neg (by omega), if_pos (by omega)]
    rw [toUInt8_eq (by omega : _ = b.toNat), toUInt8_eq (by omega : _ = c.toNat)]
  | @three c d _ hb hb' hc hc' hd hd' =>
    refine ⟨?_, rfl, rfl⟩
    have hnot : b.toNat = 0xE0 → 0xA0 ≤ c.toNat := fun h => by simpa [h] using hc
    have hsurrogate : b.toNat = 0xED → c.toNat ≤ 0x9F := fun h => by simpa [h] using hc'
    have hlo : 0x80 ≤ c.toNat := by split at hc <;> omega
    have hhi : c.toNat ≤ 0xBF := by split at hc' <;> omega
    -- the bounds on the second byte depend on the first one only at the ends of its range
    clear hc hc'
    unfold tail
    rw [Bytes.ofChar, toNat_ofNat (by omega)]
    dsimp only
    rw [if_neg (by omega), if_neg (by omega), if_pos (by omega)]
    rw [toUInt8_eq (by omega : _ = b.toNat), toUInt8_eq (by omega : _ = c.toNat),
      toUInt8_eq (by omega : _ = d.toNat)]
  | @four c d e _ hb hb' hc hc' hd hd' he he' =>
    refine ⟨?_, rfl, rfl⟩
    have hnot : b.toNat = 0xF0 → 0x90 ≤ c.toNat := fun h => by simpa [h] using hc
    have hmax : b.toNat = 0xF4 → c.toNat ≤ 0x8F := fun h => by simpa [h] using hc'
    have hlo : 0x80 ≤ c.toNat := by split at hc <;> omega
    have hhi : c.toNat ≤ 0xBF := by split at hc' <;> omega
    clear hc hc'
    unfold tail
    rw [Bytes.ofChar, toNat_ofNat (by omega)]
    dsimp only
    rw [if_neg (by omega), if_neg (by omega), if_neg (by omega)]
    rw [toUInt8_eq (by omega : _ = b.toNat), toUInt8_eq (by omega : _ = c.toNat),
      toUInt8_eq (by omega : _ = d.toNat), toUInt8_eq (by omega : _ = e.toNat)]

theorem toNat_continuation (n : Nat) : (0x80 + n % 0x40).toUInt8.toNat = 0x80 + n % 0x40 :=
  UInt8.toNat_ofNat_of_lt' (by omega : _ < 256)

theorem tail_continuation (n : Nat) : tail (0x80 + n % 0x40).toUInt8 = n % 0x40 := by
  rw [tail, toNat_continuation]
  omega

theorem Reads.of_eq_toNat {b : UInt8} {rest bytes : Bytes} {n : Nat} {c : Char}
    (h : Reads b rest ⟨Char.ofNat n, bytes, true⟩) (hn : n = c.toNat) : Reads b rest ⟨c, bytes, true⟩ := by
  rwa [hn, Char.ofNat_toNat] at h

theorem exists_reads_ofChar (c : Char) (rest : Bytes) :
    ∃ b more, Bytes.ofChar c ++ rest = b :: more ∧ Reads b more ⟨c, Bytes.ofChar c, true⟩ := by
  have hvalid : c.toNat < 0xD800 ∨ 0xDFFF < c.toNat ∧ c.toNat < 0x110000 := c.valid
  fun_cases Bytes.ofChar c with
  | case1 n hn =>
    have hb := UInt8.toNat_ofNat_of_lt' (by omega : n < 256)
    refine ⟨_, _, rfl, Reads.of_eq_toNat (b := n.toUInt8) (.one ?_) hb⟩
    rwa [hb]
  | case2 n hn hn' =>
    have hb := UInt8.toNat_ofNat_of_lt' (by omega : 0xC0 + n / 0x40 < 256)
    refine ⟨_, _, rfl, Reads.of_eq_toNat (.two ?_ ?_ ?_ ?_) ?_⟩
    all_goals
      simp only [hb, toNat_continuation, tail_continuation]
      omega
  | case3 n hn hn' hn'' =>
    have hb := UInt8.toNat_ofNat_of_lt' (by omega : 0xE0 + n / 0x1000 < 256)
    refine ⟨_, _, rfl, Reads.of_eq_toNat (.three ?_ ?_ ?low ?high ?_ ?_) ?_⟩
    all_goals simp only [hb, toNat_continuation, tail_continuation]
    case low | high => split <;> omega
    all_goals omega
  | case4 n hn hn' hn'' =>
    have hb := UInt8.toNat_ofNat_of_lt' (by omega : 0xF0 + n / 0x40000 < 256)
    refine ⟨_, _, rfl, Reads.of_eq_toNat (.four ?_ ?_ ?low ?high ?_ ?_ ?_ ?_) ?_⟩
    all_goals simp only [hb, toNat_continuation, tail_continuation]
    case low | high => split <;> omega
    all_goals omega

section Units

theorem Reads.units_eq {b : UInt8} {rest : Bytes} {u : Unit} (h : Reads b rest u) :
    units (b :: rest) = u :: units (rest.drop (u.width - 1)) := by
  rw [units, h.first_eq]

theorem units_ofChar (c : Char) (rest : Bytes) :
    units (Bytes.ofChar c ++ rest) = ⟨c, Bytes.ofChar c, true⟩ :: units rest := by
  obtain ⟨b, more, heq, hreads⟩ := exists_reads_ofChar c rest
  have hsplit := hreads.ofChar_eq.2.2
  rw [← heq] at hsplit
  rw [heq, hreads.units_eq, ← List.append_cancel_left hsplit]

@[simp]
theorem decode_ofChars (cs : List Char) : decode (Bytes.ofChars cs) = cs := by
  induction cs with
  | nil => simp [decode, units]
  | cons c cs ih =>
    rw [decode] at ih ⊢
    rw [Bytes.ofChars_cons, units_ofChar, List.map_cons, ih]

@[simp]
theorem isValid_ofChars (cs : List Char) : isValid (Bytes.ofChars cs) := by
  induction cs with
  | nil => simp [isValid, units]
  | cons c cs ih =>
    rw [isValid] at ih ⊢
    rw [Bytes.ofChars_cons, units_ofChar, List.all_cons, ih]
    rfl

theorem ofChars_decode {v : Bytes} (h : isValid v) : Bytes.ofChars (decode v) = v := by
  induction v using units.induct with
  | case1 => simp [decode, units]
  | case2 b rest u ih =>
    rw [isValid, units, List.all_cons, Bool.and_eq_true] at h
    have hrest := ih h.2
    cases reads_or_bad b rest with
    | inl hreads =>
      obtain ⟨hchar, -, hsplit⟩ := hreads.ofChar_eq
      rw [decode] at hrest ⊢
      rw [units, List.map_cons, Bytes.ofChars_cons, hrest, hchar, ← hsplit]
    | inr hbad =>
      rw [hbad] at h
      simp [Unit.bad] at h

theorem flatMap_bytes_units (b : Bytes) : (units b).flatMap (·.bytes) = b := by
  induction b using units.induct with
  | case1 => rw [units, List.flatMap_nil]
  | case2 b rest u ih =>
    rw [units, List.flatMap_cons, ih]
    cases reads_or_bad b rest with
    | inl hreads => exact hreads.ofChar_eq.2.2.symm
    | inr hbad =>
      have hu : u = .bad b := hbad
      rw [hbad, hu]
      rfl

theorem of_mem_units {b : Bytes} {u : Unit} (h : u ∈ units b) :
    u = ⟨u.char, Bytes.ofChar u.char, true⟩ ∨ ∃ c, u = .bad c := by
  induction b using units.induct with
  | case1 => simp [units] at h
  | case2 b rest v ih =>
    rw [units, List.mem_cons] at h
    cases h with
    | inr hrest => exact ih hrest
    | inl hfirst =>
      cases reads_or_bad b rest with
      | inr hbad => exact .inr ⟨b, by rw [hfirst, hbad]⟩
      | inl hreads =>
        obtain ⟨hbytes, hvalid, -⟩ := hreads.ofChar_eq
        left
        rw [hfirst]
        generalize first b rest = w at hbytes hvalid
        obtain ⟨c, bytes, valid⟩ := w
        dsimp only at hbytes hvalid ⊢
        rw [hbytes, hvalid]

end Units

end VerboseExpr.Utf8
