import VerboseExpr.Proofs.Text.Utf8

namespace VerboseExpr

/-- The list stands in the other at the place `i`, and at no earlier one. -/
structure FirstAt {α : Type} (xs ys : List α) (i : Nat) : Prop where
  here : xs <+: ys.drop i
  before : ∀ j < i, ¬ xs <+: ys.drop j

/-- The right answer to where a list stands first in another, as the places where it begins and ends. -/
def Locates {α : Type} (xs ys : List α) : Option (Nat × Nat) → Prop
  | none => ¬ xs <:+: ys
  | some (i, stop) => FirstAt xs ys i ∧ stop = i + xs.length

theorem isInfix_of_prefix_drop {α : Type} {xs ys : List α} {i : Nat} (h : xs <+: ys.drop i) : xs <:+: ys :=
  h.isInfix.trans (List.drop_suffix i ys).isInfix

theorem exists_drop_of_isInfix {α : Type} {xs ys : List α} (h : xs <:+: ys) :
    ∃ i ≤ ys.length, xs <+: ys.drop i := by
  obtain ⟨before, after, rfl⟩ := h
  refine ⟨before.length, ?_, after, ?_⟩
  . rw [List.append_assoc, List.length_append]
    omega
  . rw [List.append_assoc, List.drop_left]

theorem FirstAt.unique {α : Type} {xs ys : List α} {i j : Nat} (h : FirstAt xs ys i) (h' : FirstAt xs ys j) :
    i = j := by
  apply Nat.le_antisymm
  . exact Nat.le_of_not_lt fun hlt => h.before j hlt h'.here
  . exact Nat.le_of_not_lt fun hlt => h'.before i hlt h.here

theorem drop_take_of_prefix_drop {α : Type} {xs ys : List α} {i : Nat} (h : xs <+: ys.drop i) :
    (ys.take (i + xs.length)).drop i = xs := by
  rw [List.drop_take, Nat.add_sub_cancel_left]
  exact (List.prefix_iff_eq_take.1 h).symm

theorem FirstAt.eq_drop_take {α : Type} {xs ys : List α} {i : Nat} (h : FirstAt xs ys i) :
    (ys.take (i + xs.length)).drop i = xs := drop_take_of_prefix_drop h.here

namespace Utf8

section Boundaries

theorem exists_lead (c : Char) :
    ∃ b more, Bytes.ofChar c = b :: more ∧ between 0x80 0xBF b = false ∧ ∀ d ∈ more, between 0x80 0xBF d := by
  obtain ⟨b, rest, -, hreads⟩ := exists_reads_ofChar c []
  generalize Bytes.ofChar c = bytes at hreads
  have hlead : b.toNat < 0x80 ∨ 0xC0 ≤ b.toNat → between 0x80 0xBF b = false := by
    intro hb
    rw [Bool.eq_false_iff, ne_eq, between_iff]
    omega
  have hmore : ∀ {d : UInt8}, 0x80 ≤ d.toNat → d.toNat ≤ 0xBF → between 0x80 0xBF d :=
    fun hd hd' => (between_iff _ _ _).2 ⟨hd, hd'⟩
  cases hreads with
  | one hb => exact ⟨b, [], rfl, hlead (Or.inl hb), by simp⟩
  | two hb hb' hc hc' =>
    refine ⟨b, _, rfl, hlead (by omega), ?_⟩
    simp only [List.forall_mem_cons]
    exact ⟨hmore hc hc', by simp⟩
  | three hb hb' hc hc' hd hd' =>
    refine ⟨b, _, rfl, hlead (by omega), ?_⟩
    simp only [List.forall_mem_cons]
    exact ⟨hmore (by split at hc <;> omega) (by split at hc' <;> omega), hmore hd hd', by simp⟩
  | four hb hb' hc hc' hd hd' he he' =>
    refine ⟨b, _, rfl, hlead (by omega), ?_⟩
    simp only [List.forall_mem_cons]
    exact ⟨hmore (by split at hc <;> omega) (by split at hc' <;> omega), hmore hd hd', hmore he he', by simp⟩

theorem exists_boundary {cs : List Char} {k : Nat} {b : UInt8} {rest : Bytes}
    (h : (Bytes.ofChars cs).drop k = b :: rest) (hb : between 0x80 0xBF b = false) :
    ∃ i, k = (Bytes.ofChars (cs.take i)).length := by
  induction cs generalizing k with
  | nil => simp at h
  | cons c cs ih =>
    obtain ⟨d, more, hchar, -, hmore⟩ := exists_lead c
    rw [Bytes.ofChars_cons, List.drop_append] at h
    by_cases hk : k < (Bytes.ofChar c).length
    . cases k with
      | zero => exact ⟨0, rfl⟩
      | succ k =>
        -- inside of a character all bytes continue it
        have hinside : b ∈ more := by
          rw [hchar, List.drop_succ_cons] at h
          rw [hchar, List.length_cons] at hk
          rw [List.drop_eq_getElem_cons (by omega : k < more.length), List.cons_append, List.cons.injEq] at h
          rw [← h.1]
          exact List.getElem_mem _
        rw [hmore b hinside] at hb
        simp at hb
    . rw [List.drop_eq_nil_of_le (by omega), List.nil_append] at h
      obtain ⟨i, hi⟩ := ih h
      refine ⟨i + 1, ?_⟩
      rw [List.take_succ_cons, Bytes.ofChars_cons, List.length_append]
      omega

end Boundaries

section Characters

theorem units_ofChars (cs : List Char) :
    units (Bytes.ofChars cs) = cs.map fun c => ⟨c, Bytes.ofChar c, true⟩ := by
  induction cs with
  | nil => simp [units]
  | cons c cs ih => rw [Bytes.ofChars_cons, units_ofChar, ih, List.map_cons]

theorem width_map (cs : List Char) :
    width (cs.map fun c => ⟨c, Bytes.ofChar c, true⟩) = (Bytes.ofChars cs).length := by
  induction cs with
  | nil => rfl
  | cons c cs ih => rw [List.map_cons, width, ih, Unit.width, Bytes.ofChars_cons, List.length_append]

theorem offset_ofChars (cs : List Char) (i : Nat) :
    offset (Bytes.ofChars cs) i = (Bytes.ofChars (cs.take i)).length := by
  rw [offset, units_ofChars, ← List.map_take, width_map]

theorem drop_offset (cs : List Char) (i : Nat) :
    (Bytes.ofChars cs).drop (offset (Bytes.ofChars cs) i) = Bytes.ofChars (cs.drop i) := by
  have hsplit : Bytes.ofChars cs = Bytes.ofChars (cs.take i) ++ Bytes.ofChars (cs.drop i) := by
    rw [← Bytes.ofChars_append, List.take_append_drop]
  rw [offset_ofChars, hsplit, List.drop_left]

theorem decode_ofChars_append (cs : List Char) (rest : Bytes) :
    decode (Bytes.ofChars cs ++ rest) = cs ++ decode rest := by
  induction cs with
  | nil => rfl
  | cons c cs ih =>
    rw [decode] at ih ⊢
    rw [Bytes.ofChars_cons, List.append_assoc, units_ofChar, List.map_cons, ih, List.cons_append]

theorem ofChars_prefix_iff (xs cs : List Char) : Bytes.ofChars xs <+: Bytes.ofChars cs ↔ xs <+: cs := by
  constructor
  . rintro ⟨rest, heq⟩
    have hdecode := congrArg decode heq
    rw [decode_ofChars, decode_ofChars_append] at hdecode
    exact ⟨decode rest, hdecode⟩
  . rintro ⟨rest, rfl⟩
    exact ⟨Bytes.ofChars rest, (Bytes.ofChars_append xs rest).symm⟩

theorem exists_prefix_drop {xs cs : List Char} {k : Nat} (hne : xs ≠ [])
    (h : Bytes.ofChars xs <+: (Bytes.ofChars cs).drop k) :
    ∃ i, k = offset (Bytes.ofChars cs) i ∧ xs <+: cs.drop i := by
  obtain ⟨x, more, rfl⟩ := List.exists_cons_of_ne_nil hne
  obtain ⟨b, tail, hchar, hlead, -⟩ := exists_lead x
  obtain ⟨i, hi⟩ : ∃ i, k = (Bytes.ofChars (cs.take i)).length := by
    obtain ⟨rest, heq⟩ := h
    rw [Bytes.ofChars_cons, hchar, List.cons_append, List.cons_append] at heq
    exact exists_boundary heq.symm hlead
  rw [← offset_ofChars] at hi
  refine ⟨i, hi, ?_⟩
  rw [hi, drop_offset, ofChars_prefix_iff] at h
  exact h

theorem isInfix_ofChars_iff (xs cs : List Char) : Bytes.ofChars xs <:+: Bytes.ofChars cs ↔ xs <:+: cs := by
  constructor
  . intro h
    by_cases hne : xs = []
    . rw [hne]
      exact List.nil_infix
    . obtain ⟨k, -, hhere⟩ := exists_drop_of_isInfix h
      obtain ⟨i, -, hi⟩ := exists_prefix_drop hne hhere
      exact isInfix_of_prefix_drop hi
  . rintro ⟨before, after, rfl⟩
    exact ⟨Bytes.ofChars before, Bytes.ofChars after, by simp only [Bytes.ofChars_append]⟩

theorem not_prefix_ofChars {xs cs : List Char} {i : Nat} (h : ∀ j < i, ¬ xs <+: cs.drop j) :
    ∀ k < offset (Bytes.ofChars cs) i, ¬ Bytes.ofChars xs <+: (Bytes.ofChars cs).drop k := by
  intro k hk hhere
  by_cases hne : xs = []
  . -- the empty text stands at the very beginning
    have hi : i = 0 := by
      apply Nat.eq_zero_of_not_pos
      intro hpos
      apply h 0 hpos
      rw [hne]
      exact List.nil_prefix
    rw [hi, offset_ofChars] at hk
    simp at hk
  . obtain ⟨j, rfl, hj⟩ := exists_prefix_drop hne hhere
    rw [offset_ofChars, offset_ofChars] at hk
    have hlt : j < i := by
      apply Nat.lt_of_not_le
      intro hle
      have htake := (ofChars_prefix_iff _ _).2 (List.take_prefix_take_left (l := cs) hle)
      have hlength := htake.length_le
      omega
    exact h j hlt hj

theorem firstAt_ofChars {xs cs : List Char} {i : Nat} (h : FirstAt xs cs i) :
    FirstAt (Bytes.ofChars xs) (Bytes.ofChars cs) (offset (Bytes.ofChars cs) i) where
  here := by
    rw [drop_offset, ofChars_prefix_iff]
    exact h.here
  before := not_prefix_ofChars h.before

end Characters

end Utf8

end VerboseExpr
