import VerboseExpr.Proofs.Pattern.Escape

/-!
Characters that begin in one literal and end in the next. A pattern may be valid text though its literals, taken
by themselves, are not. Main statement: an escaped literal is made of whole characters up to the beginning of one
that is completed after it, and what completes it can only be the text of another literal.
-/

namespace VerboseExpr

namespace Utf8

theorem isValid_ofChars_append (cs : List Char) (k : Bytes) : isValid (Bytes.ofChars cs ++ k) = isValid k := by
  induction cs with
  | nil => rfl
  | cons c cs ih =>
    rw [Bytes.ofChars_cons, List.append_assoc, isValid, units_ofChar, List.all_cons, Bool.true_and]
    exact ih

theorem exists_char_of_isValid {b : UInt8} {k : Bytes} (h : isValid (b :: k)) :
    ∃ c rest, b :: k = Bytes.ofChar c ++ rest ∧ isValid rest := by
  rw [isValid, units, List.all_cons, Bool.and_eq_true] at h
  obtain hreads | hbad := reads_or_bad b k
  . obtain ⟨hchar, -, hsplit⟩ := hreads.ofChar_eq
    rw [← hchar] at hsplit
    exact ⟨_, _, hsplit, h.2⟩
  . rw [hbad] at h
    simp [Unit.bad] at h

theorem exists_cons_ofChar (c : Char) : ∃ b ds, Bytes.ofChar c = b :: ds := by
  obtain ⟨b, ds, heq, -⟩ := exists_reads_ofChar c []
  rw [List.append_nil] at heq
  exact ⟨b, ds, heq⟩

theorem le_of_mem_ofChar_cons {c : Char} {b d : UInt8} {ds : Bytes} (h : Bytes.ofChar c = b :: d :: ds) :
    ∀ x ∈ b :: d :: ds, 0x80 ≤ x.toNat := by
  intro x hx
  rw [← h] at hx
  apply le_of_mem_ofChar _ hx
  intro hc
  rw [ofChar_of_lt hc] at h
  simp at h

end Utf8

namespace Pattern

/-- The bytes `c` are the beginning of a character, or there are none, and `k` continues them to valid text. -/
structure Pending (c k : Bytes) : Prop where
  high : ∀ b ∈ c, 0x80 ≤ b.toNat
  valid : Utf8.isValid (c ++ k)
  next : c ≠ [] → ∃ b ∈ k.head?, 0x80 ≤ b.toNat

def IsAscii (w : Bytes) : Prop := ∀ b ∈ w, b.toNat < 0x80

instance (w : Bytes) : Decidable (IsAscii w) := List.decidableBAll (fun b : UInt8 => b.toNat < 0x80) w

section Escape

theorem escape_cons_high {b : UInt8} (hb : 0x80 ≤ b.toNat) (v : Bytes) : escape (b :: v) = b :: escape v := by
  have hsingle : escape [b] = [b] := by
    apply escape_eq_self
    simpa using hb
  rw [← List.singleton_append, escape_append, hsingle]
  rfl

theorem split_of_append_eq_escape {hs v y k : Bytes} (hhigh : ∀ b ∈ hs, 0x80 ≤ b.toNat)
    (h : hs ++ y = escape v ++ k) :
    (∃ z, v = hs ++ z) ∨ ∃ d z, hs = v ++ d :: z ∧ k = d :: (z ++ y) := by
  induction hs generalizing v with
  | nil => exact .inl ⟨v, rfl⟩
  | cons b hs ih =>
    rw [List.forall_mem_cons] at hhigh
    cases v with
    | nil =>
      rw [escape_nil] at h
      exact .inr ⟨b, hs, rfl, h.symm⟩
    | cons x v =>
      -- a backslash is no byte of a longer character, so the literal has no special byte here
      have hx : escape (x :: v) = x :: escape v ∧ b = x := by
        rw [escape_cons] at h
        split at h
        . rw [List.cons_append, List.append_assoc, List.cons_append, List.cons.injEq] at h
          have hb := hhigh.1
          rw [h.1] at hb
          exact absurd hb (by decide)
        . next hspecial =>
          rw [List.cons_append, List.append_assoc, List.cons_append, List.cons.injEq] at h
          refine ⟨?_, h.1⟩
          rw [escape_cons, if_neg hspecial]
          rfl
      obtain ⟨hescape, rfl⟩ := hx
      rw [hescape, List.cons_append, List.cons_append, List.cons.injEq] at h
      obtain ⟨z, hz⟩ | ⟨d, z, hd, hk⟩ := ih hhigh.2 h.2
      . exact .inl ⟨z, by rw [hz, List.cons_append]⟩
      . exact .inr ⟨d, z, by rw [hd, List.cons_append], hk⟩

theorem pending_of_forall_ne {v k : Bytes} (hv : ∀ d rest, v ≠ Bytes.ofChar d ++ rest)
    (h : Utf8.isValid (escape v ++ k)) : Pending v k := by
  cases v with
  | nil =>
    rw [escape_nil] at h
    exact ⟨by simp, h, by simp⟩
  | cons b rest =>
    -- a byte below 0x80 would be a character by itself
    have hb : 0x80 ≤ b.toNat := by
      apply Nat.not_lt.1
      intro hlt
      apply hv (Utf8.asciiChar b) rest
      have hchar := Utf8.toNat_asciiChar hlt
      rw [Utf8.ofChar_of_lt (by omega), Utf8.toUInt8_eq hchar]
      rfl
    rw [escape_cons_high hb, List.cons_append] at h
    obtain ⟨d, y, hfirst, -⟩ := Utf8.exists_char_of_isValid h
    obtain ⟨b', hs, hd⟩ := Utf8.exists_cons_ofChar d
    rw [hd, List.cons_append, List.cons.injEq] at hfirst
    obtain ⟨rfl, hfirst⟩ := hfirst
    have hhigh : ∀ x ∈ hs, 0x80 ≤ x.toNat := by
      cases hs with
      | nil => simp
      | cons x hs => exact (List.forall_mem_cons.1 (Utf8.le_of_mem_ofChar_cons hd)).2
    -- the first character ends inside the text, which is excluded, or goes on behind it
    obtain ⟨z, rfl⟩ | ⟨x, z, rfl, hk⟩ := split_of_append_eq_escape hhigh hfirst.symm
    . exact absurd (by rw [hd, List.cons_append]) (hv d z)
    . rw [List.forall_mem_append, List.forall_mem_cons] at hhigh
      rw [escape_eq_self hhigh.1] at h
      refine ⟨List.forall_mem_cons.2 ⟨hb, hhigh.1⟩, h, fun _ => ⟨x, ?_, hhigh.2.1⟩⟩
      rw [hk]
      rfl

theorem exists_pending_of_isValid (v : Bytes) {k : Bytes} (h : Utf8.isValid (escape v ++ k)) :
    ∃ ds c, v = Bytes.ofChars ds ++ c ∧ Pending c k := by
  by_cases hchar : ∃ d rest, v = Bytes.ofChar d ++ rest
  . obtain ⟨d, rest, hv⟩ := hchar
    have hlength : rest.length < v.length := by
      obtain ⟨b, bs, hd⟩ := Utf8.exists_cons_ofChar d
      rw [hv, hd, List.length_append, List.length_cons]
      omega
    rw [hv, escape_append, escape_ofChar, List.append_assoc, Utf8.isValid_ofChars_append] at h
    obtain ⟨ds, c, hrest, hpending⟩ := exists_pending_of_isValid rest h
    refine ⟨d :: ds, c, ?_, hpending⟩
    rw [hv, Bytes.ofChars_cons, List.append_assoc, ← hrest]
  . refine ⟨[], v, rfl, pending_of_forall_ne ?_ h⟩
    intro d rest hv
    exact hchar ⟨d, rest, hv⟩
termination_by v.length

end Escape

namespace Pending

variable {c k v w : Bytes}

theorem of_isValid (h : Utf8.isValid k) : Pending [] k := ⟨by simp, h, by simp⟩

theorem isValid (h : Pending [] k) : Utf8.isValid k := h.valid

theorem eq_nil_of_ascii {b : UInt8} (hb : b.toNat < 0x80) (h : Pending c (b :: k)) : c = [] := by
  by_cases hc : c = []
  . exact hc
  . obtain ⟨x, hx, hle⟩ := h.next hc
    rw [List.head?_cons, Option.mem_some_iff] at hx
    rw [← hx] at hle
    omega

theorem eq_nil_of_ascii_append (hw : IsAscii w) (hne : w ≠ []) (h : Pending c (w ++ k)) : c = [] := by
  obtain ⟨b, w, rfl⟩ := List.exists_cons_of_ne_nil hne
  exact h.eq_nil_of_ascii (hw b List.mem_cons_self)

theorem of_ascii_append (hw : IsAscii w) (h : Pending c (w ++ k)) : Pending c k ∧ c ++ w = w ++ c := by
  cases w with
  | nil => exact ⟨h, by rw [List.append_nil, List.nil_append]⟩
  | cons b w =>
    obtain rfl := h.eq_nil_of_ascii (hw b List.mem_cons_self)
    have hvalid := h.isValid
    rw [← Utf8.ofChars_map_asciiChar hw, Utf8.isValid_ofChars_append] at hvalid
    exact ⟨of_isValid hvalid, by rw [List.append_nil, List.nil_append]⟩

theorem literal (h : Pending c (escape v ++ k)) :
    ∃ ds c', c ++ v = Bytes.ofChars ds ++ c' ∧ c ++ escape v = escape (Bytes.ofChars ds) ++ c' ∧ Pending c' k := by
  have hescape : escape (c ++ v) = c ++ escape v := by rw [escape_append, escape_eq_self h.high]
  have hvalid := h.valid
  rw [← List.append_assoc, ← hescape] at hvalid
  obtain ⟨ds, c', hsplit, hpending⟩ := exists_pending_of_isValid (c ++ v) hvalid
  refine ⟨ds, c', hsplit, ?_, hpending⟩
  rw [← hescape, hsplit, escape_append, escape_eq_self hpending.high]

theorem isValid_of_literal (hw : IsAscii w) (hne : w ≠ []) (h : Pending [] (escape v ++ (w ++ k))) :
    Utf8.isValid v ∧ Pending [] k := by
  obtain ⟨ds, c, hsplit, -, hpending⟩ := h.literal
  obtain rfl := hpending.eq_nil_of_ascii_append hw hne
  rw [List.nil_append, List.append_nil] at hsplit
  rw [hsplit]
  exact ⟨Utf8.isValid_ofChars ds, (hpending.of_ascii_append hw).1⟩

end Pending

end Pattern

end VerboseExpr
