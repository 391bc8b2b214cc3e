import VerboseExpr.Proofs.Pattern.Escape
import VerboseExpr.Proofs.Pattern.Normal
import VerboseExpr.Proofs.Pattern.Operands

namespace VerboseExpr

theorem Bytes.join_cons_cons (sep p q : Bytes) (parts : List Bytes) :
    Bytes.join sep (p :: q :: parts) = p ++ (sep ++ Bytes.join sep (q :: parts)) := by
  rw [Bytes.join, List.append_assoc]
  simp

namespace Pattern

section Induction

theorem emitAll_forall {P : Bytes → Prop} {name : Bytes} {counts index : Nat} {es : List Element}
    {parts : List Bytes} (hes : ∀ e ∈ es, ∀ p, emit e = .ok p → P p)
    (h : emitAll name counts index es = .ok parts) :
    (∀ p ∈ parts.take (counts - index), isInteger p) ∧ ∀ p ∈ parts.drop (counts - index), P p := by
  induction es generalizing index parts with
  | nil =>
    rw [emitAll, Except.ok.injEq] at h
    simp [← h]
  | cons e rest ih =>
    obtain ⟨part, more, hpart, hmore, rfl⟩ := emitAll_cons_eq_ok_iff.1 h
    rw [List.forall_mem_cons] at hes
    obtain ⟨hcounts, hparts⟩ := ih hes.2 hmore
    by_cases hindex : index < counts
    . have hnext : counts - index = counts - (index + 1) + 1 := by omega
      obtain ⟨hinteger, rfl⟩ := (operand_of_lt hindex name e part).1 hpart
      rw [hnext, List.take_succ_cons, List.drop_succ_cons, List.forall_mem_cons]
      exact ⟨⟨hinteger, hcounts⟩, hparts⟩
    . have hzero : counts - index = 0 := by omega
      have hnext : counts - (index + 1) = 0 := by omega
      rw [operand_of_le (by omega)] at hpart
      rw [hnext, List.drop_zero] at hparts
      rw [hzero, List.drop_zero, List.forall_mem_cons]
      exact ⟨by simp, hes.1 part hpart, hparts⟩

theorem emitInduction {P : Bytes → Prop} (literal : ∀ v, P (escape v))
    (command : ∀ (c : Command) (called : Bytes) (parts : List Bytes) (p : Bytes), called ∈ c.names →
      (∀ q ∈ parts.take c.counts, isInteger q) → (∀ q ∈ parts.drop c.counts, P q) →
      c.render called parts = some p → P p)
    {e : Element} {p : Bytes} (h : emit e = .ok p) : P p := by
  induction e using Element.foldInduction generalizing p with
  | literal v args =>
    rw [emit_literal, Except.ok.injEq] at h
    rw [← h]
    exact literal v
  | operands k v args hk ih =>
    rw [emit_of_ne_literal hk] at h
    obtain ⟨c, parts, hc, -, hparts, hrender⟩ := exists_of_assemble h
    obtain ⟨hcounts, hrest⟩ := emitAll_forall (fun e he q hq => ih e he hq) hparts
    exact command c v parts p (mem_names_of_ofName? hc) hcounts hrest hrender

end Induction

/-- The bytes that give a pattern its structure. -/
def structureBytes : Bytes := Bytes.ofString "()[]|\\"

def isPlainByte (b : UInt8) : Bool := !structureBytes.contains b

def isEscapable (b : UInt8) : Bool :=
  isSpecial b || (Bytes.ofString "nrt").contains b || (0x30 ≤ b && b ≤ 0x39)

theorem isPlainByte_of_not_isSpecial {b : UInt8} (h : ¬isSpecial b) : isPlainByte b := by
  have hspecial : ∀ b ∈ structureBytes, isSpecial b := by decide +kernel
  rw [isPlainByte, Bool.not_eq_true', ← Bool.not_eq_true, List.contains_iff_mem]
  exact fun hmem => h (hspecial b hmem)

theorem isPlainByte_of_digit {b : UInt8} (h : 0x30 ≤ b.toNat ∧ b.toNat ≤ 0x39) : isPlainByte b := by
  have hdigit : ∀ b ∈ structureBytes, ¬(0x30 ≤ b.toNat ∧ b.toNat ≤ 0x39) := by decide +kernel
  rw [isPlainByte, Bool.not_eq_true', ← Bool.not_eq_true, List.contains_iff_mem]
  exact fun hmem => hdigit b hmem h

theorem isPlainByte_of_isInteger {v : Bytes} (h : isInteger v) : ∀ b ∈ v, isPlainByte b := fun b hb =>
  isPlainByte_of_digit (((isInteger_iff v).1 h).2 b hb)

/-- Patterns whose brackets are matched. `grouped` says whether bars may stand outside all brackets. -/
inductive WellBracketed : (grouped : Bool) → Bytes → Prop where
  | nil {g : Bool} : WellBracketed g []
  | plain {g : Bool} {b : UInt8} {k : Bytes} : isPlainByte b → WellBracketed g k → WellBracketed g (b :: k)
  | escape {g : Bool} {b : UInt8} {k : Bytes} :
    isEscapable b → WellBracketed g k → WellBracketed g (0x5C :: b :: k)
  | bar {k : Bytes} : WellBracketed true k → WellBracketed true (0x7C :: k)
  | round {g : Bool} {u k : Bytes} :
    WellBracketed true u → WellBracketed g k → WellBracketed g (0x28 :: u ++ 0x29 :: k)
  | square {g : Bool} {u k : Bytes} :
    u ≠ [] → WellBracketed false u → WellBracketed g k → WellBracketed g (0x5B :: u ++ 0x5D :: k)

namespace WellBracketed

variable {g : Bool} {u k : Bytes}

theorem append (hu : WellBracketed g u) (hk : WellBracketed g k) : WellBracketed g (u ++ k) := by
  induction hu with
  | nil => exact hk
  | plain hb _ ih => exact plain hb (ih hk)
  | escape hb _ ih => exact escape hb (ih hk)
  | bar _ ih => exact bar (ih hk)
  | round hu _ _ ih =>
    rw [List.append_assoc]
    exact round hu (ih hk)
  | square hne hu _ _ ih =>
    rw [List.append_assoc]
    exact square hne hu (ih hk)

theorem grouped (hu : WellBracketed g u) : WellBracketed true u := by
  induction hu with
  | nil => exact nil
  | plain hb _ ih => exact plain hb ih
  | escape hb _ ih => exact escape hb ih
  | bar _ ih => exact bar ih
  | round hu _ _ ih => exact round hu ih
  | square hne hu _ _ ih => exact square hne hu ih

theorem head_ne {b : UInt8} (h : WellBracketed g (b :: u)) : b ≠ 0x5D := by
  cases h with
  | plain hb =>
    rintro rfl
    contradiction
  | escape | bar | round | square => decide

theorem of_isPlainByte (h : ∀ b ∈ u, isPlainByte b) : WellBracketed g u := by
  induction u with
  | nil => exact nil
  | cons b u ih =>
    rw [List.forall_mem_cons] at h
    exact plain h.1 (ih h.2)

theorem flatten {parts : List Bytes} (h : ∀ p ∈ parts, WellBracketed g p) : WellBracketed g parts.flatten := by
  induction parts with
  | nil => exact nil
  | cons p parts ih =>
    rw [List.forall_mem_cons] at h
    exact h.1.append (ih h.2)

theorem join {parts : List Bytes} (h : ∀ p ∈ parts, WellBracketed true p) :
    WellBracketed true (Bytes.join (Bytes.ofString "|") parts) := by
  induction parts with
  | nil => exact nil
  | cons p parts ih =>
    rw [List.forall_mem_cons] at h
    cases parts with
    | nil => exact h.1
    | cons q parts =>
      have hrest := bar (ih h.2)
      rw [Bytes.join_cons_cons]
      exact h.1.append hrest

theorem of_escape (v : Bytes) : WellBracketed g (Pattern.escape v) := by
  induction v with
  | nil =>
    rw [escape_nil]
    exact nil
  | cons b v ih =>
    rw [escape_cons]
    split
    . next hb => exact escape (by simp [isEscapable, hb]) ih
    . next hb => exact plain (isPlainByte_of_not_isSpecial hb) ih

theorem of_reference {n : Bytes} (h : isInteger n) : WellBracketed g (0x5C :: n) := by
  cases n with
  | nil => contradiction
  | cons b n =>
    have hdigits := (isInteger_iff _).1 h
    rw [List.forall_mem_cons] at hdigits
    obtain ⟨-, hb, hn⟩ := hdigits
    have hescapable : isEscapable b := by
      simp [isEscapable, UInt8.le_iff_toNat_le, hb]
    exact escape hescapable (of_isPlainByte fun c hc => isPlainByte_of_digit (hn c hc))

theorem of_control (h : u ∈ Command.control.names) : WellBracketed g u := by
  simp only [Command.names, Command.name, Command.aliases, List.mem_cons, List.not_mem_nil, or_false] at h
  obtain rfl | rfl | rfl := h
  all_goals exact escape (by decide) nil

theorem group (hu : WellBracketed true u) (hk : ∀ b ∈ k, isPlainByte b) :
    WellBracketed g (Bytes.ofString "(?:" ++ u ++ 0x29 :: k) :=
  round (plain (by decide) (plain (by decide) hu)) (of_isPlainByte hk)

theorem counted {parts : List Bytes} (hparts : ∀ q ∈ parts, WellBracketed false q) (hk : ∀ b ∈ k, isPlainByte b) :
    WellBracketed g (Command.wrap "(?:" ")\x7b" parts ++ k) := by
  have hbrace : ∀ b ∈ 0x7B :: k, isPlainByte b := List.forall_mem_cons.2 ⟨by decide, hk⟩
  rw [Command.wrap, List.append_assoc]
  exact group (flatten hparts).grouped hbrace

end WellBracketed

open WellBracketed in
/-- Every command keeps its parts together. -/
theorem wellBracketed_of_render {c : Command} {called p : Bytes} {parts : List Bytes} (hcalled : called ∈ c.names)
    (hcounts : ∀ q ∈ parts.take c.counts, isInteger q)
    (hparts : ∀ q ∈ parts.drop c.counts, WellBracketed false q) (h : c.render called parts = some p) :
    WellBracketed false p := by
  cases c with
  | control =>
    obtain rfl : called = p := by simpa [Command.render] using h
    exact of_control hcalled
  | anyCharacter | start | finish =>
    obtain rfl := Option.some.inj h
    exact plain (by decide) ((flatten hparts).append nil)
  | concatenation =>
    obtain rfl := Option.some.inj h
    exact (flatten hparts).append nil
  | except =>
    obtain rfl := Option.some.inj h
    exact square (List.cons_ne_nil 0x5E _) (plain (by decide) (flatten hparts)) nil
  | group =>
    obtain rfl := Option.some.inj h
    exact round (flatten hparts).grouped nil
  | oneOrMore | optional | zeroOrMore =>
    obtain rfl := Option.some.inj h
    exact WellBracketed.group (flatten hparts).grouped (by decide +kernel)
  | alternation =>
    obtain rfl := Option.some.inj h
    exact WellBracketed.group ((join fun q hq => (hparts q hq).grouped).append nil) (by decide +kernel)
  | range =>
    obtain _ | ⟨lo, _ | ⟨hi, rest⟩⟩ := parts
    . contradiction
    . contradiction
    . obtain rfl := Option.some.inj h
      have hlo := hparts lo (by simp [Command.counts])
      have hhi := hparts hi (by simp [Command.counts])
      have hbody : WellBracketed false (lo ++ 0x2D :: hi) := hlo.append (plain (by decide) hhi)
      have hsquare := square (g := false) (by simp) hbody nil
      simp only [List.append_assoc, List.cons_append] at hsquare ⊢
      exact hsquare
  | reference =>
    obtain _ | ⟨n, rest⟩ := parts
    . contradiction
    . obtain rfl := Option.some.inj h
      exact of_reference (hcounts n (by simp [Command.counts]))
  | times | minTimes =>
    obtain _ | ⟨n, body⟩ := parts
    . contradiction
    . obtain rfl := Option.some.inj h
      have hn := isPlainByte_of_isInteger (hcounts n (by simp [Command.counts]))
      rw [List.append_assoc]
      exact counted hparts (List.forall_mem_append.2 ⟨hn, by decide +kernel⟩)
  | minMaxTimes =>
    obtain _ | ⟨n, _ | ⟨m, body⟩⟩ := parts
    . contradiction
    . contradiction
    . obtain rfl := Option.some.inj h
      have hn := isPlainByte_of_isInteger (hcounts n (by simp [Command.counts]))
      have hm := isPlainByte_of_isInteger (hcounts m (by simp [Command.counts]))
      simp only [List.append_assoc]
      apply counted hparts
      simp only [List.forall_mem_append]
      exact ⟨hn, by decide +kernel, hm, by decide +kernel⟩

theorem wellBracketed_of_emit {e : Element} {p : Bytes} (h : emit e = .ok p) : WellBracketed false p :=
  emitInduction WellBracketed.of_escape (fun _ _ _ _ => wellBracketed_of_render) h

end Pattern

end VerboseExpr
