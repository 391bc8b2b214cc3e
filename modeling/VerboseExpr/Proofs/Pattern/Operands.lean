import VerboseExpr.Pattern.Emit
import VerboseExpr.Proofs.Except

namespace VerboseExpr.Pattern

theorem accepts_exactly {k n : Nat} : (Arity.exactly k).accepts n ↔ n = k := by
  simp [Arity.accepts, Arity.exactly, Arity.isOpen, Arity.unbounded]
  omega

theorem accepts_atLeast {k n : Nat} : (Arity.atLeast k).accepts n ↔ k ≤ n := by
  simp [Arity.accepts, Arity.atLeast, Arity.isOpen]

theorem mem_names_of_ofName? {v : Bytes} {c : Command} (h : Command.ofName? v = some c) : v ∈ c.names := by
  have hfound := List.find?_some h
  simpa using hfound

theorem ofName?_of_mem_names {v : Bytes} {c : Command} (h : v ∈ c.names) : Command.ofName? v = some c := by
  have hall : ∀ d ∈ Command.all, ∀ w ∈ d.names, Command.ofName? w = some d := by decide +kernel
  apply hall c _ v h
  cases c <;> decide

theorem ofName?_name (c : Command) : Command.ofName? c.name = some c := ofName?_of_mem_names List.mem_cons_self

theorem ofName?_integer {v : Bytes} (h : isInteger v) : Command.ofName? v = none := by
  cases hc : Command.ofName? v with
  | none => rfl
  | some c =>
    have hnames : ∀ c ∈ Command.all, ∀ w ∈ c.names, isInteger w = false := by decide +kernel
    have hinteger := hnames c (List.mem_of_find?_eq_some hc) v (mem_names_of_ofName? hc)
    rw [hinteger] at h
    contradiction

/-- The pattern of argument number `index` of a command. -/
def operand (name : Bytes) (counts index : Nat) (e : Element) : Except Fault Bytes :=
  if index < counts then count index name e.value else emit e

theorem operand_of_le {counts index : Nat} (h : counts ≤ index) (name : Bytes) (e : Element) :
    operand name counts index e = emit e := by
  rw [operand, if_neg (by omega)]

theorem operand_of_lt {counts index : Nat} (h : index < counts) (name : Bytes) (e : Element) (part : Bytes) :
    operand name counts index e = .ok part ↔ isInteger e.value ∧ e.value = part := by
  rw [operand, if_pos h, count]
  split
  . next hinteger => simp [hinteger]
  . next hinteger => simp [hinteger]

theorem emitAll_cons (name : Bytes) (counts index : Nat) (e : Element) (rest : List Element) :
    emitAll name counts index (e :: rest) =
      (operand name counts index e).bind fun part =>
        (emitAll name counts (index + 1) rest).map (part :: ·) := by
  rw [emitAll, operand]
  split
  . cases count index name e.value with
    | error f => rfl
    | ok part => cases emitAll name counts (index + 1) rest <;> rfl
  . cases emit e with
    | error f => rfl
    | ok part => cases emitAll name counts (index + 1) rest <;> rfl

theorem emitAll_cons_eq_ok_iff {name : Bytes} {counts index : Nat} {e : Element} {rest : List Element}
    {parts : List Bytes} : emitAll name counts index (e :: rest) = .ok parts ↔
      ∃ part more, operand name counts index e = .ok part ∧
        emitAll name counts (index + 1) rest = .ok more ∧ parts = part :: more := by
  rw [emitAll_cons]
  exact Except.bind_cons_eq_ok_iff

theorem length_of_emitAll {name : Bytes} {counts index : Nat} {es : List Element} {parts : List Bytes}
    (h : emitAll name counts index es = .ok parts) : parts.length = es.length := by
  induction es generalizing index parts with
  | nil =>
    rw [emitAll, Except.ok.injEq] at h
    rw [← h]
    rfl
  | cons e rest ih =>
    obtain ⟨part, more, -, hmore, rfl⟩ := emitAll_cons_eq_ok_iff.1 h
    rw [List.length_cons, List.length_cons, ih hmore]

theorem exists_of_emitAll {name : Bytes} {counts index : Nat} {es : List Element} {parts : List Bytes}
    (h : emitAll name counts index es = .ok parts) :
    ∀ e ∈ es.drop (counts - index), ∃ p, emit e = .ok p := by
  induction es generalizing index parts with
  | nil => simp
  | cons e rest ih =>
    obtain ⟨part, more, hpart, hmore, rfl⟩ := emitAll_cons_eq_ok_iff.1 h
    intro x hx
    by_cases hindex : index < counts
    . have hnext : counts - index = counts - (index + 1) + 1 := by omega
      rw [hnext, List.drop_succ_cons] at hx
      exact ih hmore x hx
    . have hzero : counts - index = 0 := by omega
      have hnext : counts - (index + 1) = 0 := by omega
      rw [hzero, List.drop_zero] at hx
      cases List.mem_cons.1 hx with
      | inl heq =>
        rw [operand_of_le (by omega)] at hpart
        exact ⟨part, heq ▸ hpart⟩
      | inr hmem => exact ih hmore x (by rwa [hnext, List.drop_zero])

end VerboseExpr.Pattern
