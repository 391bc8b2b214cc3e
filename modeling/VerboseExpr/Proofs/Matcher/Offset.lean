import VerboseExpr.Matcher.Basic
import VerboseExpr.Proofs.Text.Occurrence

namespace VerboseExpr

namespace Utf8

theorem width_eq_length (us : List Unit) : width us = (us.flatMap (·.bytes)).length := by
  induction us with
  | nil => rfl
  | cons u us ih => rw [width, ih, List.flatMap_cons, List.length_append, Unit.width]

theorem width_units (b : Bytes) : width (units b) = b.length := by
  rw [width_eq_length, flatMap_bytes_units]

theorem Unit.width_bad (b : UInt8) : (Unit.bad b).width = 1 := rfl

theorem width_of_not_valid {b : Bytes} {u : Unit} (hu : u ∈ units b) (h : u.valid = false) : u.width = 1 := by
  obtain hvalid | ⟨c, rfl⟩ := of_mem_units hu
  . rw [hvalid] at h
    contradiction
  . exact Unit.width_bad c

theorem width_pos {b : Bytes} {u : Unit} (hu : u ∈ units b) : 0 < u.width := by
  obtain hvalid | ⟨c, rfl⟩ := of_mem_units hu
  . obtain ⟨c, more, hbytes, -⟩ := exists_lead u.char
    rw [hvalid, Unit.width, hbytes]
    exact Nat.succ_pos more.length
  . exact Nat.lt_of_lt_of_eq Nat.one_pos (Unit.width_bad c).symm

theorem width_take_lt {us : List Unit} (hpos : ∀ u ∈ us, 0 < u.width) {j k : Nat} (hjk : j < k) (hk : k ≤ us.length) :
    width (us.take j) < width (us.take k) := by
  induction us generalizing j k with
  | nil => exact absurd hk (by simp; omega)
  | cons u us ih =>
    obtain ⟨hu, hus⟩ := List.forall_mem_cons.1 hpos
    cases k with
    | zero => omega
    | succ k =>
      cases j with
      | zero =>
        rw [List.take_zero, List.take_succ_cons, width, width]
        omega
      | succ j =>
        have hrest := ih hus (Nat.lt_of_succ_lt_succ hjk) (Nat.le_of_succ_le_succ hk)
        rw [List.take_succ_cons, List.take_succ_cons, width, width]
        omega

end Utf8

namespace Matcher

open Utf8

variable {subject : Bytes} {index : Nat}

theorem byteOffset_go_eq {passed place : Nat} {us : List Utf8.Unit} (hpassed : passed ≤ index)
    (hplace : place + width us = subject.length) :
    byteOffset.go subject index passed place us = place + width (us.take (index - passed)) := by
  induction us generalizing passed place with
  | nil =>
    rw [byteOffset.go, List.take_nil]
    exact hplace.symm
  | cons u us ih =>
    rw [byteOffset.go]
    rw [width] at hplace
    split
    . next heq => rw [heq, Nat.sub_self, List.take_zero, width, Nat.add_zero]
    . next hne =>
      have hsub : index - passed = index - (passed + 1) + 1 := by omega
      rw [ih (by omega) (by omega), hsub, List.take_succ_cons, width]
      omega

theorem byteOffset_eq (subject : Bytes) (index : Nat) : byteOffset subject index = offset subject index := by
  rw [byteOffset, byteOffset_go_eq (Nat.zero_le index) (by rw [Nat.zero_add, width_units]), Nat.zero_add, Nat.sub_zero]
  rfl

theorem matchOffset_eq (engine : Engine) (subject : Bytes) (start : Nat) :
    matchOffset engine subject start = offset subject start := by
  cases engine with
  | automaton => rfl
  | backtracking => exact byteOffset_eq subject start

theorem byteOffset_lt {j k : Nat} (hjk : j < k) (hk : k ≤ count subject) :
    byteOffset subject j < byteOffset subject k := by
  rw [byteOffset_eq, byteOffset_eq]
  exact width_take_lt (fun u hu => width_pos hu) hjk hk

theorem byteOffset_of_count_le {k : Nat} (hk : count subject ≤ k) : byteOffset subject k = subject.length := by
  rw [byteOffset_eq, offset, List.take_of_length_le hk, width_units]

end Matcher

end VerboseExpr
