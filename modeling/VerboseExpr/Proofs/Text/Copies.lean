import VerboseExpr.Proofs.Text.Occurrence

namespace VerboseExpr

def copies {α : Type} (xs : List α) (n : Nat) : List α := (List.replicate n xs).flatten

def Between (least : Nat) (most : Option Nat) (n : Nat) : Prop := least ≤ n ∧ ∀ m ∈ most, n ≤ m

/-- From the place `i` on there are `n` copies in a row, as many as are between the bounds, and between the bounds
there are none at any earlier place. -/
structure LongestAt {α : Type} (xs ys : List α) (least : Nat) (most : Option Nat) (i n : Nat) : Prop where
  between : Between least most n
  here : copies xs n <+: ys.drop i
  longest : ∀ m, Between least most m → copies xs m <+: ys.drop i → m ≤ n
  before : ∀ m, Between least most m → ∀ j < i, ¬copies xs m <+: ys.drop j

/-- The right answer to where the first and longest copies stand, as the places where they begin and end. -/
def LocatesCopies {α : Type} (xs ys : List α) (least : Nat) (most : Option Nat) : Option (Nat × Nat) → Prop
  | none => ∀ n, Between least most n → ¬copies xs n <:+: ys
  | some (i, stop) => ∃ n, LongestAt xs ys least most i n ∧ stop = i + (copies xs n).length

theorem copies_singleton {α : Type} (x : α) (n : Nat) : copies [x] n = List.replicate n x := by
  simp [copies]

theorem copies_ofChars (xs : List Char) (n : Nat) : copies (Bytes.ofChars xs) n = Bytes.ofChars (copies xs n) := by
  induction n with
  | zero => rfl
  | succ n ih =>
    rw [copies, copies, List.replicate_succ, List.replicate_succ, List.flatten_cons, List.flatten_cons]
    rw [Bytes.ofChars_append]
    exact congrArg (Bytes.ofChars xs ++ ·) ih

theorem LongestAt.ofChars {xs cs : List Char} {least : Nat} {most : Option Nat} {i n : Nat}
    (h : LongestAt xs cs least most i n) :
    LongestAt (Bytes.ofChars xs) (Bytes.ofChars cs) least most (Utf8.offset (Bytes.ofChars cs) i) n where
  between := h.between
  here := by
    rw [copies_ofChars, Utf8.drop_offset, Utf8.ofChars_prefix_iff]
    exact h.here
  longest := by
    intro m hm hhere
    rw [copies_ofChars, Utf8.drop_offset, Utf8.ofChars_prefix_iff] at hhere
    exact h.longest m hm hhere
  before := by
    intro m hm
    rw [copies_ofChars]
    exact Utf8.not_prefix_ofChars (h.before m hm)

end VerboseExpr
