namespace Except

variable {ε δ α β : Type} {x : Except ε α}

theorem bind_eq_ok_iff {f : α → Except ε β} {b : β} : x.bind f = .ok b ↔ ∃ a, x = .ok a ∧ f a = .ok b := by
  cases x <;> simp [Except.bind]

theorem bind_eq_error_iff {f : α → Except ε β} {e : ε} :
    x.bind f = .error e ↔ x = .error e ∨ ∃ a, x = .ok a ∧ f a = .error e := by
  cases x <;> simp [Except.bind]

theorem map_eq_ok_iff {f : α → β} {b : β} : x.map f = .ok b ↔ ∃ a, x = .ok a ∧ f a = b := by
  cases x <;> simp [Except.map]

theorem map_eq_error_iff {f : α → β} {e : ε} : x.map f = .error e ↔ x = .error e := by
  cases x <;> simp [Except.map]

theorem mapError_eq_ok_iff {g : ε → δ} {a : α} : x.mapError g = .ok a ↔ x = .ok a := by
  cases x with
  | error e =>
    change (.error (g e) : Except δ α) = .ok a ↔ _
    simp
  | ok b =>
    change (.ok b : Except δ α) = .ok a ↔ _
    simp

section Cons

variable {xs : Except ε (List α)}

theorem bind_cons_eq_ok_iff {as : List α} :
    (x.bind fun a => xs.map (a :: ·)) = .ok as ↔ ∃ a more, x = .ok a ∧ xs = .ok more ∧ as = a :: more := by
  simp only [bind_eq_ok_iff, map_eq_ok_iff, exists_and_left, @eq_comm _ as]

theorem bind_cons_eq_error {e : ε} (h : (x.bind fun a => xs.map (a :: ·)) = .error e) :
    x = .error e ∨ xs = .error e := by
  obtain hx | ⟨a, -, hxs⟩ := bind_eq_error_iff.1 h
  . exact .inl hx
  . exact .inr (map_eq_error_iff.1 hxs)

end Cons

end Except
