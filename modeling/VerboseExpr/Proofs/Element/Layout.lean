import VerboseExpr.Proofs.Element.Relocation

namespace VerboseExpr.Element

/-- Tokens with the given texts, whose offsets are their places in the list. -/
def placed (texts : List Bytes) : List Token := texts.mapIdx fun i text => ⟨text, i⟩

/-- The offset of the token at a place of the list, or -1 if there is none. -/
def offsetAt (ts : List Token) : Int → Int
  | .ofNat i => (ts[i]?.map (·.offset)).getD (-1)
  | .negSucc _ => -1

theorem relocate_placed (ts : List Token) : (placed (ts.map (·.text))).map (Token.relocate (offsetAt ts)) = ts := by
  apply List.ext_getElem?
  intro i
  simp only [placed, List.getElem?_map, List.getElem?_mapIdx]
  cases hi : ts[i]? with
  | none => rfl
  | some t =>
    have hoffset : offsetAt ts (i : Nat) = t.offset := by
      show (ts[i]?.map (·.offset)).getD (-1) = t.offset
      rw [hi]
      rfl
    simp only [Option.map_some, Token.relocate, hoffset]

theorem offsetAt_cases {ts us : List Token} (h : ts.length = us.length) (i : Int) :
    (offsetAt ts i = -1 ∧ offsetAt us i = -1) ∨
      ∃ (n : Nat) (t u : Token), ts[n]? = some t ∧ us[n]? = some u ∧ offsetAt ts i = t.offset ∧
        offsetAt us i = u.offset := by
  cases i with
  | negSucc n => exact .inl ⟨rfl, rfl⟩
  | ofNat n =>
    by_cases hn : n < ts.length
    . have hts := List.getElem?_eq_getElem hn
      have hus := List.getElem?_eq_getElem (h ▸ hn)
      refine .inr ⟨n, _, _, hts, hus, ?_, ?_⟩
      . rw [offsetAt, hts]
        rfl
      . rw [offsetAt, hus]
        rfl
    . have hts := List.getElem?_eq_none (Nat.le_of_not_lt hn)
      have hus := List.getElem?_eq_none (h ▸ Nat.le_of_not_lt hn)
      refine .inl ⟨?_, ?_⟩
      . rw [offsetAt, hts]
        rfl
      . rw [offsetAt, hus]
        rfl

theorem arguments_eq_placed (ts : List Token) :
    arguments ts = (arguments (placed (ts.map (·.text)))).mapError (Fault.relocate (offsetAt ts)) := by
  -- no token stands at -1, so that an unknown offset stays unknown
  have hrelocate := arguments_relocate (g := offsetAt ts) rfl (placed (ts.map (·.text)))
  rw [relocate_placed] at hrelocate
  exact hrelocate

variable {ts us : List Token}

theorem arguments_of_texts_eq (h : ts.map (·.text) = us.map (·.text)) :
    (∃ es, arguments ts = .ok es ∧ arguments us = .ok es) ∨
      ∃ f : Fault, arguments ts = .error (f.relocate (offsetAt ts)) ∧
        arguments us = .error (f.relocate (offsetAt us)) := by
  rw [arguments_eq_placed ts, arguments_eq_placed us, h]
  cases arguments (placed (us.map (·.text))) with
  | ok es => exact .inl ⟨es, rfl, rfl⟩
  | error f => exact .inr ⟨f, rfl, rfl⟩

theorem represent_seed (ts : List Token) : represent (seed ts) = (arguments ts).map (command rootName) :=
  represent_cons (Token.synthetic rootName) ts

theorem represent_eq_ok_iff_of_texts_eq (h : ts.map (·.text) = us.map (·.text)) (e : Element) :
    represent (seed ts) = .ok e ↔ represent (seed us) = .ok e := by
  rw [represent_seed, represent_seed]
  obtain ⟨es, hts, hus⟩ | ⟨f, hts, hus⟩ := arguments_of_texts_eq h
  . rw [hts, hus]
  . rw [hts, hus]
    simp [Except.map]

end VerboseExpr.Element
