import VerboseExpr.Proofs.Element.Represent
import VerboseExpr.Proofs.Token.Tiling

namespace VerboseExpr.Element

theorem legible_of_written {t : Token} {raw : Bytes} (h : Token.Written t.text raw) : Legible t := by
  generalize htext : t.text = text at h
  cases h with
  | @bracket c hc =>
    simp only [Token.isBracket, Bool.or_eq_true, beq_iff_eq] at hc
    rcases hc with ((rfl | rfl) | rfl) | rfl
    . exact Or.inl ((isOpen_iff t).2 (Or.inl htext))
    . exact Or.inr (Or.inl ((isClose_iff t).2 (Or.inl htext)))
    . exact Or.inl ((isOpen_iff t).2 (Or.inr htext))
    . exact Or.inr (Or.inl ((isClose_iff t).2 (Or.inr htext)))
  | word hne hall =>
    obtain ⟨c, w, rfl⟩ := List.exists_cons_of_ne_nil hne
    have hword := Token.classify_eq_word (by rw [htext]; rfl) (hall c List.mem_cons_self)
    exact Or.inr (Or.inr ⟨_, Leaf.word hword⟩)
  | quotation body hd => exact Or.inr (Or.inr ⟨_, Leaf.quoted hd htext⟩)

theorem legible_of_tiling {prev : Option Token} {offset : Nat} {src : Bytes} {ts : List Token}
    (h : Token.Tiling prev offset src ts) : ∀ t ∈ ts, Legible t := by
  induction h with
  | done => simp
  | token _ _ hwritten _ _ ih =>
    intro u hu
    cases List.mem_cons.1 hu with
    | inl heq =>
      rw [heq]
      exact legible_of_written hwritten
    | inr hmem => exact ih u hmem

theorem legible_of_read {source : Bytes} {ts : List Token} (h : Token.read source = .ok ts) :
    ∀ t ∈ ts, Legible t :=
  legible_of_tiling (Token.tiling_of_read h)

theorem parse_eq_map_arguments {source : Bytes} {ts : List Token} (h : Token.read source = .ok ts) :
    parse source = (arguments ts).map (command rootName) := by
  rw [parse, h]
  exact represent_cons (Token.synthetic rootName) ts

theorem parse_eq_ok_iff_items {source : Bytes} {ts : List Token} (h : Token.read source = .ok ts)
    (e : Element) : parse source = .ok e ↔ ∃ es, Items ts es ∧ e = command rootName es := by
  rw [parse_eq_map_arguments h, Except.map_eq_ok_iff]
  simp only [arguments_eq_ok_iff (legible_of_read h), eq_comm]

/-- A source that consists of tokens has a tree exactly if its brackets are matched and its groups have
names, and the tree is the one that reading the tokens by the grammar gives. -/
theorem parse_eq_ok_iff {source : Bytes} {ts : List Token} (h : Token.read source = .ok ts) :
    ((∃ e, parse source = .ok e) ↔ Dyck (bracketWord ts) ∧ Named ts) ∧
      ∀ e, parse source = .ok e ↔ ofTokens? ts = some e := by
  constructor
  . rw [← exists_items_iff (legible_of_read h)]
    constructor
    . rintro ⟨e, he⟩
      obtain ⟨es, hitems, -⟩ := (parse_eq_ok_iff_items h e).1 he
      exact ⟨es, hitems⟩
    . rintro ⟨es, hitems⟩
      exact ⟨_, (parse_eq_ok_iff_items h _).2 ⟨es, hitems, rfl⟩⟩
  . intro e
    rw [parse_eq_ok_iff_items h, ofTokens?_eq_some_iff (legible_of_read h)]

def mixedTokens : List Token :=
  [⟨[0x28], 0⟩, ⟨Bytes.ofString "or", 1⟩, ⟨Bytes.ofString "'a'b'", 4⟩, ⟨[0x5B], 11⟩,
    ⟨Bytes.ofString "c", 12⟩, ⟨[0x28], 14⟩, ⟨Bytes.ofString "\"d\"", 15⟩, ⟨[0x29], 18⟩,
    ⟨[0x5D], 19⟩, ⟨[0x29], 20⟩]

theorem parse_eq_ok_iff_nested :
    Token.read "(or 'a''b' [c (\"d\")])" = .ok mixedTokens ∧
      ((∃ e, parse "(or 'a''b' [c (\"d\")])" = .ok e) ↔ Dyck (bracketWord mixedTokens) ∧ Named mixedTokens) ∧
      ∀ e, parse "(or 'a''b' [c (\"d\")])" = .ok e ↔ ofTokens? mixedTokens = some e := by
  have hread : Token.read "(or 'a''b' [c (\"d\")])" = .ok mixedTokens := by decide +kernel
  exact ⟨hread, parse_eq_ok_iff hread⟩

end VerboseExpr.Element
