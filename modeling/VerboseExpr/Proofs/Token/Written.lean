import VerboseExpr.Token.Reader

namespace VerboseExpr.Token

def doubled (d : UInt8) (body : Bytes) : Bytes := body.flatMap fun c => if c = d then [d, d] else [c]

/-- The ways in which the text of a token may be written. -/
inductive Written : Bytes → Bytes → Prop where
  | bracket {c : UInt8} : isBracket c → Written [c] [c]
  | word {w : Bytes} : w ≠ [] → (∀ c ∈ w, isWordByte c) → Written w w
  | quotation {d : UInt8} (body : Bytes) :
    isQuote d → Written (d :: body ++ [d]) (d :: doubled d body ++ [d])

/-- Two words, or two quotations of one delimiter: without a blank between them they are read as one. -/
def Merge (t u : Token) : Prop :=
  (t.classify = .word ∧ u.classify = .word) ∨
    (t.isQuoted ∧ u.isQuoted ∧ t.text.head? = u.text.head?)

section Bytes

theorem isBlank_eq_false_of_isQuote {c : UInt8} (h : isQuote c) : isBlank c = false := by
  simp only [isQuote, Bool.or_eq_true, beq_iff_eq] at h
  rcases h with rfl | rfl <;> rfl

theorem isBlank_eq_false_of_isBracket {c : UInt8} (h : isBracket c) : isBlank c = false := by
  simp only [isBracket, Bool.or_eq_true, beq_iff_eq] at h
  rcases h with ((rfl | rfl) | rfl) | rfl <;> rfl

theorem isQuote_eq_false_of_isBracket {c : UInt8} (h : isBracket c) : isQuote c = false := by
  simp only [isBracket, Bool.or_eq_true, beq_iff_eq] at h
  rcases h with ((rfl | rfl) | rfl) | rfl <;> rfl

theorem isWordByte_iff (c : UInt8) :
    isWordByte c ↔ isBlank c = false ∧ isQuote c = false ∧ isBracket c = false := by
  simp [isWordByte, and_assoc]

end Bytes

section Quotations

theorem length_doubled (d : UInt8) (body : Bytes) :
    (doubled d body).length = body.length + body.count d := by
  induction body with
  | nil => rfl
  | cons c rest ih =>
    unfold doubled at ih ⊢
    rw [List.flatMap_cons, List.length_append, ih]
    by_cases h : c = d
    . subst h
      simp
      omega
    . simp [h]
      omega

theorem doubled_cons_self (d : UInt8) (body : Bytes) :
    doubled d (d :: body) = d :: d :: doubled d body := by
  simp [doubled]

theorem doubled_cons_of_ne {c d : UInt8} (h : c ≠ d) (body : Bytes) :
    doubled d (c :: body) = c :: doubled d body := by
  simp [doubled, h]

theorem readQuotation_cons_of_ne {c d : UInt8} (h : c ≠ d) (rest : Bytes) :
    readQuotation d (c :: rest) = (readQuotation d rest).cons c := by
  rw [readQuotation.eq_def]
  simp [h]

theorem readQuotation_doubled (d : UInt8) (body rest : Bytes) (h : rest.head? ≠ some d) :
    readQuotation d (doubled d body ++ d :: rest) = ⟨body, some rest⟩ := by
  induction body with
  | nil =>
    cases rest with
    | nil => simp [doubled, readQuotation]
    | cons e more =>
      have he : e ≠ d := by simpa using h
      simp [doubled, readQuotation, he]
  | cons c more ih =>
    by_cases hc : c = d
    . subst hc
      rw [doubled_cons_self, List.cons_append, List.cons_append, readQuotation]
      simp [ih, Quotation.cons]
    . rw [doubled_cons_of_ne hc, List.cons_append, readQuotation_cons_of_ne hc, ih]
      rfl

theorem readQuotation_doubled_open (d : UInt8) (body : Bytes) :
    readQuotation d (doubled d body) = ⟨body, none⟩ := by
  induction body with
  | nil => rfl
  | cons c more ih =>
    by_cases hc : c = d
    . subst hc
      rw [doubled_cons_self, readQuotation]
      simp [ih, Quotation.cons]
    . rw [doubled_cons_of_ne hc, readQuotation_cons_of_ne hc, ih]
      rfl

theorem eq_doubled_of_readQuotation (d : UInt8) (src : Bytes) :
    match (readQuotation d src).rest with
    | none => src = doubled d (readQuotation d src).body
    | some rest =>
      src = doubled d (readQuotation d src).body ++ d :: rest ∧ rest.head? ≠ some d := by
  -- two delimiters in a row stand for one, and a single one is the end
  fun_induction readQuotation d src with
  | case1 => rfl
  | case2 => simp [doubled]
  | case3 more ih =>
    simp only [Quotation.cons]
    split
    . next hrest =>
      rw [hrest] at ih
      rw [doubled_cons_self, ← ih]
    . next rest hrest =>
      rw [hrest] at ih
      rw [doubled_cons_self, List.cons_append, List.cons_append, ← ih.1]
      exact ⟨rfl, ih.2⟩
  | case4 e more he => simpa [doubled] using he
  | case5 c more hc ih =>
    simp only [Quotation.cons]
    split
    . next hrest =>
      rw [hrest] at ih
      rw [doubled_cons_of_ne hc, ← ih]
    . next rest hrest =>
      rw [hrest] at ih
      rw [doubled_cons_of_ne hc, List.cons_append, ← ih.1]
      exact ⟨rfl, ih.2⟩

end Quotations

section Continuation

def Continues (t : Token) (c : UInt8) : Prop :=
  (t.classify = .word ∧ isWordByte c) ∨ (isQuote c ∧ t.text.head? = some c)

/-- The source does not begin with a byte that belongs to the token before it. -/
def Fresh (prev : Option Token) (src : Bytes) : Prop :=
  ∀ t, prev = some t → ∀ c, src.head? = some c → ¬ Continues t c

theorem fresh_none (src : Bytes) : Fresh none src := by
  intro t ht
  simp at ht

theorem isQuoted_iff (t : Token) : t.isQuoted ↔ ∃ d, t.text.head? = some d ∧ isQuote d := by
  unfold isQuoted
  split
  . next c rest heq => simp [heq]
  . next heq => simp [heq]

theorem classify_ne_word_of_isBracket {t : Token} {c : UInt8} (htext : t.text = [c])
    (hc : isBracket c) : t.classify ≠ .word := by
  have hquoted : t.isQuoted = false := by
    simp [isQuoted, htext, isQuote_eq_false_of_isBracket hc]
  simp only [isBracket, Bool.or_eq_true, beq_iff_eq] at hc
  rcases hc with ((rfl | rfl) | rfl) | rfl <;> simp [classify, hquoted, isOpen, isClose, htext]

theorem classify_eq_word {t : Token} {c : UInt8} (htext : t.text.head? = some c) (hc : isWordByte c) :
    t.classify = .word := by
  obtain ⟨-, hquote, hbracket⟩ := (isWordByte_iff c).1 hc
  have hquoted : t.isQuoted = false := by
    rw [← Bool.not_eq_true, isQuoted_iff]
    simp [htext, hquote]
  have hne : ∀ b : UInt8, isBracket b → t.text ≠ [b] := by
    intro b hb heq
    rw [heq, List.head?_cons, Option.some.injEq] at htext
    rw [htext, hbracket] at hb
    simp at hb
  have hopen : t.isOpen = false := by
    simp [isOpen, hne 0x28 rfl, hne 0x5B rfl]
  have hclose : t.isClose = false := by
    simp [isClose, hne 0x29 rfl, hne 0x5D rfl]
  simp [classify, hquoted, hopen, hclose]

theorem classify_eq_quoted {t : Token} (h : t.isQuoted) : t.classify = .quoted := by
  simp [classify, h]

theorem Written.head {text raw : Bytes} (h : Written text raw) :
    ∃ c, text.head? = some c ∧ raw.head? = some c ∧ isBlank c = false := by
  cases h with
  | @bracket c hc => exact ⟨c, rfl, rfl, isBlank_eq_false_of_isBracket hc⟩
  | word hne hall =>
    obtain ⟨c, w, rfl⟩ := List.exists_cons_of_ne_nil hne
    have hc := (isWordByte_iff c).1 (hall c List.mem_cons_self)
    exact ⟨c, rfl, rfl, hc.1⟩
  | @quotation d body hd => exact ⟨d, rfl, rfl, isBlank_eq_false_of_isQuote hd⟩

theorem Written.ne_nil {text raw : Bytes} (h : Written text raw) : raw ≠ [] := by
  obtain ⟨c, -, hraw, -⟩ := h.head
  intro hnil
  simp [hnil] at hraw

theorem Written.getLast {text raw : Bytes} (h : Written text raw) :
    ∃ c, raw.getLast? = some c ∧ isBlank c = false := by
  cases h with
  | @bracket c hc => exact ⟨c, rfl, isBlank_eq_false_of_isBracket hc⟩
  | word hne hall =>
    refine ⟨text.getLast hne, List.getLast?_eq_some_getLast hne, ?_⟩
    have hc := (isWordByte_iff _).1 (hall _ (List.getLast_mem hne))
    exact hc.1
  | @quotation d body hd => exact ⟨d, List.getLast?_concat, isBlank_eq_false_of_isQuote hd⟩

theorem Written.isWordByte_head {t : Token} {raw : Bytes} {c : UInt8} (h : Written t.text raw)
    (ht : t.classify = .word) (hc : t.text.head? = some c) : isWordByte c := by
  generalize htext : t.text = text at h hc
  cases h with
  | bracket hb => exact absurd ht (classify_ne_word_of_isBracket htext hb)
  | word hne hall => exact hall c (List.mem_of_mem_head? hc)
  | @quotation d body hd =>
    have hquoted : t.isQuoted := (isQuoted_iff t).2 ⟨d, by rw [htext]; rfl, hd⟩
    rw [classify_eq_quoted hquoted] at ht
    simp at ht

theorem continues_iff_merge {p t : Token} {raw : Bytes} {c : UInt8} (h : Written t.text raw)
    (hc : raw.head? = some c) : Continues p c ↔ Merge p t := by
  obtain ⟨b, htext, hraw, -⟩ := h.head
  obtain rfl : b = c := by
    rw [hraw] at hc
    simpa using hc
  constructor
  . intro hcont
    rcases hcont with ⟨hp, hb⟩ | ⟨hb, hp⟩
    . exact Or.inl ⟨hp, classify_eq_word htext hb⟩
    . refine Or.inr ⟨(isQuoted_iff p).2 ⟨b, hp, hb⟩, (isQuoted_iff t).2 ⟨b, htext, hb⟩, ?_⟩
      rw [hp, htext]
  . intro hmerge
    rcases hmerge with ⟨hp, ht⟩ | ⟨hp, ht, heq⟩
    . exact Or.inl ⟨hp, h.isWordByte_head ht htext⟩
    . obtain ⟨d, hd, hquote⟩ := (isQuoted_iff p).1 hp
      rw [hd, htext, Option.some.injEq] at heq
      subst heq
      exact Or.inr ⟨hquote, hd⟩

theorem not_continues_of_isBlank {t : Token} {c : UInt8} (hc : isBlank c) : ¬ Continues t c := by
  intro hcont
  rcases hcont with ⟨-, hword⟩ | ⟨hquote, -⟩
  . rw [isWordByte_iff, hc] at hword
    simp at hword
  . rw [isBlank_eq_false_of_isQuote hquote] at hc
    simp at hc

theorem fresh_bracket {t : Token} {c : UInt8} (htext : t.text = [c]) (hc : isBracket c) (src : Bytes) :
    Fresh (some t) src := by
  rintro u ⟨⟩ b _ hcont
  rcases hcont with ⟨hword, -⟩ | ⟨hquote, hhead⟩
  . exact classify_ne_word_of_isBracket htext hc hword
  . rw [htext, List.head?_cons, Option.some.injEq] at hhead
    rw [← hhead, isQuote_eq_false_of_isBracket hc] at hquote
    simp at hquote

theorem fresh_word {t : Token} {c : UInt8} (htext : t.text.head? = some c) (hc : isWordByte c)
    (src : Bytes) : Fresh (some t) (src.dropWhile isWordByte) := by
  rintro u ⟨⟩ b hb hcont
  rcases hcont with ⟨-, hword⟩ | ⟨hquote, hhead⟩
  . have hstop := List.head?_dropWhile_not isWordByte src
    rw [hb] at hstop
    simp [hword] at hstop
  . rw [htext, Option.some.injEq] at hhead
    rw [← hhead, ((isWordByte_iff c).1 hc).2.1] at hquote
    simp at hquote

theorem fresh_quotation {t : Token} {d : UInt8} (htext : t.text.head? = some d) (hd : isQuote d)
    {src : Bytes} (hsrc : src.head? ≠ some d) : Fresh (some t) src := by
  rintro u ⟨⟩ b hb hcont
  rcases hcont with ⟨hword, -⟩ | ⟨-, hhead⟩
  . rw [classify_eq_quoted ((isQuoted_iff t).2 ⟨d, htext, hd⟩)] at hword
    simp at hword
  . rw [← hhead, htext] at hb
    exact hsrc hb

end Continuation

section Reading

theorem readFrom_blanks {blanks : Bytes} (h : ∀ c ∈ blanks, isBlank c) (offset : Nat) (src : Bytes) :
    readFrom offset (blanks ++ src) = readFrom (offset + blanks.length) src := by
  induction blanks generalizing offset with
  | nil => rfl
  | cons c rest ih =>
    have hc : isBlank c := h c List.mem_cons_self
    have hrest : ∀ b ∈ rest, isBlank b := fun b hb => h b (List.mem_cons_of_mem c hb)
    rw [List.cons_append, readFrom]
    simp only [hc, if_true]
    rw [ih hrest, List.length_cons]
    congr 1
    omega

theorem readFrom_bracket {c : UInt8} (hc : isBracket c) (offset : Nat) (src : Bytes) :
    readFrom offset (c :: src) = (readFrom (offset + 1) src).map (⟨[c], offset⟩ :: ·) := by
  rw [readFrom]
  simp [isBlank_eq_false_of_isBracket hc, isQuote_eq_false_of_isBracket hc, hc]

theorem readFrom_word {c : UInt8} (hc : isWordByte c) (offset : Nat) (src : Bytes) :
    readFrom offset (c :: src) =
      (readFrom (offset + (c :: src.takeWhile isWordByte).length) (src.dropWhile isWordByte)).map
        (⟨c :: src.takeWhile isWordByte, offset⟩ :: ·) := by
  obtain ⟨hblank, hquote, hbracket⟩ := (isWordByte_iff c).1 hc
  rw [readFrom]
  simp [hblank, hquote, hbracket]

theorem readFrom_quotation {d : UInt8} (hd : isQuote d) (offset : Nat) {src body rest : Bytes}
    (h : readQuotation d src = ⟨body, some rest⟩) :
    readFrom offset (d :: src) =
      (readFrom (offset + (doubled d body).length + 2) rest).map (⟨d :: body ++ [d], offset⟩ :: ·) := by
  rw [readFrom]
  simp only [isBlank_eq_false_of_isQuote hd, hd, if_true, Bool.false_eq_true, if_false]
  split
  . next hrest => simp [h] at hrest
  . next after hrest =>
    rw [h] at hrest ⊢
    rw [Option.some.injEq] at hrest
    rw [length_doubled, hrest]
    rfl

theorem readFrom_quotation_open {d : UInt8} (hd : isQuote d) (offset : Nat) {src body : Bytes}
    (h : readQuotation d src = ⟨body, none⟩) :
    readFrom offset (d :: src) = .error (unterminated offset (d :: body)) := by
  rw [readFrom]
  simp only [isBlank_eq_false_of_isQuote hd, hd, if_true, Bool.false_eq_true, if_false]
  split
  . rw [h]
  . next after hrest => simp [h] at hrest

theorem readFrom_written {t : Token} {raw : Bytes} (h : Written t.text raw) {offset : Nat}
    (hoffset : t.offset = offset) {rest : Bytes} (hfresh : Fresh (some t) rest) :
    readFrom offset (raw ++ rest) = (readFrom (offset + raw.length) rest).map (t :: ·) := by
  obtain ⟨text, _⟩ := t
  subst hoffset
  dsimp only at h
  cases h with
  | bracket hc => exact readFrom_bracket hc offset rest
  | word hne hall =>
    obtain ⟨c, w, rfl⟩ := List.exists_cons_of_ne_nil hne
    have hc : isWordByte c := hall c List.mem_cons_self
    have hw : ∀ b ∈ w, isWordByte b := fun b hb => hall b (List.mem_cons_of_mem c hb)
    -- what follows a word cannot go on with it, since the token would not be fresh otherwise
    have hstop : ∀ b, rest.head? = some b → isWordByte b = false := by
      intro b hb
      rw [← Bool.not_eq_true]
      intro hword
      exact hfresh _ rfl b hb (Or.inl ⟨classify_eq_word rfl hc, hword⟩)
    have htake : rest.takeWhile isWordByte = [] := by
      cases rest with
      | nil => rfl
      | cons b more => simp [hstop b rfl]
    have hdrop : rest.dropWhile isWordByte = rest := by
      cases rest with
      | nil => rfl
      | cons b more => simp [hstop b rfl]
    rw [List.cons_append, readFrom_word hc]
    rw [List.takeWhile_append_of_pos hw, List.dropWhile_append_of_pos hw, htake, hdrop]
    rw [List.append_nil]
  | @quotation d body hd =>
    have hnext : rest.head? ≠ some d := by
      intro hhead
      exact hfresh _ rfl d hhead (Or.inr ⟨hd, rfl⟩)
    rw [List.cons_append, List.cons_append, List.append_assoc, List.singleton_append]
    rw [readFrom_quotation hd offset (readQuotation_doubled d body rest hnext)]
    congr 2
    simp
    omega

end Reading

end VerboseExpr.Token
