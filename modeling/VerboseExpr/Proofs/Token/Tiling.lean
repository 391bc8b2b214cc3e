import VerboseExpr.Proofs.Token.Written

/-!
The grammar of tokens. A source is read without a fault exactly if it is a sequence of written tokens with
blanks between them, where two words or two quotations of one delimiter never touch; the tokens and their
offsets are then those of the sequence. Every other source ends in a quotation that is never closed.
-/

namespace VerboseExpr.Token

/-- `Tiling prev offset src ts`: from `offset` on, after the token `prev` if there is one, the source `src`
consists of the tokens `ts` with blanks around them. -/
inductive Tiling : Option Token → Nat → Bytes → List Token → Prop where
  | done {prev : Option Token} {offset : Nat} {blanks : Bytes} :
    (∀ c ∈ blanks, isBlank c) → Tiling prev offset blanks []
  | token {prev : Option Token} {offset : Nat} {blanks raw rest : Bytes} {t : Token} {ts : List Token} :
    (∀ c ∈ blanks, isBlank c) → (∀ p, prev = some p → Merge p t → blanks ≠ []) →
    Written t.text raw → t.offset = (offset + blanks.length : Nat) →
    Tiling (some t) (offset + blanks.length + raw.length) rest ts →
    Tiling prev offset (blanks ++ (raw ++ rest)) (t :: ts)

/-- A delimiter `d` after the tiled text `pre` opens a quotation: the last token is not a quotation of the
same delimiter, or a blank follows it. -/
def MayOpen (prev : Option Token) (pre : Bytes) (ts : List Token) (d : UInt8) : Prop :=
  ∀ t, ts.getLast?.or prev = some t → t.text.head? = some d → ∃ c, pre.getLast? = some c ∧ isBlank c

/-- The source is tiled text and then a quotation that is not closed, about which `f` complains. -/
def Unclosed (prev : Option Token) (offset : Nat) (src : Bytes) (f : Fault) : Prop :=
  ∃ pre ts d body, Tiling prev offset pre ts ∧ MayOpen prev pre ts d ∧ isQuote d ∧
    src = pre ++ d :: doubled d body ∧
    f = { stage := .tokenize, cause := .unterminatedQuotation,
          offset := (offset + pre.length : Nat), token := d :: body }

section Reading

theorem Tiling.fresh {prev : Option Token} {offset : Nat} {src : Bytes} {ts : List Token}
    (h : Tiling prev offset src ts) : Fresh prev src := by
  intro p hp c hc
  cases h with
  | done hblanks =>
    apply not_continues_of_isBlank
    exact hblanks c (List.mem_of_mem_head? hc)
  | @token _ _ blanks raw rest t ts hblanks hsep hwritten _ _ =>
    cases blanks with
    | nil =>
      obtain ⟨b, -, hraw, -⟩ := hwritten.head
      rw [List.nil_append, List.head?_append, hraw] at hc
      rw [continues_iff_merge hwritten (hraw.trans hc)]
      intro hmerge
      exact hsep p hp hmerge rfl
    | cons b blanks =>
      rw [List.cons_append, List.head?_cons, Option.some.injEq] at hc
      rw [← hc]
      apply not_continues_of_isBlank
      exact hblanks b List.mem_cons_self

theorem Tiling.eq_nil {prev : Option Token} {offset : Nat} {ts : List Token}
    (h : Tiling prev offset [] ts) : ts = [] := by
  generalize hsrc : ([] : Bytes) = src at h
  cases h with
  | done => rfl
  | token _ _ hwritten _ _ =>
    rw [List.nil_eq, List.append_eq_nil_iff, List.append_eq_nil_iff] at hsrc
    exact absurd hsrc.2.1 hwritten.ne_nil

theorem Tiling.readFrom_append {prev : Option Token} {offset : Nat} {pre tail : Bytes}
    {ts : List Token} (h : Tiling prev offset pre ts)
    (htail : ∀ t c, ts.getLast? = some t → tail.head? = some c → Continues t c →
      ∃ b, pre.getLast? = some b ∧ isBlank b) :
    readFrom offset (pre ++ tail) = (readFrom (offset + pre.length) tail).map (ts ++ ·) := by
  induction h with
  | done hblanks =>
    rw [readFrom_blanks hblanks]
    cases readFrom _ tail <;> rfl
  | @token prev offset blanks raw rest t ts hblanks _ hwritten hoffset hrest ih =>
    have hfresh : Fresh (some t) (rest ++ tail) := by
      cases rest with
      | cons b more =>
        intro p hp c hc
        exact hrest.fresh p hp c hc
      | nil =>
        -- the token is the last one, and the text ends with it and not with a blank
        rintro p ⟨⟩ c hc hcont
        obtain rfl := hrest.eq_nil
        obtain ⟨b, hlast, hb⟩ := htail t c rfl hc hcont
        obtain ⟨b', hlast', hb'⟩ := hwritten.getLast
        rw [List.append_nil, List.getLast?_append, hlast', Option.some_or, Option.some.injEq] at hlast
        rw [hlast, hb] at hb'
        simp at hb'
    have hlater : ∀ u c, ts.getLast? = some u → tail.head? = some c → Continues u c →
        ∃ b, rest.getLast? = some b ∧ isBlank b := by
      intro u c hu hc hcont
      have hlast : (t :: ts).getLast? = some u := by
        rw [List.getLast?_cons, hu]
        rfl
      obtain ⟨b, hb, hblank⟩ := htail u c hlast hc hcont
      cases hx : rest.getLast? with
      | none =>
        rw [List.getLast?_eq_none_iff] at hx
        subst hx
        rw [hrest.eq_nil] at hu
        simp at hu
      | some x =>
        rw [← List.append_assoc, List.getLast?_append, hx, Option.some_or] at hb
        exact ⟨b, hb, hblank⟩
    rw [List.append_assoc, List.append_assoc, readFrom_blanks hblanks]
    rw [readFrom_written hwritten hoffset hfresh]
    rw [ih hlater]
    have hlength : offset + (blanks ++ (raw ++ rest)).length =
        offset + blanks.length + raw.length + rest.length := by
      simp only [List.length_append]
      omega
    rw [hlength]
    cases readFrom _ tail <;> rfl

theorem Tiling.blank_cons {prev : Option Token} {offset : Nat} {src : Bytes} {ts : List Token}
    {c : UInt8} (hc : isBlank c) (h : Tiling none (offset + 1) src ts) :
    Tiling prev offset (c :: src) ts := by
  cases h with
  | done hblanks =>
    apply Tiling.done
    simpa [hc] using hblanks
  | @token _ _ blanks raw rest t ts hblanks _ hwritten hoffset hrest =>
    rw [← List.cons_append]
    apply Tiling.token
    . simpa [hc] using hblanks
    . intro p _ _
      simp
    . exact hwritten
    . rw [hoffset, List.length_cons]
      congr 1
      omega
    . have hlength : offset + (c :: blanks).length = offset + 1 + blanks.length := by
        simp only [List.length_cons]
        omega
      rw [hlength]
      exact hrest

theorem Tiling.written_cons {prev : Option Token} {offset : Nat} {raw rest : Bytes} {t : Token}
    {ts : List Token} (hfresh : Fresh prev (raw ++ rest)) (hwritten : Written t.text raw)
    (hoffset : t.offset = offset) (hrest : Tiling (some t) (offset + raw.length) rest ts) :
    Tiling prev offset (raw ++ rest) (t :: ts) := by
  rw [← List.nil_append (raw ++ rest)]
  apply Tiling.token
  . simp
  . intro p hp hmerge
    obtain ⟨c, -, hraw, -⟩ := hwritten.head
    have hcont := (continues_iff_merge hwritten hraw).2 hmerge
    exact absurd hcont (hfresh p hp c (by rw [List.head?_append, hraw]; rfl))
  . exact hwritten
  . exact hoffset
  . exact hrest

theorem Unclosed.blank_cons {prev : Option Token} {offset : Nat} {src : Bytes} {f : Fault}
    {c : UInt8} (hc : isBlank c) (h : Unclosed none (offset + 1) src f) :
    Unclosed prev offset (c :: src) f := by
  obtain ⟨pre, ts, d, body, htiling, hopen, hd, rfl, rfl⟩ := h
  refine ⟨c :: pre, ts, d, body, htiling.blank_cons hc, ?_, hd, rfl, ?_⟩
  . intro t ht hhead
    cases hlast : pre.getLast? with
    | none =>
      rw [List.getLast?_eq_none_iff] at hlast
      subst hlast
      exact ⟨c, rfl, hc⟩
    | some b =>
      refine ⟨b, by rw [List.getLast?_cons, hlast]; rfl, ?_⟩
      cases htiling with
      | done hblanks => exact hblanks b (List.mem_of_getLast? hlast)
      | token =>
        rw [List.getLast?_cons, Option.some_or] at ht
        obtain ⟨b', hb', hblank⟩ := hopen t (by rw [List.getLast?_cons, Option.some_or, ht]) hhead
        rw [hlast, Option.some.injEq] at hb'
        rw [hb']
        exact hblank
  . rw [List.length_cons]
    congr 2
    omega

theorem Unclosed.written_cons {prev : Option Token} {offset : Nat} {raw rest : Bytes} {t : Token}
    {f : Fault} (hfresh : Fresh prev (raw ++ rest)) (hwritten : Written t.text raw)
    (hoffset : t.offset = offset) (h : Unclosed (some t) (offset + raw.length) rest f) :
    Unclosed prev offset (raw ++ rest) f := by
  obtain ⟨pre, ts, d, body, htiling, hopen, hd, rfl, rfl⟩ := h
  have hfresh' : Fresh prev (raw ++ pre) := by
    obtain ⟨c, -, hraw, -⟩ := hwritten.head
    rw [Fresh, List.head?_append, hraw] at hfresh ⊢
    exact hfresh
  refine ⟨raw ++ pre, t :: ts, d, body, htiling.written_cons hfresh' hwritten hoffset, ?_, hd, ?_, ?_⟩
  . intro u hu hhead
    have hu' : ts.getLast?.or (some t) = some u := by
      rw [← hu, List.getLast?_cons]
      cases ts.getLast? <;> rfl
    obtain ⟨b, hb, hblank⟩ := hopen u hu' hhead
    exact ⟨b, by rw [List.getLast?_append, hb]; rfl, hblank⟩
  . rw [List.append_assoc]
  . rw [List.length_append]
    congr 2
    omega

theorem Unclosed.nil {prev : Option Token} {offset : Nat} {d : UInt8} (body : Bytes) (hd : isQuote d)
    (hfresh : Fresh prev (d :: doubled d body)) :
    Unclosed prev offset (d :: doubled d body) (unterminated offset (d :: body)) := by
  refine ⟨[], [], d, body, Tiling.done (by simp), ?_, hd, rfl, rfl⟩
  intro t ht hhead
  exact absurd (Or.inr ⟨hd, hhead⟩) (hfresh t ht d rfl)

def Outcome (prev : Option Token) (offset : Nat) (src : Bytes) : Prop :=
  (∃ ts, readFrom offset src = .ok ts ∧ Tiling prev offset src ts) ∨
    ∃ f, readFrom offset src = .error f ∧ Unclosed prev offset src f

theorem Outcome.blank_cons {prev : Option Token} {offset : Nat} {src : Bytes} {c : UInt8}
    (hc : isBlank c) (h : Outcome none (offset + 1) src) : Outcome prev offset (c :: src) := by
  have hread : readFrom offset (c :: src) = readFrom (offset + 1) src :=
    readFrom_blanks (by simpa using hc : ∀ b ∈ [c], isBlank b) offset src
  rcases h with ⟨ts, heq, htiling⟩ | ⟨f, heq, hunclosed⟩
  . exact Or.inl ⟨ts, hread.trans heq, htiling.blank_cons hc⟩
  . exact Or.inr ⟨f, hread.trans heq, hunclosed.blank_cons hc⟩

theorem Outcome.written_cons {prev : Option Token} {offset : Nat} {raw rest : Bytes} {t : Token}
    (hfresh : Fresh prev (raw ++ rest)) (hwritten : Written t.text raw) (hoffset : t.offset = offset)
    (hrest : Fresh (some t) rest) (h : Outcome (some t) (offset + raw.length) rest) :
    Outcome prev offset (raw ++ rest) := by
  have hread := readFrom_written hwritten hoffset hrest
  rcases h with ⟨ts, heq, htiling⟩ | ⟨f, heq, hunclosed⟩
  . rw [heq] at hread
    exact Or.inl ⟨t :: ts, hread, htiling.written_cons hfresh hwritten hoffset⟩
  . rw [heq] at hread
    exact Or.inr ⟨f, hread, hunclosed.written_cons hfresh hwritten hoffset⟩

theorem outcome (offset : Nat) (src : Bytes) (prev : Option Token) (hfresh : Fresh prev src) :
    Outcome prev offset src := by
  -- the cases are those of the reader, which takes a blank, a quotation, a bracket or a word at a time
  fun_induction readFrom offset src generalizing prev with
  | case1 offset => exact Or.inl ⟨[], by rw [readFrom], Tiling.done (by simp)⟩
  | case2 offset c rest hblank ih => exact Outcome.blank_cons hblank (ih none (fresh_none _))
  | case3 offset c rest hblank hquote q hq =>
    have hopen : readQuotation c rest = ⟨q.body, none⟩ := by
      rw [← hq]
    have hsplit := eq_doubled_of_readQuotation c rest
    rw [hopen] at hsplit
    have hunclosed : Unclosed prev offset (c :: doubled c q.body) (unterminated offset (c :: q.body)) :=
      Unclosed.nil q.body hquote (hsplit ▸ hfresh)
    rw [← hsplit] at hunclosed
    exact Or.inr ⟨_, readFrom_quotation_open hquote offset hopen, hunclosed⟩
  | case4 offset c rest hblank hquote q after hq ih =>
    have hclosed : readQuotation c rest = ⟨q.body, some after⟩ := by
      rw [← hq]
    have hsplit := eq_doubled_of_readQuotation c rest
    rw [hclosed] at hsplit
    obtain ⟨hrest, hnext⟩ := hsplit
    have hsrc : c :: rest = (c :: doubled c q.body ++ [c]) ++ after := by simpa using hrest
    have hlength : q.body.length + q.body.count c + 2 = (c :: doubled c q.body ++ [c]).length := by
      simp [length_doubled]
    have hafter : Fresh (some ⟨c :: q.body ++ [c], offset⟩) after := fresh_quotation rfl hquote hnext
    have hmore := ih _ hafter
    rw [hlength] at hmore
    rw [hsrc] at hfresh ⊢
    exact Outcome.written_cons hfresh (Written.quotation q.body hquote) rfl hafter hmore
  | case5 offset c rest hblank hquote hbracket ih =>
    have hrest : Fresh (some ⟨[c], offset⟩) rest := fresh_bracket rfl hbracket rest
    exact Outcome.written_cons hfresh (Written.bracket hbracket) rfl hrest (ih _ hrest)
  | case6 offset c rest hblank hquote hbracket word ih =>
    have hword : isWordByte c := by
      simp [isWordByte, hblank, hquote, hbracket]
    have hsrc : c :: rest = (c :: rest.takeWhile isWordByte) ++ rest.dropWhile isWordByte := by
      rw [List.cons_append, List.takeWhile_append_dropWhile]
    have hall : ∀ b ∈ c :: rest.takeWhile isWordByte, isWordByte b :=
      List.forall_mem_cons.2 ⟨hword, List.all_eq_true.1 List.all_takeWhile⟩
    have hafter : Fresh (some ⟨c :: rest.takeWhile isWordByte, offset⟩) (rest.dropWhile isWordByte) :=
      fresh_word rfl hword rest
    rw [hsrc] at hfresh ⊢
    exact Outcome.written_cons hfresh (Written.word (by simp) hall) rfl hafter (ih _ hafter)

theorem Tiling.readFrom_eq {prev : Option Token} {offset : Nat} {src : Bytes} {ts : List Token}
    (h : Tiling prev offset src ts) : readFrom offset src = .ok ts := by
  have happend : readFrom offset (src ++ []) = (readFrom (offset + src.length) []).map (ts ++ ·) :=
    h.readFrom_append (by simp)
  rw [List.append_nil, readFrom] at happend
  rw [happend]
  simp [Except.map]

theorem Unclosed.readFrom_eq {offset : Nat} {src : Bytes} {f : Fault}
    (h : Unclosed none offset src f) : readFrom offset src = .error f := by
  obtain ⟨pre, ts, d, body, htiling, hopen, hd, rfl, rfl⟩ := h
  have hopen' : ∀ t c, ts.getLast? = some t → (d :: doubled d body).head? = some c → Continues t c →
      ∃ b, pre.getLast? = some b ∧ isBlank b := by
    rintro t c ht ⟨⟩ hcont
    apply hopen t (by rw [ht]; rfl)
    rcases hcont with ⟨-, hword⟩ | ⟨-, hhead⟩
    . rw [isWordByte_iff, hd] at hword
      simp at hword
    . exact hhead
  rw [htiling.readFrom_append hopen']
  rw [readFrom_quotation_open hd _ (readQuotation_doubled_open d body)]
  rfl

theorem tiling_of_read {src : Bytes} {ts : List Token} (h : read src = .ok ts) : Tiling none 0 src ts := by
  rcases outcome 0 src none (fresh_none src) with ⟨us, hread, htiling⟩ | ⟨f, hread, -⟩
  . rw [read, hread, Except.ok.injEq] at h
    rw [← h]
    exact htiling
  . rw [read, hread] at h
    simp at h

theorem unclosed_of_read {src : Bytes} {f : Fault} (h : read src = .error f) : Unclosed none 0 src f := by
  rcases outcome 0 src none (fresh_none src) with ⟨ts, hread, -⟩ | ⟨g, hread, hunclosed⟩
  . rw [read, hread] at h
    simp at h
  . rw [read, hread, Except.error.injEq] at h
    rw [← h]
    exact hunclosed

end Reading

section Offsets

theorem Tiling.le_offset {prev : Option Token} {offset : Nat} {src : Bytes} {ts : List Token}
    (h : Tiling prev offset src ts) : ∀ t ∈ ts, (offset : Int) ≤ t.offset := by
  induction h with
  | done => simp
  | @token _ offset blanks raw rest t ts _ _ _ hoffset _ ih =>
    intro u hu
    cases List.mem_cons.1 hu with
    | inl heq =>
      rw [heq, hoffset]
      omega
    | inr hmem =>
      have := ih u hmem
      omega

theorem Tiling.pairwise_offset {prev : Option Token} {offset : Nat} {src : Bytes} {ts : List Token}
    (h : Tiling prev offset src ts) : ts.Pairwise fun t u => t.offset < u.offset := by
  induction h with
  | done => exact List.Pairwise.nil
  | @token _ offset blanks raw rest t ts _ _ hwritten hoffset hrest ih =>
    apply List.Pairwise.cons _ ih
    intro u hu
    have hle := hrest.le_offset u hu
    have hraw := List.length_pos_iff.2 hwritten.ne_nil
    rw [hoffset]
    omega

end Offsets

/-- Reading succeeds with some tokens exactly if the source is tiled by them; otherwise the source ends in a
quotation that is not closed, and the fault names its place and its text. -/
theorem read_iff_tiling (src : Bytes) :
    (∀ ts, read src = .ok ts ↔ Tiling none 0 src ts) ∧
      ∀ f, read src = .error f ↔ Unclosed none 0 src f := by
  rcases outcome 0 src none (fresh_none src) with ⟨ts, hread, htiling⟩ | ⟨f, hread, hunclosed⟩
  . refine ⟨fun us => ⟨fun h => ?_, fun h => h.readFrom_eq⟩, fun f => ⟨fun h => ?_, fun h => h.readFrom_eq⟩⟩
    . rw [read, hread, Except.ok.injEq] at h
      rw [← h]
      exact htiling
    . rw [read, hread] at h
      simp at h
  . refine ⟨fun us => ⟨fun h => ?_, fun h => h.readFrom_eq⟩, fun g => ⟨fun h => ?_, fun h => h.readFrom_eq⟩⟩
    . rw [read, hread] at h
      simp at h
    . rw [read, hread, Except.error.injEq] at h
      rw [← h]
      exact hunclosed

end VerboseExpr.Token
