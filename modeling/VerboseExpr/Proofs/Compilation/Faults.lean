import VerboseExpr.Analysis
import VerboseExpr.Proofs.Element.Parse
import VerboseExpr.Proofs.Pattern.Normal
import VerboseExpr.Proofs.Pattern.Operands

/-!
No source text makes a stage take something from a place past the end. What the later stages rely on is
ensured by earlier ones: the reader of tokens closes every quotation, and rewriting brackets keeps all
other tokens as they are; a command is only asked for its pattern once its arguments have been counted.
Every fault is therefore one that its stage raises on purpose.
-/

namespace VerboseExpr

/-- The stage that rejects an expression for this cause, if one does so on purpose. -/
def Cause.stage? : Cause → Option Stage
  | .unterminatedQuotation => some .tokenize
  | .emptyGroup | .mismatchedParentheses | .unfinishedExpression => some .parse
  | .unknownCommand _ | .argumentCount _ _ _ | .notAnInteger _ _ _ => some .emit
  | .outOfRange | .remark _ => none

/-- Is the fault one that the stage raises on purpose? Where the pattern is put together, no place is known. -/
def Fault.isOf (f : Fault) (stage : Stage) : Bool :=
  f.stage == stage && f.cause.stage? == some stage && (stage != .emit || f.offset == -1)

/-- If there is no value, then there is a fault that one of the stages raises on purpose. -/
def FailsAt {α : Type} (stages : List Stage) (x : Except Fault α) : Prop :=
  ∀ f, x = .error f → ∃ stage ∈ stages, f.isOf stage

namespace FailsAt

variable {α β : Type} {stages : List Stage}

theorem ok (a : α) : FailsAt stages (.ok a) := by
  intro f hf
  simp at hf

theorem error {f : Fault} {stage : Stage} (hstage : stage ∈ stages) (h : f.isOf stage) :
    FailsAt stages (.error f : Except Fault α) := by
  rintro g ⟨⟩
  exact ⟨stage, hstage, h⟩

theorem mono {x : Except Fault α} {more : List Stage} (hx : FailsAt stages x) (hmore : stages ⊆ more) :
    FailsAt more x := by
  intro f hf
  obtain ⟨stage, hstage, h⟩ := hx f hf
  exact ⟨stage, hmore hstage, h⟩

theorem bind {x : Except Fault α} {k : α → Except Fault β} (hx : FailsAt stages x)
    (hk : ∀ a, x = .ok a → FailsAt stages (k a)) : FailsAt stages (x >>= k) := by
  cases x with
  | error f =>
    obtain ⟨stage, hstage, h⟩ := hx f rfl
    exact error hstage h
  | ok a => exact hk a rfl

theorem map {x : Except Fault α} (g : α → β) (hx : FailsAt stages x) : FailsAt stages (x.map g) :=
  hx.bind fun a _ => ok (g a)

theorem mapM {xs : List α} {k : α → Except Fault β} (hk : ∀ a ∈ xs, FailsAt stages (k a)) :
    FailsAt stages (xs.mapM k) := by
  induction xs with
  | nil => exact ok []
  | cons x xs ih =>
    rw [List.mapM_cons]
    apply bind (hk x List.mem_cons_self)
    intro b _
    apply bind (ih fun a ha => hk a (List.mem_cons_of_mem x ha))
    intro bs _
    exact ok (b :: bs)

end FailsAt

namespace Element

section Cut

def Piece.tokens : Piece → List Token
  | leaf t => [t]
  | group ts => ts

theorem forall_mem_opening {P : Token → Prop} (hopen : ∀ offset, P ⟨[0x28], offset⟩)
    (hroot : P (Token.synthetic rootName)) (t : Token) (nested : Bool) : ∀ u ∈ opening t nested, P u := by
  rw [opening, List.forall_mem_append]
  constructor
  . split <;> simp [hroot]
  . split <;> simp [hopen]

theorem forall_mem_tokens_cut {P : Token → Prop} (hopen : ∀ offset, P ⟨[0x28], offset⟩)
    (hclose : ∀ offset, P ⟨[0x29], offset⟩) (hroot : P (Token.synthetic rootName))
    {opens inner ts : List Token} (hinner : ∀ t ∈ inner, P t) (hts : ∀ t ∈ ts, P t) :
    ∀ p ∈ (cut opens inner ts).pieces, ∀ t ∈ p.tokens, P t := by
  fun_induction cut opens inner ts with
  | case1 | case2 | case4 | case7 => simp
  | case3 opens inner t rest _ ih =>
    have hopening := forall_mem_opening hopen hroot t (!opens.isEmpty)
    exact ih (List.forall_mem_append.2 ⟨hopening, hinner⟩) (List.forall_mem_cons.1 hts).2
  | case5 inner t rest _ _ opener outer _ _ ih =>
    refine List.forall_mem_cons.2 ⟨?_, ih (by simp) (List.forall_mem_cons.1 hts).2⟩
    intro u hu
    exact hinner u (List.mem_reverse.1 hu)
  | case6 inner t rest _ _ opener outer _ _ ih =>
    exact ih (List.forall_mem_cons.2 ⟨hclose t.offset, hinner⟩) (List.forall_mem_cons.1 hts).2
  | case8 opens inner t rest _ _ _ ih =>
    obtain ⟨ht, hrest⟩ := List.forall_mem_cons.1 hts
    exact List.forall_mem_cons.2 ⟨List.forall_mem_singleton.2 ht, ih (by simp) hrest⟩
  | case9 opens inner t rest _ _ _ ih =>
    obtain ⟨ht, hrest⟩ := List.forall_mem_cons.1 hts
    exact ih (List.forall_mem_cons.2 ⟨ht, hinner⟩) hrest

theorem isOf_fault_cut (opens inner ts : List Token) :
    ∀ f ∈ (cut opens inner ts).fault, f.isOf .parse := by
  fun_induction cut opens inner ts with
  | case1 => simp
  | case2 | case4 | case7 =>
    rintro f ⟨⟩
    rfl
  | case3 _ _ _ _ _ ih | case5 _ _ _ _ _ _ _ _ _ ih | case6 _ _ _ _ _ _ _ _ _ ih | case8 _ _ _ _ _ _ _ ih
    | case9 _ _ _ _ _ _ _ ih => exact ih

end Cut

section Leaves

/-- `Reaches ts t`: while the tokens `ts` are represented, at whatever depth, the token `t` becomes a leaf. -/
inductive Reaches : List Token → Token → Prop where
  | here {name t : Token} {ts : List Token} : Piece.leaf t ∈ (cut [] [] ts).pieces → Reaches (name :: ts) t
  | inside {name t : Token} {ts group : List Token} :
    Piece.group group ∈ (cut [] [] ts).pieces → Reaches group t → Reaches (name :: ts) t

/-- If the token is a quotation, then it has both of its delimiters. -/
def Delimited (t : Token) : Prop := t.isQuoted → 2 ≤ t.text.length

theorem delimited_of_legible {t : Token} (h : Legible t) : Delimited t := by
  intro hquoted
  -- a quotation is no bracket, since brackets are not quotes
  have hbracket : ∀ c : UInt8, Token.isQuote c = false → t.text ≠ [c] := by
    intro c hc htext
    rw [Token.isQuoted, htext] at hquoted
    dsimp only at hquoted
    rw [hc] at hquoted
    simp at hquoted
  rcases h with hopen | hclose | ⟨e, hleaf⟩
  . rcases (isOpen_iff t).1 hopen with htext | htext
    . exact absurd htext (hbracket _ rfl)
    . exact absurd htext (hbracket _ rfl)
  . rcases (isClose_iff t).1 hclose with htext | htext
    . exact absurd htext (hbracket _ rfl)
    . exact absurd htext (hbracket _ rfl)
  . cases hleaf with
    | word hword =>
      rw [Token.classify_eq_quoted hquoted] at hword
      simp at hword
    | quoted _ htext =>
      rw [htext]
      simp

theorem delimited_root : Delimited (Token.synthetic rootName) := by
  intro hquoted
  exact absurd hquoted (by decide)

theorem delimited_of_mem_cut {ts : List Token} (h : ∀ t ∈ ts, Delimited t) :
    ∀ p ∈ (cut [] [] ts).pieces, ∀ t ∈ p.tokens, Delimited t := by
  apply forall_mem_tokens_cut
  . intro offset hquoted
    simp [Token.isQuoted, Token.isQuote] at hquoted
  . intro offset hquoted
    simp [Token.isQuoted, Token.isQuote] at hquoted
  . exact delimited_root
  . simp
  . exact h

theorem delimited_of_reaches {ts : List Token} {t : Token} (hreaches : Reaches ts t)
    (h : ∀ u ∈ ts, Delimited u) : Delimited t := by
  induction hreaches with
  | here hleaf =>
    exact delimited_of_mem_cut (fun u hu => h u (List.mem_cons_of_mem _ hu)) _ hleaf _ List.mem_cons_self
  | inside hgroup _ ih =>
    exact ih (delimited_of_mem_cut (fun u hu => h u (List.mem_cons_of_mem _ hu)) _ hgroup)

theorem delimited_seed {source : Bytes} {ts : List Token} (h : Token.read source = .ok ts) :
    ∀ t ∈ seed ts, Delimited t := by
  intro t ht
  cases List.mem_cons.1 ht with
  | inl heq =>
    rw [heq]
    exact delimited_root
  | inr hmem => exact delimited_of_legible (legible_of_read h t hmem)

end Leaves

section Represent

theorem leaf_failsAt {t : Token} (h : Delimited t) : FailsAt [.parse] (leaf t) := by
  rw [leaf]
  split
  . next hquoted =>
    have hlength := h hquoted
    rw [if_neg (by omega)]
    exact FailsAt.ok _
  . exact FailsAt.ok _

theorem Cut.arguments_failsAt {c : Cut} (hpieces : ∀ p ∈ c.pieces, FailsAt [.parse] p.element)
    (hfault : ∀ f ∈ c.fault, f.isOf .parse) : FailsAt [.parse] c.arguments := by
  rw [Cut.arguments]
  apply FailsAt.bind (FailsAt.mapM hpieces)
  intro args _
  split
  . next f heq =>
    exact FailsAt.error List.mem_cons_self (hfault f heq)
  . exact FailsAt.ok args

theorem represent_failsAt (ts : List Token) (h : ∀ t ∈ ts, Delimited t) :
    FailsAt [.parse] (represent ts) := by
  match ts with
  | [] =>
    rw [represent_nil]
    exact FailsAt.error List.mem_cons_self rfl
  | name :: rest =>
    have hpieces := delimited_of_mem_cut fun t ht => h t (List.mem_cons_of_mem name ht)
    rw [represent_cons, arguments]
    apply FailsAt.map
    apply Cut.arguments_failsAt
    . intro p hp
      cases p with
      | leaf t => exact leaf_failsAt (hpieces _ hp t List.mem_cons_self)
      | group ts =>
        have := openCount_lt_of_group_mem name hp
        exact represent_failsAt ts (hpieces _ hp)
    . exact isOf_fault_cut [] [] rest
termination_by openCount ts

end Represent

end Element

namespace Pattern

theorem position?_isSome {c : Command} {index : Nat} (h : index < c.counts) : (position? index).isSome := by
  have hcounts : c.counts ≤ 2 := by cases c <;> decide
  obtain rfl | rfl : index = 0 ∨ index = 1 := by omega
  . rfl
  . rfl

theorem render_isSome {c : Command} {parts : List Bytes} (called : Bytes)
    (h : c.arity.accepts parts.length) : (c.render called parts).isSome := by
  have hmin : c.arity.min ≤ parts.length := by
    rw [Arity.accepts, Bool.and_eq_true] at h
    exact of_decide_eq_true h.1
  cases c with
  | range | minMaxTimes =>
    cases parts with
    | nil => exact absurd hmin (by decide)
    | cons first others =>
      cases others with
      | nil => simp [Command.arity, Arity.exactly, Arity.atLeast] at hmin
      | cons second others => rfl
  | reference | times | minTimes =>
    cases parts with
    | nil => exact absurd hmin (by decide)
    | cons first others => rfl
  | _ => rfl

theorem count_failsAt {c : Command} {index : Nat} (name value : Bytes) (h : index < c.counts) :
    FailsAt [.emit] (count index name value) := by
  rw [count]
  split
  . exact FailsAt.ok value
  . obtain ⟨p, hp⟩ := Option.isSome_iff_exists.1 (position?_isSome h)
    rw [notAnInteger, hp]
    exact FailsAt.error List.mem_cons_self rfl

theorem emitAll_failsAt {c : Command} (name : Bytes) (index : Nat) {es : List Element}
    (h : ∀ e ∈ es, FailsAt [.emit] (emit e)) : FailsAt [.emit] (emitAll name c.counts index es) := by
  induction es generalizing index with
  | nil =>
    rw [emitAll]
    exact FailsAt.ok []
  | cons e rest ih =>
    rw [emitAll_cons]
    apply FailsAt.bind
    . rw [operand]
      split
      . next hindex => exact count_failsAt name e.value hindex
      . exact h e List.mem_cons_self
    . intro part _
      apply FailsAt.map
      exact ih (index + 1) fun x hx => h x (List.mem_cons_of_mem e hx)

theorem assemble_failsAt (v : Bytes) {es : List Element} (h : ∀ e ∈ es, FailsAt [.emit] (emit e)) :
    FailsAt [.emit] (assemble v es) := by
  rw [assemble]
  split
  . exact FailsAt.error List.mem_cons_self rfl
  . next c _ =>
    split
    . next haccepts =>
      apply FailsAt.bind (emitAll_failsAt v 0 h)
      intro parts hparts
      -- the patterns of the arguments are as many as the arguments that were counted
      rw [← length_of_emitAll hparts] at haccepts
      obtain ⟨p, hp⟩ := Option.isSome_iff_exists.1 (render_isSome v haccepts)
      rw [hp]
      exact FailsAt.ok p
    . exact FailsAt.error List.mem_cons_self rfl

theorem emit_failsAt (e : Element) : FailsAt [.emit] (emit e) := by
  induction e using Element.foldInduction with
  | literal v args =>
    rw [emit_literal]
    exact FailsAt.ok _
  | operands k v args hk ih =>
    rw [emit_of_ne_literal hk]
    exact assemble_failsAt v ih

end Pattern

section Sources

open Element

theorem read_failsAt (source : Bytes) : FailsAt [.tokenize] (Token.read source) := by
  intro f hf
  obtain ⟨pre, ts, d, body, -, -, -, -, rfl⟩ := Token.unclosed_of_read hf
  exact ⟨.tokenize, List.mem_cons_self, rfl⟩

theorem parse_failsAt (source : Bytes) : FailsAt [.tokenize, .parse] (parse source) := by
  apply FailsAt.bind ((read_failsAt source).mono (by simp))
  intro ts hts
  exact (represent_failsAt _ (delimited_seed hts)).mono (by simp)

theorem run_failsAt (source : Bytes) : FailsAt [.tokenize, .parse, .emit] (Compilation.run source) := by
  apply FailsAt.bind ((read_failsAt source).mono (by simp))
  intro ts hts
  apply FailsAt.bind ((represent_failsAt _ (delimited_seed hts)).mono (by simp))
  intro tree _
  apply FailsAt.bind ((Pattern.emit_failsAt tree).mono (by simp))
  intro pattern _
  exact FailsAt.ok _

/-- Every source gives a value or a fault that a stage raises on purpose. Quotations that become leaves have
both delimiters; count arguments have a place with a name; a command whose arguments have been counted finds
all that it asks for; and a bare command takes no more than what follows it. -/
theorem accesses_inRange (source : Bytes) :
    (FailsAt [.tokenize] (Token.read source) ∧ FailsAt [.tokenize, .parse] (parse source) ∧
      FailsAt [.tokenize, .parse, .emit] (compile source) ∧
      FailsAt [.tokenize, .parse, .emit] (Analysis.run source)) ∧
    (∀ ts t, Token.read source = .ok ts → Reaches (seed ts) t → t.isQuoted → 2 ≤ t.text.length) ∧
    (∀ e, FailsAt [.emit] (Pattern.emit e)) ∧
    ∀ c : Command,
      (∀ index, index < c.counts → (Pattern.position? index).isSome) ∧
      (∀ called parts, c.arity.accepts parts.length → (c.render called parts).isSome) ∧
      (c.arity.isOpen ∨ 0 ≤ c.arity.max) ∧ ∀ n, c.arity.taken n ≤ n := by
  refine ⟨⟨?_, ?_, ?_, ?_⟩, ?_, ?_, ?_⟩
  . exact read_failsAt source
  . exact parse_failsAt source
  . exact (run_failsAt source).map _
  . apply FailsAt.bind (run_failsAt source)
    intro c _
    exact FailsAt.ok _
  . intro ts t hread hreaches
    exact delimited_of_reaches hreaches (delimited_seed hread)
  . exact Pattern.emit_failsAt
  . intro c
    refine ⟨?_, ?_, ?_, ?_⟩
    . intro index hindex
      exact Pattern.position?_isSome hindex
    . intro called parts haccepts
      exact Pattern.render_isSome called haccepts
    . cases c <;> decide
    . exact c.arity.taken_le

-- a lone delimiter, which no source leads to, is out of range
example : represent [Token.synthetic rootName, ⟨[0x27], 0⟩] = .error Fault.outOfRange := by
  rw [represent_cons]
  rfl

end Sources

end VerboseExpr
