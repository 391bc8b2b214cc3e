import VerboseExpr.Element.Reader

/-!
The grammar of expressions over their tokens, and a reader that follows it rule by rule:

    items ::= item*
    item  ::= word | quotation | '(' name items ')' | '[' items ']'
    name  ::= word | quotation

Main statement: the reader finds the derivation of a list of tokens if there is one.
-/

namespace VerboseExpr.Element

/-- A token that is an item of its own, and the element that it stands for. -/
inductive Leaf : Token → Element → Prop where
  | word {t : Token} : t.classify = .word → Leaf t (command t.text [])
  | quoted {t : Token} {d : UInt8} {body : Bytes} :
    Token.isQuote d → t.text = d :: body ++ [d] → Leaf t (literal body)

/-- The elements that a list of tokens derives. -/
inductive Items : List Token → List Element → Prop where
  | nil : Items [] []
  | leaf {t : Token} {ts : List Token} {e : Element} {es : List Element} :
    Leaf t e → Items ts es → Items (t :: ts) (e :: es)
  | round {opener name closer : Token} {body ts : List Token} {e : Element} {args es : List Element} :
    opener.text = [0x28] → Leaf name e → Items body args → closer.text = [0x29] → Items ts es →
    Items (opener :: name :: body ++ closer :: ts) (command name.text args :: es)
  | square {opener closer : Token} {body ts : List Token} {args es : List Element} :
    opener.text = [0x5B] → Items body args → closer.text = [0x5D] → Items ts es →
    Items (opener :: body ++ closer :: ts) (command rootName args :: es)

/-- Items that have been read, and the tokens that are left. -/
structure Descent (ts : List Token) where
  items : List Element
  rest : List Token
  rest_le : rest.length ≤ ts.length

theorem Descent.le_leaf {rest : List Token} (later : Descent rest) (t : Token) :
    later.rest.length ≤ (t :: rest).length :=
  Nat.le_succ_of_le later.rest_le

theorem Descent.le_square {rest after : List Token} (later : Descent after) (t : Token)
    (h : after.length < rest.length) : later.rest.length ≤ (t :: rest).length := by
  have hle := later.rest_le
  rw [List.length_cons]
  omega

theorem Descent.le_round {body after : List Token} (later : Descent after) (t name : Token)
    (h : after.length < body.length) : later.rest.length ≤ (t :: name :: body).length := by
  have hle := later.rest_le
  rw [List.length_cons, List.length_cons]
  omega

def Descent.close? {ts : List Token} (d : Descent ts) (closer : Bytes) :
    Option { after : List Token // after.length < ts.length } :=
  match d with
  | ⟨_, [], _⟩ => none
  | ⟨_, c :: after, h⟩ =>
    if c.text = closer then some ⟨after, by rw [List.length_cons] at h; omega⟩ else none

/-- Reads items up to a closing bracket or the end. -/
def descend (ts : List Token) : Option (Descent ts) :=
  match ts with
  | [] => some ⟨[], [], Nat.le_refl _⟩
  | t :: rest =>
    if t.isClose then some ⟨[], t :: rest, Nat.le_refl _⟩
    else if t.text = [0x28] then
      match rest with
      | [] => none
      | name :: body =>
        if name.isOpen || name.isClose then none
        else do
          let inner ← descend body
          let ⟨after, hafter⟩ ← inner.close? [0x29]
          let later ← descend after
          return ⟨command name.text inner.items :: later.items, later.rest, later.le_round t name hafter⟩
    else if t.text = [0x5B] then do
      let inner ← descend rest
      let ⟨after, hafter⟩ ← inner.close? [0x5D]
      let later ← descend after
      return ⟨command rootName inner.items :: later.items, later.rest, later.le_square t hafter⟩
    else do
      let later ← descend rest
      let e := if t.isQuoted then literal (t.text.drop 1).dropLast else command t.text []
      return ⟨e :: later.items, later.rest, later.le_leaf t⟩
termination_by ts.length
decreasing_by
  all_goals
    simp only [List.length_cons]
    omega

def ofTokens? (ts : List Token) : Option Element :=
  match descend ts with
  | some ⟨es, [], _⟩ => some (command rootName es)
  | _ => none

section Tokens

theorem isOpen_iff (t : Token) : t.isOpen ↔ t.text = [0x28] ∨ t.text = [0x5B] := by
  simp [Token.isOpen]

theorem isClose_iff (t : Token) : t.isClose ↔ t.text = [0x29] ∨ t.text = [0x5D] := by
  simp [Token.isClose]

theorem not_isClose_of_isOpen {t : Token} (h : t.isOpen) : t.isClose = false := by
  rcases (isOpen_iff t).1 h with h | h <;> simp [Token.isClose, h]

theorem not_isOpen_of_isClose {t : Token} (h : t.isClose) : t.isOpen = false := by
  rcases (isClose_iff t).1 h with h | h <;> simp [Token.isOpen, h]

theorem Leaf.not_bracket {t : Token} {e : Element} (h : Leaf t e) :
    t.isOpen = false ∧ t.isClose = false := by
  cases h with
  | word hword =>
    unfold Token.classify at hword
    split at hword
    . simp at hword
    . split at hword
      . simp at hword
      . split at hword
        . simp at hword
        . next hopen hclose => exact ⟨by simpa using hopen, by simpa using hclose⟩
  | @quoted d body hd htext =>
    have hlen : ∀ b : UInt8, t.text ≠ [b] := by
      intro b heq
      have := congrArg List.length (htext.symm.trans heq)
      simp at this
    simp [Token.isOpen, Token.isClose, hlen]

theorem Leaf.isQuoted_eq {t : Token} {e : Element} (h : Leaf t e) :
    (if t.isQuoted then literal (t.text.drop 1).dropLast else command t.text []) = e := by
  cases h with
  | word hword =>
    have hquoted : t.isQuoted = false := by
      rw [← Bool.not_eq_true]
      intro hquoted
      simp [Token.classify, hquoted] at hword
    simp [hquoted]
  | @quoted d body hd htext =>
    have hquoted : t.isQuoted := by
      rw [Token.isQuoted, htext]
      exact hd
    simp [hquoted, htext]

end Tokens

section Descent

/-- What `descend` gives, without the bound on what is left. -/
def descent? (ts : List Token) : Option (List Element × List Token) :=
  (descend ts).map fun d => (d.items, d.rest)

theorem descent?_nil : descent? [] = some ([], []) := by
  rw [descent?, descend]
  rfl

theorem descent?_close {t : Token} (h : t.isClose) (ts : List Token) :
    descent? (t :: ts) = some ([], t :: ts) := by
  rw [descent?, descend.eq_def]
  simp [h]

theorem descent?_leaf {t : Token} (hopen : t.isOpen = false) (hclose : t.isClose = false)
    (ts : List Token) :
    descent? (t :: ts) = (descent? ts).map fun (es, rest) =>
      ((if t.isQuoted then literal (t.text.drop 1).dropLast else command t.text []) :: es, rest) := by
  have hopen' : t.text ≠ [0x28] ∧ t.text ≠ [0x5B] := by
    rw [← not_or, ← isOpen_iff, hopen]
    simp
  rw [descent?, descend.eq_def]
  simp only [hclose, Bool.false_eq_true, if_false, hopen'.1, hopen'.2]
  rw [descent?]
  cases descend ts <;> rfl

/-- The group of the given name whose arguments are followed by `closer`, and the items after it. -/
def descentGroup? (name closer : Bytes) (body : List Token) : Option (List Element × List Token) :=
  match descent? body with
  | some (args, c :: after) =>
    if c.text = closer then (descent? after).map fun (es, rest) => (command name args :: es, rest)
    else none
  | _ => none

theorem descentGroup?_eq_some {name closer : Bytes} {body rest : List Token} {es : List Element}
    (h : descentGroup? name closer body = some (es, rest)) :
    ∃ args c after es', descent? body = some (args, c :: after) ∧ c.text = closer ∧
      descent? after = some (es', rest) ∧ es = command name args :: es' := by
  unfold descentGroup? at h
  split at h
  . next args c after hbody =>
    split at h
    . next hc =>
      obtain ⟨⟨es', rest'⟩, hafter, heq⟩ := Option.map_eq_some_iff.1 h
      obtain ⟨rfl, rfl⟩ := Prod.mk.injEq .. ▸ heq
      exact ⟨args, c, after, es', hbody, hc, hafter, rfl⟩
    . simp at h
  . simp at h

theorem map_descend_group {ts body : List Token} (name closer : Bytes)
    (hle : ∀ {after : List Token} (later : Descent after), after.length < body.length →
      later.rest.length ≤ ts.length) :
    (do
      let inner ← descend body
      let ⟨after, hafter⟩ ← inner.close? closer
      let later ← descend after
      return ⟨command name inner.items :: later.items, later.rest, hle later hafter⟩ : Option (Descent ts)).map
        (fun d => (d.items, d.rest)) = descentGroup? name closer body := by
  rw [descentGroup?, descent?]
  cases descend body with
  | none => rfl
  | some inner =>
    obtain ⟨args, rest, hrest⟩ := inner
    cases rest with
    | nil => rfl
    | cons c after =>
      by_cases hc : c.text = closer
      . simp only [Descent.close?, hc, if_true, Option.map_some, descent?, Option.bind_eq_bind,
          Option.bind_some, Option.pure_def]
        cases descend after <;> rfl
      . simp [Descent.close?, hc]

theorem descent?_round {opener name : Token} (ho : opener.text = [0x28]) (body : List Token) :
    descent? (opener :: name :: body) =
      if name.isOpen || name.isClose then none else descentGroup? name.text [0x29] body := by
  have hclose : opener.isClose = false := by simp [Token.isClose, ho]
  rw [descent?, descend.eq_def]
  simp only [hclose, Bool.false_eq_true, if_false, ho, if_true]
  split
  . rfl
  . exact map_descend_group name.text [0x29] fun later => later.le_round opener name

theorem descent?_square {opener : Token} (ho : opener.text = [0x5B]) (body : List Token) :
    descent? (opener :: body) = descentGroup? rootName [0x5D] body := by
  have hclose : opener.isClose = false := by simp [Token.isClose, ho]
  rw [descent?, descend.eq_def]
  simp only [hclose, Bool.false_eq_true, if_false, ho, if_true]
  exact map_descend_group rootName [0x5D] fun later => later.le_square opener

def Stops (ts : List Token) : Prop := ∀ t, ts.head? = some t → t.isClose

theorem descent?_of_stops {ts : List Token} (h : Stops ts) : descent? ts = some ([], ts) := by
  cases ts with
  | nil => exact descent?_nil
  | cons t rest => exact descent?_close (h t rfl) rest

theorem stops_cons {t : Token} (h : t.isClose) (ts : List Token) : Stops (t :: ts) := by
  rintro u ⟨⟩
  exact h

/-- The reader finds every derivation. -/
theorem Items.descent?_append {ts : List Token} {es : List Element} (h : Items ts es)
    {rest : List Token} (hrest : Stops rest) : descent? (ts ++ rest) = some (es, rest) := by
  induction h generalizing rest with
  | nil => exact descent?_of_stops hrest
  | leaf hleaf _ ih =>
    rw [List.cons_append, descent?_leaf hleaf.not_bracket.1 hleaf.not_bracket.2, ih hrest]
    rw [Option.map_some, hleaf.isQuoted_eq]
  | @round opener name closer body ts _ args es ho hname _ hc _ ihbody ihts =>
    have hclose : closer.isClose := (isClose_iff closer).2 (Or.inl hc)
    rw [List.append_assoc, List.cons_append, List.cons_append, List.cons_append]
    rw [descent?_round ho]
    rw [descentGroup?, ihbody (stops_cons hclose (ts ++ rest))]
    simp [hname.not_bracket.1, hname.not_bracket.2, hc, ihts hrest]
  | @square opener closer body ts args es ho _ hc _ ihbody ihts =>
    have hclose : closer.isClose := (isClose_iff closer).2 (Or.inr hc)
    rw [List.append_assoc, List.cons_append, List.cons_append]
    rw [descent?_square ho]
    rw [descentGroup?, ihbody (stops_cons hclose (ts ++ rest))]
    simp [hc, ihts hrest]

/-- A bracket, or a token that is an item of its own. -/
def Legible (t : Token) : Prop := t.isOpen ∨ t.isClose ∨ ∃ e, Leaf t e

theorem Legible.exists_leaf {t : Token} (h : Legible t) (hbracket : ¬ (t.isOpen || t.isClose)) :
    ∃ e, Leaf t e := by
  rcases h with hopen | hclose | hleaf
  . simp [hopen] at hbracket
  . simp [hclose] at hbracket
  . exact hleaf

theorem items_of_descent? (ts : List Token) (hts : ∀ t ∈ ts, Legible t) (es : List Element)
    (rest : List Token) (h : descent? ts = some (es, rest)) :
    ∃ read, ts = read ++ rest ∧ Items read es ∧ Stops rest := by
  match ts with
  | [] =>
    rw [descent?_nil] at h
    cases h
    exact ⟨[], rfl, Items.nil, by simp [Stops]⟩
  | t :: ts =>
    have htail : ∀ u ∈ ts, Legible u := fun u hu => hts u (List.mem_cons_of_mem t hu)
    -- a group: first its arguments up to the closing bracket, then the items after it
    have hgroup : ∀ name closer body, (∀ u ∈ body, Legible u) → body.length ≤ ts.length →
        descentGroup? name closer body = some (es, rest) →
        ∃ args c inner read es', body = inner ++ c :: (read ++ rest) ∧ Items inner args ∧
          c.text = closer ∧ Items read es' ∧ es = command name args :: es' ∧ Stops rest := by
      intro name closer body hbody hle hread
      obtain ⟨args, c, after, es', hargs, hc, hafter, rfl⟩ := descentGroup?_eq_some hread
      obtain ⟨inner, rfl, hinner, -⟩ := items_of_descent? body hbody _ _ hargs
      have hshort : after.length < (t :: ts).length := by
        simp only [List.length_append, List.length_cons] at hle ⊢
        omega
      obtain ⟨read, rfl, hitems, hstops⟩ :=
        items_of_descent? after (fun u hu => hbody u (by simp [hu])) _ _ hafter
      exact ⟨args, c, inner, read, es', rfl, hinner, hc, hitems, rfl, hstops⟩
    rcases hts t List.mem_cons_self with hopen | hclose | ⟨e, hleaf⟩
    . rcases (isOpen_iff t).1 hopen with ho | ho
      . cases ts with
        | nil => simp [descent?, descend, not_isClose_of_isOpen hopen, ho] at h
        | cons name body =>
          rw [descent?_round ho] at h
          split at h
          . simp at h
          . next hname =>
            obtain ⟨e, hleaf⟩ := (htail name List.mem_cons_self).exists_leaf hname
            obtain ⟨args, c, inner, read, es', rfl, hinner, hc, hitems, rfl, hstops⟩ :=
              hgroup _ _ body (fun u hu => htail u (List.mem_cons_of_mem name hu)) (by simp) h
            refine ⟨t :: name :: inner ++ c :: read, by simp, ?_, hstops⟩
            exact Items.round ho hleaf hinner hc hitems
      . rw [descent?_square ho] at h
        obtain ⟨args, c, inner, read, es', rfl, hinner, hc, hitems, rfl, hstops⟩ :=
          hgroup _ _ ts htail (Nat.le_refl _) h
        refine ⟨t :: inner ++ c :: read, by simp, ?_, hstops⟩
        exact Items.square ho hinner hc hitems
    . rw [descent?_close hclose] at h
      cases h
      exact ⟨[], rfl, Items.nil, stops_cons hclose ts⟩
    . rw [descent?_leaf hleaf.not_bracket.1 hleaf.not_bracket.2, Option.map_eq_some_iff] at h
      obtain ⟨⟨es', rest'⟩, hdescent, heq⟩ := h
      obtain ⟨rfl, rfl⟩ := Prod.mk.injEq .. ▸ heq
      obtain ⟨read, rfl, hitems, hstops⟩ := items_of_descent? ts htail es' rest' hdescent
      rw [hleaf.isQuoted_eq]
      exact ⟨t :: read, rfl, Items.leaf hleaf hitems, hstops⟩
termination_by ts.length
decreasing_by
  all_goals
    simp only [List.length_cons] at *
    omega

theorem ofTokens?_eq_map (ts : List Token) :
    ofTokens? ts = (descent? ts).bind fun (es, rest) =>
      if rest = [] then some (command rootName es) else none := by
  unfold ofTokens? descent?
  cases descend ts with
  | none => rfl
  | some d =>
    obtain ⟨es, rest, hle⟩ := d
    cases rest <;> rfl

theorem ofTokens?_eq_some_iff {ts : List Token} (hts : ∀ t ∈ ts, Legible t) (e : Element) :
    ofTokens? ts = some e ↔ ∃ es, Items ts es ∧ e = command rootName es := by
  rw [ofTokens?_eq_map]
  constructor
  . intro h
    obtain ⟨⟨es, rest⟩, hdescent, heq⟩ := Option.bind_eq_some_iff.1 h
    dsimp only at heq
    split at heq
    . next hrest =>
      subst hrest
      obtain ⟨read, rfl, hitems, -⟩ := items_of_descent? ts hts es [] hdescent
      rw [List.append_nil]
      exact ⟨es, hitems, by simpa using heq.symm⟩
    . simp at heq
  . rintro ⟨es, hitems, rfl⟩
    have hread : descent? (ts ++ []) = some (es, []) := hitems.descent?_append (by simp [Stops])
    rw [List.append_nil] at hread
    simp [hread]

end Descent

end VerboseExpr.Element
