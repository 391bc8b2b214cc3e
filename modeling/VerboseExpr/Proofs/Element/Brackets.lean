import Mathlib.Data.List.Chain
import VerboseExpr.Proofs.Element.Grammar

namespace VerboseExpr.Element

/-- The words over round and square brackets in which every bracket has a partner of its kind. -/
inductive Dyck : List UInt8 → Prop where
  | nil : Dyck []
  | round {u v : List UInt8} : Dyck u → Dyck v → Dyck (0x28 :: u ++ 0x29 :: v)
  | square {u v : List UInt8} : Dyck u → Dyck v → Dyck (0x5B :: u ++ 0x5D :: v)

def bracket? (t : Token) : Option UInt8 :=
  match t.text with
  | [c] => if Token.isBracket c then some c else none
  | _ => none

def bracketWord (ts : List Token) : List UInt8 := ts.filterMap bracket?

/-- No round bracket is followed at once by a bracket. -/
def Named (ts : List Token) : Prop :=
  ts.IsChain fun t u => t.text = [0x28] → bracket? u = none

/-- Lists of tokens in which every bracket has a partner of its kind. -/
inductive Balanced : List Token → Prop where
  | nil : Balanced []
  | leaf {t : Token} {ts : List Token} :
    t.isOpen = false → t.isClose = false → Balanced ts → Balanced (t :: ts)
  | group {opener closer : Token} {body ts : List Token} :
    closes opener closer → Balanced body → Balanced ts → Balanced (opener :: body ++ closer :: ts)

theorem bracket?_eq_some_iff (t : Token) (c : UInt8) :
    bracket? t = some c ↔ t.text = [c] ∧ Token.isBracket c := by
  unfold bracket?
  split
  . next b htext =>
    rw [htext, List.cons.injEq, Option.ite_none_right_eq_some, Option.some.injEq]
    constructor
    . rintro ⟨hb, rfl⟩
      exact ⟨⟨rfl, rfl⟩, hb⟩
    . rintro ⟨⟨rfl, -⟩, hb⟩
      exact ⟨hb, rfl⟩
  . next htext =>
    simp only [reduceCtorEq, false_iff, not_and]
    intro heq
    exact absurd heq (htext c)

theorem bracket?_eq_none_iff (t : Token) :
    bracket? t = none ↔ t.isOpen = false ∧ t.isClose = false := by
  rw [Option.eq_none_iff_forall_not_mem]
  simp only [Option.mem_def, bracket?_eq_some_iff, ← Bool.not_eq_true, isOpen_iff, isClose_iff]
  constructor
  . intro h
    refine ⟨?_, ?_⟩
    . rintro (ht | ht)
      . exact h _ ⟨ht, rfl⟩
      . exact h _ ⟨ht, rfl⟩
    . rintro (ht | ht)
      . exact h _ ⟨ht, rfl⟩
      . exact h _ ⟨ht, rfl⟩
  . rintro ⟨hopen, hclose⟩ c ⟨htext, hc⟩
    rw [htext] at hopen hclose
    simp only [Token.isBracket, Bool.or_eq_true, beq_iff_eq] at hc
    simp only [List.cons.injEq, and_true, not_or] at hopen hclose
    rcases hc with ((hc | hc) | hc) | hc
    . exact hopen.1 hc
    . exact hclose.1 hc
    . exact hopen.2 hc
    . exact hclose.2 hc

theorem bracketWord_append (ts us : List Token) :
    bracketWord (ts ++ us) = bracketWord ts ++ bracketWord us := List.filterMap_append

theorem bracketWord_cons_none {t : Token} (h : bracket? t = none) (ts : List Token) :
    bracketWord (t :: ts) = bracketWord ts := List.filterMap_cons_none h

theorem bracketWord_cons_some {t : Token} {c : UInt8} (htext : t.text = [c]) (hc : Token.isBracket c)
    (ts : List Token) : bracketWord (t :: ts) = c :: bracketWord ts :=
  List.filterMap_cons_some ((bracket?_eq_some_iff t c).2 ⟨htext, hc⟩)

theorem Leaf.bracket?_eq_none {t : Token} {e : Element} (h : Leaf t e) : bracket? t = none :=
  (bracket?_eq_none_iff t).2 h.not_bracket

theorem Items.dyck {ts : List Token} {es : List Element} (h : Items ts es) : Dyck (bracketWord ts) := by
  induction h with
  | nil => exact Dyck.nil
  | leaf hleaf _ ih =>
    rw [bracketWord_cons_none hleaf.bracket?_eq_none]
    exact ih
  | round ho hname _ hc _ ihbody ihts =>
    rw [bracketWord_append, bracketWord_cons_some ho rfl]
    rw [bracketWord_cons_none hname.bracket?_eq_none]
    rw [bracketWord_cons_some hc rfl]
    exact Dyck.round ihbody ihts
  | square ho _ hc _ ihbody ihts =>
    rw [bracketWord_append, bracketWord_cons_some ho rfl]
    rw [bracketWord_cons_some hc rfl]
    exact Dyck.square ihbody ihts

/-- Tokens after which any token may follow without leaving a group without a name. -/
structure Settled (ts : List Token) : Prop where
  named : Named ts
  last : ∀ t ∈ ts.getLast?, t.text ≠ [0x28]

theorem settled_nil : Settled [] := ⟨List.IsChain.nil, by simp⟩

theorem Settled.append {ts us : List Token} (hts : Settled ts) (hus : Settled us) :
    Settled (ts ++ us) := by
  constructor
  . apply List.IsChain.append hts.named hus.named
    intro t ht _ _ hround
    exact absurd hround (hts.last t ht)
  . intro t ht
    rw [List.getLast?_append] at ht
    cases hlast : us.getLast? with
    | none =>
      rw [hlast, Option.none_or] at ht
      exact hts.last t ht
    | some u =>
      rw [hlast] at ht
      exact hus.last t (by rw [hlast]; exact ht)

theorem settled_singleton {t : Token} (h : t.text ≠ [0x28]) : Settled [t] := by
  refine ⟨List.IsChain.singleton t, ?_⟩
  rintro u ⟨⟩
  exact h

theorem Settled.cons {t : Token} {ts : List Token} (ht : t.text ≠ [0x28]) (hts : Settled ts) :
    Settled (t :: ts) := (settled_singleton ht).append hts

theorem Settled.opener_cons {opener name : Token} {ts : List Token} (hname : bracket? name = none)
    (h : Settled (name :: ts)) : Settled (opener :: name :: ts) := by
  constructor
  . exact List.IsChain.cons_cons (fun _ => hname) h.named
  . rw [List.getLast?_cons_cons]
    exact h.last

theorem Leaf.text_ne_round {t : Token} {e : Element} (h : Leaf t e) : t.text ≠ [0x28] := by
  intro htext
  have hopen := (isOpen_iff t).2 (Or.inl htext)
  rw [h.not_bracket.1] at hopen
  simp at hopen

theorem Items.settled {ts : List Token} {es : List Element} (h : Items ts es) : Settled ts := by
  induction h with
  | nil => exact settled_nil
  | leaf hleaf _ ih => exact ih.cons hleaf.text_ne_round
  | round ho hname _ hc _ ihbody ihts =>
    apply Settled.opener_cons hname.bracket?_eq_none
    apply (ihbody.cons hname.text_ne_round).append
    apply ihts.cons
    simp [hc]
  | square ho _ hc _ ihbody ihts =>
    apply (ihbody.cons (by simp [ho])).append
    apply ihts.cons
    simp [hc]

theorem balanced_append_of_leaves {leaves ts : List Token} (hleaves : ∀ t ∈ leaves, bracket? t = none)
    (h : Balanced ts) : Balanced (leaves ++ ts) := by
  induction leaves with
  | nil => exact h
  | cons t rest ih =>
    have ht := (bracket?_eq_none_iff t).1 (hleaves t List.mem_cons_self)
    exact Balanced.leaf ht.1 ht.2 (ih fun u hu => hleaves u (List.mem_cons_of_mem t hu))

theorem balanced_of_bracketWord {o c : UInt8} {u v : List UInt8} {ts : List Token}
    (hts : bracketWord ts = o :: u ++ c :: v)
    (hcloses : ∀ opener closer : Token, opener.text = [o] → closer.text = [c] → closes opener closer)
    (hu : ∀ us, bracketWord us = u → Balanced us) (hv : ∀ vs, bracketWord vs = v → Balanced vs) :
    Balanced ts := by
  rw [bracketWord, List.cons_append, List.filterMap_eq_cons_iff] at hts
  obtain ⟨leaves, opener, rest, rfl, hleaves, ho, hrest⟩ := hts
  rw [List.filterMap_eq_append_iff] at hrest
  obtain ⟨body, rest', rfl, hbody, hrest'⟩ := hrest
  rw [List.filterMap_eq_cons_iff] at hrest'
  obtain ⟨leaves', closer, after, rfl, hleaves', hc, hafter⟩ := hrest'
  rw [bracket?_eq_some_iff] at ho hc
  apply balanced_append_of_leaves hleaves
  -- the leaves before the closing bracket belong to the group
  have hinner : bracketWord (body ++ leaves') = u := by
    rw [bracketWord, List.filterMap_append, hbody, List.filterMap_eq_nil_iff.2 hleaves', List.append_nil]
  have hgroup := Balanced.group (hcloses opener closer ho.1 hc.1) (hu _ hinner) (hv after hafter)
  simpa using hgroup

theorem balanced_of_dyck {w : List UInt8} (h : Dyck w) : ∀ ts, bracketWord ts = w → Balanced ts := by
  induction h with
  | nil =>
    intro ts hts
    rw [← List.append_nil ts]
    exact balanced_append_of_leaves (List.filterMap_eq_nil_iff.1 hts) Balanced.nil
  | round _ _ ihu ihv =>
    intro ts hts
    apply balanced_of_bracketWord hts _ ihu ihv
    intro opener closer ho hc
    simp [closes, ho, hc]
  | square _ _ ihu ihv =>
    intro ts hts
    apply balanced_of_bracketWord hts _ ihu ihv
    intro opener closer ho hc
    simp [closes, ho, hc]

theorem closes_iff (opener closer : Token) :
    closes opener closer ↔
      (opener.text = [0x28] ∧ closer.text = [0x29]) ∨ (opener.text = [0x5B] ∧ closer.text = [0x5D]) := by
  simp [closes]

theorem Items.of_cons {t : Token} {ts : List Token} {es : List Element} (h : Items (t :: ts) es)
    (ht : t.isOpen = false) : ∃ e es', Leaf t e ∧ Items ts es' ∧ es = e :: es' := by
  generalize hus : t :: ts = us at h
  cases h with
  | nil => simp at hus
  | leaf hleaf hitems =>
    obtain ⟨rfl, rfl⟩ := List.cons.injEq .. ▸ hus
    exact ⟨_, _, hleaf, hitems, rfl⟩
  | round ho =>
    obtain ⟨rfl, -⟩ := List.cons.injEq .. ▸ hus
    rw [(isOpen_iff t).2 (Or.inl ho)] at ht
    simp at ht
  | square ho =>
    obtain ⟨rfl, -⟩ := List.cons.injEq .. ▸ hus
    rw [(isOpen_iff t).2 (Or.inr ho)] at ht
    simp at ht

theorem exists_items_round {opener name closer : Token} {body ts : List Token}
    {inner es : List Element} (ho : opener.text = [0x28]) (hname : name.isOpen = false)
    (hc : closer.text = [0x29]) (hinner : Items (name :: body) inner) (hts : Items ts es) :
    ∃ es', Items (opener :: (name :: body) ++ closer :: ts) es' := by
  obtain ⟨e, args, hleaf, hargs, -⟩ := hinner.of_cons hname
  exact ⟨_, Items.round ho hleaf hargs hc hts⟩

theorem exists_items_of_balanced {ts : List Token} (h : Balanced ts) (hnamed : Named ts)
    (hts : ∀ t ∈ ts, Legible t) : ∃ es, Items ts es := by
  induction h with
  | nil => exact ⟨[], Items.nil⟩
  | @leaf t ts hopen hclose _ ih =>
    obtain ⟨e, hleaf⟩ := (hts t List.mem_cons_self).exists_leaf (by simp [hopen, hclose])
    obtain ⟨es, hitems⟩ := ih hnamed.of_cons fun u hu => hts u (List.mem_cons_of_mem t hu)
    exact ⟨e :: es, Items.leaf hleaf hitems⟩
  | @group opener closer body ts hcloses _ _ ihbody ihts =>
    have hnamed' : Named (body ++ closer :: ts) := hnamed.of_cons
    obtain ⟨inner, hinner⟩ := ihbody hnamed'.left_of_append fun u hu => hts u (by simp [hu])
    obtain ⟨es, hitems⟩ := ihts hnamed'.right_of_append.of_cons fun u hu => hts u (by simp [hu])
    rcases (closes_iff opener closer).1 hcloses with ⟨ho, hc⟩ | ⟨ho, hc⟩
    . cases body with
      | nil =>
        -- the closing bracket would stand right after the opening one
        have hbracket : bracket? closer = none := by
          have hnamed'' : Named (opener :: closer :: ts) := hnamed
          exact (List.isChain_cons_cons.1 hnamed'').1 ho
        rw [(bracket?_eq_some_iff closer 0x29).2 ⟨hc, rfl⟩] at hbracket
        simp at hbracket
      | cons name body =>
        have hname : bracket? name = none := (List.isChain_cons_cons.1 hnamed).1 ho
        exact exists_items_round ho ((bracket?_eq_none_iff name).1 hname).1 hc hinner hitems
    . exact ⟨_, Items.square ho hinner hc hitems⟩

/-- A list of tokens has a derivation exactly if its brackets are matched and its groups have names. -/
theorem exists_items_iff {ts : List Token} (hts : ∀ t ∈ ts, Legible t) :
    (∃ es, Items ts es) ↔ Dyck (bracketWord ts) ∧ Named ts := by
  constructor
  . rintro ⟨es, hitems⟩
    exact ⟨hitems.dyck, hitems.settled.named⟩
  . rintro ⟨hdyck, hnamed⟩
    exact exists_items_of_balanced (balanced_of_dyck hdyck ts rfl) hnamed hts

end VerboseExpr.Element
