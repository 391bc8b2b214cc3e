import VerboseExpr.Proofs.Element.Brackets
import VerboseExpr.Proofs.Except

/-!
The arguments that representing makes of a list of tokens. Cutting a list whose brackets are matched gives
one piece for every token outside brackets and one for every group, where the tokens of a group are those
between its brackets with all brackets made round. Main statement: tokens are represented exactly if
they have a derivation, and their arguments are then those of the derivation.
-/

namespace VerboseExpr.Element

def Piece.element : Piece → Except Fault Element
  | .leaf t => Element.leaf t
  | .group ts => represent ts

def Cut.arguments (c : Cut) : Except Fault (List Element) := do
  let args ← c.pieces.mapM Piece.element
  match c.fault with
  | some f => .error f
  | none => .ok args

/-- The arguments of the command that some tokens follow. -/
def arguments (ts : List Token) : Except Fault (List Element) := (cut [] [] ts).arguments

theorem represent_nil : represent [] = .error emptyGroup := by
  rw [represent]

theorem represent_cons (name : Token) (ts : List Token) :
    represent (name :: ts) = (arguments ts).map (command name.text) := by
  rw [represent, arguments, Cut.arguments]
  rw [List.mapM_subtype (g := Piece.element)]
  . rw [List.unattach_attach]
    cases (cut [] [] ts).pieces.mapM Piece.element with
    | error f => rfl
    | ok args => cases (cut [] [] ts).fault <;> rfl
  . intro p _
    cases p <;> rfl

theorem Cut.arguments_cons (p : Piece) (c : Cut) :
    (c.cons p).arguments = p.element.bind fun e => c.arguments.map (e :: ·) := by
  unfold Cut.arguments Cut.cons
  simp only [List.mapM_cons]
  cases p.element with
  | error f => rfl
  | ok e =>
    cases c.pieces.mapM Piece.element with
    | error f => rfl
    | ok es => cases c.fault <;> rfl

section Cut

/-- The tokens with all brackets made round, as they stand in the group around them. -/
def rounded (ts : List Token) : List Token :=
  ts.flatMap fun t =>
    if t.isOpen then (opening t true).reverse
    else if t.isClose then [⟨[0x29], t.offset⟩]
    else [t]

theorem rounded_append (ts us : List Token) : rounded (ts ++ us) = rounded ts ++ rounded us := by
  simp [rounded]

theorem rounded_cons_leaf {t : Token} (hopen : t.isOpen = false) (hclose : t.isClose = false)
    (ts : List Token) : rounded (t :: ts) = t :: rounded ts := by
  simp [rounded, hopen, hclose]

theorem rounded_cons_open {t : Token} (h : t.isOpen) (ts : List Token) :
    rounded (t :: ts) = (opening t true).reverse ++ rounded ts := by
  simp [rounded, h]

theorem rounded_cons_close {t : Token} (h : t.isClose) (ts : List Token) :
    rounded (t :: ts) = ⟨[0x29], t.offset⟩ :: rounded ts := by
  simp [rounded, not_isOpen_of_isClose h, h]

theorem isOpen_of_closes {opener closer : Token} (h : closes opener closer) : opener.isOpen := by
  rw [isOpen_iff]
  rcases (closes_iff opener closer).1 h with h | h
  . exact Or.inl h.1
  . exact Or.inr h.1

theorem isClose_of_closes {opener closer : Token} (h : closes opener closer) : closer.isClose := by
  rw [isClose_iff]
  rcases (closes_iff opener closer).1 h with h | h
  . exact Or.inl h.2
  . exact Or.inr h.2

variable (opens inner : List Token)

theorem cut_open {t : Token} (h : t.isOpen) (ts : List Token) :
    cut opens inner (t :: ts) = cut (t :: opens) (opening t (!opens.isEmpty) ++ inner) ts := by
  rw [cut.eq_def]
  simp [h]

theorem cut_leaf {t : Token} (hopen : t.isOpen = false) (hclose : t.isClose = false)
    (ts : List Token) : cut [] [] (t :: ts) = (cut [] [] ts).cons (.leaf t) := by
  rw [cut.eq_def]
  simp [hopen, hclose]

theorem cut_leaf_inside (opener : Token) {t : Token} (hopen : t.isOpen = false)
    (hclose : t.isClose = false) (ts : List Token) :
    cut (opener :: opens) inner (t :: ts) = cut (opener :: opens) (t :: inner) ts := by
  rw [cut.eq_def]
  simp [hopen, hclose]

theorem cut_close {opener closer : Token} (h : closes opener closer) (ts : List Token) :
    cut [opener] inner (closer :: ts) = (cut [] [] ts).cons (.group inner.reverse) := by
  have hclose := isClose_of_closes h
  rw [cut.eq_def]
  simp [not_isOpen_of_isClose hclose, hclose, h]

theorem cut_close_inside (outer : Token) {opener closer : Token} (h : closes opener closer)
    (ts : List Token) :
    cut (opener :: outer :: opens) inner (closer :: ts) =
      cut (outer :: opens) (⟨[0x29], closer.offset⟩ :: inner) ts := by
  have hclose := isClose_of_closes h
  rw [cut.eq_def]
  simp [not_isOpen_of_isClose hclose, hclose, h]

theorem Balanced.cut_append {body : List Token} (h : Balanced body) (opener : Token)
    (opens inner ts : List Token) :
    cut (opener :: opens) inner (body ++ ts) =
      cut (opener :: opens) ((rounded body).reverse ++ inner) ts := by
  induction h generalizing opener opens inner ts with
  | nil => rfl
  | leaf hopen hclose _ ih =>
    rw [List.cons_append, cut_leaf_inside opens inner opener hopen hclose, ih]
    rw [rounded_cons_leaf hopen hclose]
    simp
  | @group opener' closer body us hcloses _ _ ihbody ihus =>
    have hopen := isOpen_of_closes hcloses
    have hclose := isClose_of_closes hcloses
    rw [List.append_assoc, List.cons_append, cut_open _ _ hopen, ihbody]
    rw [List.cons_append, cut_close_inside _ _ opener hcloses, ihus]
    rw [rounded_append, rounded_cons_open hopen, rounded_cons_close hclose]
    simp

end Cut

section Arguments

/-- The tokens that are left of a group without its brackets. -/
def groupTokens (opener : Token) (body : List Token) : List Token :=
  (opening opener false).reverse ++ rounded body

theorem rounded_group {opener closer : Token} (h : closes opener closer) (body ts : List Token) :
    rounded (opener :: body ++ closer :: ts) =
      ⟨[0x28], opener.offset⟩ :: groupTokens opener body ++ ⟨[0x29], closer.offset⟩ :: rounded ts := by
  rw [rounded_append, rounded_cons_open (isOpen_of_closes h), rounded_cons_close (isClose_of_closes h)]
  simp [groupTokens, opening]

theorem groupTokens_round {opener : Token} (h : opener.text = [0x28]) (body : List Token) :
    groupTokens opener body = rounded body := by
  simp [groupTokens, opening, h]

theorem groupTokens_square {opener : Token} (h : opener.text = [0x5B]) (body : List Token) :
    groupTokens opener body = Token.synthetic rootName :: rounded body := by
  simp [groupTokens, opening, h]

theorem root_not_bracket :
    (Token.synthetic rootName).isOpen = false ∧ (Token.synthetic rootName).isClose = false := by
  decide

theorem rounded_rounded (ts : List Token) : rounded (rounded ts) = rounded ts := by
  induction ts with
  | nil => rfl
  | cons t ts ih =>
    by_cases hopen : t.isOpen
    . rw [rounded_cons_open hopen, rounded_append, ih]
      congr 1
      rcases (isOpen_iff t).1 hopen with h | h
      . simp [opening, h, rounded, Token.isOpen]
      . simp [opening, h, rounded, Token.isOpen]
        decide
    . by_cases hclose : t.isClose
      . rw [rounded_cons_close hclose, rounded_cons_close rfl, ih]
      . rw [Bool.not_eq_true] at hopen hclose
        rw [rounded_cons_leaf hopen hclose, rounded_cons_leaf hopen hclose, ih]

theorem rounded_groupTokens {opener closer : Token} (h : closes opener closer) (body : List Token) :
    rounded (groupTokens opener body) = groupTokens opener body := by
  rcases (closes_iff opener closer).1 h with ⟨ho, -⟩ | ⟨ho, -⟩
  . rw [groupTokens_round ho, rounded_rounded]
  . rw [groupTokens_square ho, rounded_cons_leaf root_not_bracket.1 root_not_bracket.2, rounded_rounded]

theorem Balanced.groupTokens {opener closer : Token} (h : closes opener closer) {body : List Token}
    (hbody : Balanced (rounded body)) : Balanced (groupTokens opener body) := by
  rcases (closes_iff opener closer).1 h with ⟨ho, -⟩ | ⟨ho, -⟩
  . rw [groupTokens_round ho]
    exact hbody
  . rw [groupTokens_square ho]
    exact Balanced.leaf root_not_bracket.1 root_not_bracket.2 hbody

theorem Balanced.rounded {ts : List Token} (h : Balanced ts) : Balanced (rounded ts) := by
  induction h with
  | nil => exact Balanced.nil
  | leaf hopen hclose _ ih =>
    rw [rounded_cons_leaf hopen hclose]
    exact Balanced.leaf hopen hclose ih
  | group hcloses _ _ ihbody ihts =>
    rw [rounded_group hcloses]
    exact Balanced.group rfl (Balanced.groupTokens hcloses ihbody) ihts

theorem arguments_nil : arguments [] = .ok [] := rfl

theorem arguments_leaf {t : Token} (hopen : t.isOpen = false) (hclose : t.isClose = false)
    (ts : List Token) :
    arguments (t :: ts) = (leaf t).bind fun e => (arguments ts).map (e :: ·) := by
  rw [arguments, cut_leaf hopen hclose, Cut.arguments_cons]
  rfl

theorem arguments_group {opener closer : Token} (h : closes opener closer) {body : List Token}
    (hbody : Balanced body) (ts : List Token) :
    arguments (opener :: body ++ closer :: ts) =
      (represent (groupTokens opener body)).bind fun e => (arguments ts).map (e :: ·) := by
  have hopen := isOpen_of_closes h
  rw [arguments, List.cons_append, cut_open _ _ hopen, hbody.cut_append, cut_close _ h]
  rw [Cut.arguments_cons]
  simp only [Piece.element, groupTokens, List.isEmpty_nil, Bool.not_true, List.append_nil,
    List.reverse_append, List.reverse_reverse]
  rfl

theorem arguments_close {t : Token} (h : t.isClose) (ts : List Token) :
    arguments (t :: ts) = .error (mismatched t) := by
  rw [arguments, cut.eq_def]
  simp only [not_isOpen_of_isClose h, h, if_true, Bool.false_eq_true, if_false]
  rfl

theorem Balanced.arguments_rounded {ts : List Token} (h : Balanced ts) :
    arguments (Element.rounded ts) = arguments ts := by
  induction h with
  | nil => rfl
  | leaf hopen hclose _ ih =>
    rw [rounded_cons_leaf hopen hclose, arguments_leaf hopen hclose, arguments_leaf hopen hclose, ih]
  | @group opener closer body ts hcloses hbody _ _ ihts =>
    rw [rounded_group hcloses, arguments_group hcloses hbody]
    rw [arguments_group rfl (Balanced.groupTokens hcloses hbody.rounded), ihts]
    rw [groupTokens_round rfl, rounded_groupTokens hcloses]

end Arguments

section Derivations

theorem Leaf.leaf_eq {t : Token} {e : Element} (h : Leaf t e) : Element.leaf t = .ok e := by
  rw [← h.isQuoted_eq]
  unfold Element.leaf
  split
  . cases h with
    | word hword => simp_all [Token.classify]
    | @quoted d body hd htext => simp [htext]
  . rfl

/-- The open brackets are closed one after another, the innermost first. -/
def ClosesAll : List Token → List Token → Prop
  | [], ts => Balanced ts
  | opener :: opens, ts =>
    ∃ body closer after, ts = body ++ closer :: after ∧ Balanced body ∧ closes opener closer ∧
      ClosesAll opens after

theorem ClosesAll.leaf {opens ts : List Token} {t : Token} (hopen : t.isOpen = false)
    (hclose : t.isClose = false) (h : ClosesAll opens ts) : ClosesAll opens (t :: ts) := by
  cases opens with
  | nil => exact Balanced.leaf hopen hclose h
  | cons opener opens =>
    obtain ⟨body, closer, after, rfl, hbody, hcloses, hafter⟩ := h
    exact ⟨t :: body, closer, after, rfl, Balanced.leaf hopen hclose hbody, hcloses, hafter⟩

theorem ClosesAll.open {opens ts : List Token} {t : Token} (h : ClosesAll (t :: opens) ts) :
    ClosesAll opens (t :: ts) := by
  obtain ⟨body, closer, after, rfl, hbody, hcloses, hafter⟩ := h
  cases opens with
  | nil => exact Balanced.group hcloses hbody hafter
  | cons opener opens =>
    obtain ⟨body', closer', after', rfl, hbody', hcloses', hafter'⟩ := hafter
    refine ⟨t :: body ++ closer :: body', closer', after', by simp, ?_, hcloses', hafter'⟩
    exact Balanced.group hcloses hbody hbody'

theorem closesAll_of_cut (opens inner ts : List Token) (h : (cut opens inner ts).fault = none) :
    ClosesAll opens ts := by
  fun_induction cut opens inner ts with
  | case1 => exact Balanced.nil
  | case2 | case4 | case7 => simp at h
  | case3 opens inner t rest _ ih => exact (ih h).open
  | case5 inner t rest _ _ opener outer hcloses hempty ih =>
    rw [List.isEmpty_iff.1 hempty]
    exact ⟨[], t, rest, rfl, Balanced.nil, hcloses, ih h⟩
  | case6 inner t rest _ _ opener outer hcloses _ ih => exact ⟨[], t, rest, rfl, Balanced.nil, hcloses, ih h⟩
  | case8 opens inner t rest hopen hclose hempty ih =>
    rw [List.isEmpty_iff.1 hempty]
    exact (ih h).leaf (Bool.eq_false_iff.2 hopen) (Bool.eq_false_iff.2 hclose)
  | case9 opens inner t rest hopen hclose _ ih =>
    exact (ih h).leaf (Bool.eq_false_iff.2 hopen) (Bool.eq_false_iff.2 hclose)

theorem balanced_of_arguments {ts : List Token} {es : List Element} (h : arguments ts = .ok es) :
    Balanced ts := by
  apply closesAll_of_cut [] []
  obtain ⟨args, -, h⟩ := Except.bind_eq_ok_iff.1 h
  split at h
  . simp at h
  . assumption

theorem Balanced.arguments_append_close {ts us : List Token} {t : Token} (h : Balanced ts) (ht : t.isClose) :
    arguments (ts ++ t :: us) = (arguments ts).bind fun _ => .error (mismatched t) := by
  induction h with
  | nil => exact arguments_close ht us
  | @leaf u ts hopen hclose _ ih =>
    rw [List.cons_append, arguments_leaf hopen hclose, arguments_leaf hopen hclose, ih]
    cases Element.leaf u with
    | error f => rfl
    | ok e => cases arguments ts <;> rfl
  | @group opener closer body ts hcloses hbody _ _ ih =>
    have hassoc : (opener :: body ++ closer :: ts) ++ t :: us =
        opener :: body ++ closer :: (ts ++ t :: us) := by simp
    rw [hassoc, arguments_group hcloses hbody, arguments_group hcloses hbody, ih]
    cases represent (Element.groupTokens opener body) with
    | error f => rfl
    | ok e => cases arguments ts <;> rfl

theorem represent_square {opener : Token} (ho : opener.text = [0x5B]) {body : List Token}
    (hbody : Balanced body) :
    represent (groupTokens opener body) = (arguments body).map (command rootName) := by
  rw [groupTokens_square ho, represent_cons, hbody.arguments_rounded]
  rfl

theorem represent_round {opener name : Token} (ho : opener.text = [0x28])
    (hopen : name.isOpen = false) (hclose : name.isClose = false) {body : List Token}
    (hbody : Balanced body) :
    represent (groupTokens opener (name :: body)) = (arguments body).map (command name.text) := by
  rw [groupTokens_round ho, rounded_cons_leaf hopen hclose, represent_cons, hbody.arguments_rounded]

theorem represent_round_open {opener : Token} (ho : opener.text = [0x28]) {body : List Token}
    (hbody : Balanced body) (hhead : ∀ t, body.head? = some t → t.isOpen) (e : Element) :
    represent (groupTokens opener body) ≠ .ok e := by
  rw [groupTokens_round ho]
  cases hbody with
  | nil =>
    rw [rounded, List.flatMap_nil, represent_nil]
    simp
  | @leaf t ts hopen _ _ =>
    rw [hhead t rfl] at hopen
    simp at hopen
  | @group opener' closer body ts hcloses hbody hts =>
    have hinner := Balanced.groupTokens hcloses hbody.rounded
    rw [rounded_group hcloses, List.cons_append, represent_cons, hinner.arguments_append_close rfl]
    cases arguments (groupTokens opener' body) <;> simp [Except.bind, Except.map]

theorem Items.balanced {ts : List Token} {es : List Element} (h : Items ts es) : Balanced ts :=
  balanced_of_dyck h.dyck ts rfl

theorem Items.arguments_append {ts : List Token} {es : List Element} (h : Items ts es) (us : List Token) :
    arguments (ts ++ us) = (arguments us).map (es ++ ·) := by
  -- the groups are taken off one by one, as deriving them does, until what follows is left
  induction h generalizing us with
  | nil =>
    rw [List.nil_append]
    cases arguments us <;> rfl
  | leaf hleaf _ ih =>
    rw [List.cons_append, arguments_leaf hleaf.not_bracket.1 hleaf.not_bracket.2, hleaf.leaf_eq, ih]
    cases arguments us <;> rfl
  | @round opener name closer body ts e args es ho hname hbody hc _ ihbody ihts =>
    have hcloses := (closes_iff opener closer).2 (Or.inl ⟨ho, hc⟩)
    have hinner := Balanced.leaf hname.not_bracket.1 hname.not_bracket.2 hbody.balanced
    have hassoc : (opener :: name :: body ++ closer :: ts) ++ us =
        opener :: (name :: body) ++ closer :: (ts ++ us) := by simp
    have hargs : arguments body = .ok args := by simpa [arguments_nil, Except.map] using ihbody []
    rw [hassoc, arguments_group hcloses hinner, ihts]
    rw [represent_round ho hname.not_bracket.1 hname.not_bracket.2 hbody.balanced, hargs]
    cases arguments us <;> rfl
  | @square opener closer body ts args es ho hbody hc _ ihbody ihts =>
    have hcloses := (closes_iff opener closer).2 (Or.inr ⟨ho, hc⟩)
    have hassoc : (opener :: body ++ closer :: ts) ++ us = opener :: body ++ closer :: (ts ++ us) := by simp
    have hargs : arguments body = .ok args := by simpa [arguments_nil, Except.map] using ihbody []
    rw [hassoc, arguments_group hcloses hbody.balanced, ihts, represent_square ho hbody.balanced, hargs]
    cases arguments us <;> rfl

theorem Items.arguments_eq {ts : List Token} {es : List Element} (h : Items ts es) :
    arguments ts = .ok es := by
  simpa [arguments_nil, Except.map] using h.arguments_append []

theorem Balanced.items_of_arguments {ts : List Token} (h : Balanced ts) (hts : ∀ t ∈ ts, Legible t)
    {es : List Element} (hargs : arguments ts = .ok es) : ∃ es', Items ts es' := by
  induction h generalizing es with
  | nil => exact ⟨[], Items.nil⟩
  | @leaf t ts hopen hclose _ ih =>
    rw [arguments_leaf hopen hclose, Except.bind_cons_eq_ok_iff] at hargs
    obtain ⟨_, es', -, hes', -⟩ := hargs
    obtain ⟨e, hleaf⟩ := (hts t List.mem_cons_self).exists_leaf (by simp [hopen, hclose])
    obtain ⟨items, hitems⟩ := ih (fun u hu => hts u (List.mem_cons_of_mem t hu)) hes'
    exact ⟨e :: items, Items.leaf hleaf hitems⟩
  | @group opener closer body ts hcloses hbody _ ihbody ihts =>
    rw [arguments_group hcloses hbody, Except.bind_cons_eq_ok_iff] at hargs
    obtain ⟨e, es', hgroup, hes', -⟩ := hargs
    obtain ⟨items, hitems⟩ := ihts (fun u hu => hts u (by simp [hu])) hes'
    have hlegible : ∀ u ∈ body, Legible u := fun u hu => hts u (by simp [hu])
    -- a round group needs a name first, which the arguments inside do not tell; a square one brings its own
    rcases (closes_iff opener closer).1 hcloses with ⟨ho, hc⟩ | ⟨ho, hc⟩
    . cases hbody with
      | nil => exact absurd hgroup (represent_round_open ho Balanced.nil (by simp) e)
      | @leaf name body hopen hclose hbody =>
        rw [represent_round ho hopen hclose hbody, Except.map_eq_ok_iff] at hgroup
        obtain ⟨args, hargs, -⟩ := hgroup
        obtain ⟨e', hleaf⟩ := (hlegible name List.mem_cons_self).exists_leaf (by simp [hopen, hclose])
        have hinner : arguments (name :: body) = .ok (e' :: args) := by
          rw [arguments_leaf hopen hclose, hleaf.leaf_eq, hargs]
          rfl
        obtain ⟨inner, hinner⟩ := ihbody hlegible hinner
        exact exists_items_round ho hopen hc hinner hitems
      | @group opener' closer' body' ts' hcloses' hbody' hts' =>
        have hopen : ∀ t, (opener' :: body' ++ closer' :: ts').head? = some t → t.isOpen := by
          rintro t ⟨⟩
          exact isOpen_of_closes hcloses'
        exact absurd hgroup (represent_round_open ho (Balanced.group hcloses' hbody' hts') hopen e)
    . rw [represent_square ho hbody, Except.map_eq_ok_iff] at hgroup
      obtain ⟨args, hargs, -⟩ := hgroup
      obtain ⟨inner, hinner⟩ := ihbody hlegible hargs
      exact ⟨_, Items.square ho hinner hc hitems⟩

/-- The arguments of tokens are those of their derivation, and there are none without one. -/
theorem arguments_eq_ok_iff {ts : List Token} (hts : ∀ t ∈ ts, Legible t) (es : List Element) :
    arguments ts = .ok es ↔ Items ts es := by
  constructor
  . intro hargs
    obtain ⟨es', hitems⟩ := (balanced_of_arguments hargs).items_of_arguments hts hargs
    rw [hitems.arguments_eq, Except.ok.injEq] at hargs
    rw [← hargs]
    exact hitems
  . exact Items.arguments_eq

end Derivations

end VerboseExpr.Element
