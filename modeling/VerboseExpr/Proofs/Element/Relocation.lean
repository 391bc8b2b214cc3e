import VerboseExpr.Proofs.Element.Represent
import VerboseExpr.Proofs.Token.Written

namespace VerboseExpr

def Token.relocate (g : Int → Int) (t : Token) : Token := { t with offset := g t.offset }

def Fault.relocate (g : Int → Int) (f : Fault) : Fault := { f with offset := g f.offset }

/-- The offset after `n` more bytes in front. An offset that is unknown stays so. -/
def later (n : Nat) (offset : Int) : Int := if 0 ≤ offset then offset + n else offset

theorem later_natCast (n offset : Nat) : later n offset = (offset + n : Nat) := by
  rw [later, if_pos (by omega)]
  omega

theorem later_negOne (n : Nat) : later n (-1) = -1 := rfl

namespace Token

variable (g : Int → Int) (t : Token)

@[simp]
theorem text_relocate : (t.relocate g).text = t.text := rfl

@[simp]
theorem offset_relocate : (t.relocate g).offset = g t.offset := rfl

@[simp]
theorem isOpen_relocate : (t.relocate g).isOpen = t.isOpen := rfl

@[simp]
theorem isClose_relocate : (t.relocate g).isClose = t.isClose := rfl

@[simp]
theorem isQuoted_relocate : (t.relocate g).isQuoted = t.isQuoted := rfl

theorem readFrom_add (n offset : Nat) (src : Bytes) :
    readFrom (offset + n) src =
      ((readFrom offset src).map (List.map (relocate (later n)))).mapError (Fault.relocate (later n)) := by
  fun_induction readFrom offset src with
  | case1 offset =>
    rw [readFrom]
    rfl
  | case2 offset c rest hblank ih =>
    rw [readFrom]
    simp only [hblank, if_true]
    rw [← ih]
    congr 1
    omega
  | case3 offset c rest hblank hquote q hq =>
    have hopen : readQuotation c rest = ⟨q.body, none⟩ := by
      rw [← hq]
    rw [readFrom_quotation_open hquote _ hopen]
    simp [Except.map, Except.mapError, unterminated, Fault.relocate, later_natCast]
  | case4 offset c rest hblank hquote q after hq ih =>
    have hclosed : readQuotation c rest = ⟨q.body, some after⟩ := by
      rw [← hq]
    -- the offset behind a quotation counts each doubled delimiter twice, wherever the quotation begins
    have hoffset : offset + n + (doubled c q.body).length + 2 =
        offset + (q.body.length + q.body.count c + 2) + n := by
      rw [length_doubled]
      omega
    rw [readFrom_quotation hquote _ hclosed, hoffset, ih]
    cases readFrom (offset + (q.body.length + q.body.count c + 2)) after with
    | error f => rfl
    | ok ts => simp [Except.map, Except.mapError, relocate, later_natCast]
  | case5 offset c rest hblank hquote hbracket ih =>
    have hoffset : offset + n + 1 = offset + 1 + n := by omega
    rw [readFrom_bracket hbracket, hoffset, ih]
    cases readFrom (offset + 1) rest with
    | error f => rfl
    | ok ts => simp [Except.map, Except.mapError, relocate, later_natCast]
  | case6 offset c rest hblank hquote hbracket word ih =>
    have hword : isWordByte c := by
      simp [isWordByte, hblank, hquote, hbracket]
    have hoffset : offset + n + word.length = offset + word.length + n := by omega
    rw [readFrom_word hword, hoffset, ih]
    cases readFrom (offset + word.length) (rest.dropWhile isWordByte) with
    | error f => rfl
    | ok ts => simp [Except.map, Except.mapError, relocate, later_natCast, word]

end Token

namespace Element

def Piece.relocate (g : Int → Int) : Piece → Piece
  | leaf t => leaf (t.relocate g)
  | group ts => group (ts.map (Token.relocate g))

def Cut.relocate (g : Int → Int) (c : Cut) : Cut :=
  ⟨c.pieces.map (Piece.relocate g), c.fault.map (Fault.relocate g)⟩

section Relocation

variable {g : Int → Int}

theorem opening_relocate (hg : g (-1) = -1) (t : Token) (nested : Bool) :
    opening (t.relocate g) nested = (opening t nested).map (Token.relocate g) := by
  have hroot : Token.relocate g (Token.synthetic rootName) = Token.synthetic rootName := by
    rw [Token.relocate, Token.synthetic, hg]
  rw [opening, opening, List.map_append, Token.text_relocate]
  congr 1
  . split
    . rw [List.map_singleton, hroot]
    . rfl
  . split
    . rfl
    . rfl

theorem cut_relocate (hg : g (-1) = -1) (opens inner ts : List Token) :
    cut (opens.map (Token.relocate g)) (inner.map (Token.relocate g)) (ts.map (Token.relocate g)) =
      (cut opens inner ts).relocate g := by
  -- moving tokens changes no text, so that both sides take the same branches
  induction ts generalizing opens inner with
  | nil => cases opens <;> rfl
  | cons t rest ih =>
    have hdone := ih [] []
    rw [List.map_nil] at hdone
    rw [cut.eq_def, cut.eq_def opens inner (t :: rest)]
    simp only [List.map_cons, Token.isOpen_relocate, Token.isClose_relocate, List.isEmpty_map]
    split
    . rw [opening_relocate hg, ← List.map_append, ← List.map_cons, ih]
    . split
      . cases opens with
        | nil => rfl
        | cons opener outer =>
          have hcloses : closes (opener.relocate g) (t.relocate g) = closes opener t := rfl
          simp only [List.map_cons, hcloses, List.isEmpty_map]
          split
          . split
            . rw [hdone, ← List.map_reverse]
              rfl
            . exact ih outer (⟨[0x29], t.offset⟩ :: inner)
          . rfl
      . split
        . rw [hdone]
          rfl
        . exact ih opens (t :: inner)

theorem mapM_mapError {α β : Type} {xs : List α} {h : α → α} {k : α → Except Fault β}
    {φ : Fault → Fault} (hk : ∀ x ∈ xs, k (h x) = (k x).mapError φ) :
    (xs.map h).mapM k = (xs.mapM k).mapError φ := by
  induction xs with
  | nil => rfl
  | cons x xs ih =>
    have hxs := ih fun y hy => hk y (List.mem_cons_of_mem x hy)
    rw [List.map_cons, List.mapM_cons, List.mapM_cons, hk x List.mem_cons_self, hxs]
    cases k x with
    | error f => rfl
    | ok y => cases xs.mapM k <;> rfl

theorem Cut.arguments_relocate {c : Cut}
    (h : ∀ p ∈ c.pieces, (p.relocate g).element = p.element.mapError (Fault.relocate g)) :
    (c.relocate g).arguments = c.arguments.mapError (Fault.relocate g) := by
  rw [Cut.arguments, Cut.arguments, Cut.relocate]
  dsimp only
  rw [mapM_mapError h]
  cases c.pieces.mapM Piece.element with
  | error f => rfl
  | ok args => cases c.fault <;> rfl

theorem leaf_relocate (hg : g (-1) = -1) (t : Token) :
    leaf (t.relocate g) = (leaf t).mapError (Fault.relocate g) := by
  have hfault : Fault.outOfRange.relocate g = Fault.outOfRange := by
    rw [Fault.relocate, Fault.outOfRange, hg]
  rw [leaf, leaf, Token.isQuoted_relocate, Token.text_relocate]
  split
  . split
    . rw [Except.mapError, hfault]
    . rfl
  . rfl

/-- Tokens that stand elsewhere are represented by the same tree, or rejected at the place that corresponds. -/
theorem represent_relocate (hg : g (-1) = -1) (ts : List Token) :
    represent (ts.map (Token.relocate g)) = (represent ts).mapError (Fault.relocate g) := by
  match ts with
  | [] =>
    have hfault : emptyGroup.relocate g = emptyGroup := by
      rw [Fault.relocate, emptyGroup, hg]
    rw [List.map_nil, represent_nil, Except.mapError, hfault]
  | name :: rest =>
    have hcut := cut_relocate hg [] [] rest
    rw [List.map_nil] at hcut
    rw [List.map_cons, represent_cons, represent_cons, arguments, hcut, Cut.arguments_relocate, arguments]
    . cases (cut [] [] rest).arguments <;> rfl
    . intro p hp
      cases p with
      | leaf t => exact leaf_relocate hg t
      | group us =>
        have := openCount_lt_of_group_mem name hp
        exact represent_relocate hg us
termination_by openCount ts

theorem arguments_relocate (hg : g (-1) = -1) (ts : List Token) :
    arguments (ts.map (Token.relocate g)) = (arguments ts).mapError (Fault.relocate g) := by
  have hrepresent := represent_relocate hg (Token.synthetic rootName :: ts)
  rw [List.map_cons, represent_cons, represent_cons] at hrepresent
  cases hrelocated : arguments (ts.map (Token.relocate g)) with
  | error f =>
    cases harguments : arguments ts with
    | error f' => simpa [hrelocated, harguments, Except.map, Except.mapError] using hrepresent
    | ok es => simp [hrelocated, harguments, Except.map, Except.mapError] at hrepresent
  | ok es =>
    cases harguments : arguments ts with
    | error f' => simp [hrelocated, harguments, Except.map, Except.mapError] at hrepresent
    | ok es' =>
      simpa [hrelocated, harguments, Except.map, Except.mapError, command] using hrepresent

end Relocation

end Element

end VerboseExpr
