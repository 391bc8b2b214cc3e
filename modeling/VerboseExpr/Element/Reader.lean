import VerboseExpr.Element.Basic
import VerboseExpr.Token.Reader

/-!
Turning tokens into a tree. The first token of a group names its command and the others are its
arguments; a group in round brackets is one argument, and a group in square brackets is short for one
in round brackets whose command is `match`.

A list of tokens is first cut into the pieces that become the arguments. The tokens of a bracketed
piece are then represented in the same way. A piece holds fewer opening brackets than the list it was
cut from, which is why this ends.
-/

namespace VerboseExpr.Element

/-- What becomes one argument: a token outside brackets, or the tokens of a bracketed group. -/
inductive Piece where
  | leaf (token : Token)
  | group (tokens : List Token)
  deriving DecidableEq, Repr

/-- The pieces of a list of tokens from left to right, up to the first fault if there is one. -/
structure Cut where
  pieces : List Piece
  fault : Option Fault
  deriving DecidableEq, Repr

def Cut.cons (p : Piece) (c : Cut) : Cut := { c with pieces := p :: c.pieces }

def mismatched (t : Token) : Fault :=
  { stage := .parse, cause := .mismatchedParentheses, offset := t.offset, token := t.text }

def unfinished (t : Token) : Fault :=
  { stage := .parse, cause := .unfinishedExpression, offset := t.offset, token := t.text }

def emptyGroup : Fault := { stage := .parse, cause := .emptyGroup }

def closes (opener closer : Token) : Bool :=
  (opener.text == [0x28] && closer.text == [0x29]) ||
    (opener.text == [0x5B] && closer.text == [0x5D])

/-- The tokens that an opening bracket leaves in the group around it, last first. Inside a group it
becomes a round bracket; a square one adds the name of the root command. -/
def opening (t : Token) (nested : Bool) : List Token :=
  (if t.text == [0x5B] then [Token.synthetic rootName] else []) ++
    (if nested then [⟨[0x28], t.offset⟩] else [])

/-- Cuts tokens into pieces. `opens` are the brackets that are open, innermost first, and `inner` are
the tokens of the outermost open group so far, last first. -/
def cut (opens inner : List Token) : List Token → Cut
  | [] =>
    match opens with
    | [] => ⟨[], none⟩
    | opener :: _ => ⟨[], some (unfinished opener)⟩
  | t :: rest =>
    if t.isOpen then cut (t :: opens) (opening t (!opens.isEmpty) ++ inner) rest
    else if t.isClose then
      match opens with
      | [] => ⟨[], some (mismatched t)⟩
      | opener :: outer =>
        if closes opener t then
          if outer.isEmpty then (cut [] [] rest).cons (.group inner.reverse)
          else cut outer (⟨[0x29], t.offset⟩ :: inner) rest
        else ⟨[], some (mismatched t)⟩
    else if opens.isEmpty then (cut [] [] rest).cons (.leaf t)
    else cut opens (t :: inner) rest

def openCount (ts : List Token) : Nat := ts.countP (·.isOpen)

theorem openCount_append (ts us : List Token) : openCount (ts ++ us) = openCount ts + openCount us :=
  List.countP_append

theorem openCount_reverse (ts : List Token) : openCount ts.reverse = openCount ts := List.countP_reverse

theorem openCount_cons_open {t : Token} (h : t.isOpen) (ts : List Token) :
    openCount (t :: ts) = openCount ts + 1 :=
  List.countP_cons_of_pos h

theorem openCount_cons_of_not_isOpen {t : Token} (h : ¬t.isOpen) (ts : List Token) :
    openCount (t :: ts) = openCount ts :=
  List.countP_cons_of_neg h

theorem openCount_opening (t : Token) (nested : Bool) :
    openCount (opening t nested) = if nested then 1 else 0 := by
  have hroot : (Token.synthetic rootName).isOpen = false := by decide
  have hround : (Token.mk [0x28] t.offset).isOpen = true := rfl
  cases nested <;> by_cases h : t.text == [0x5B] <;>
    simp [opening, h, openCount, hroot, hround]

theorem openCount_lt_of_mem_cut (opens inner ts : List Token) (g : List Token)
    (h : Piece.group g ∈ (cut opens inner ts).pieces) :
    openCount g + (if opens = [] then 1 else 0) ≤ openCount inner + openCount ts := by
  fun_induction cut opens inner ts with
  | case1 | case2 | case4 | case7 => simp at h
  | case3 opens inner t rest hopen ih =>
    -- inside a group the bracket is counted again in its round form; the outermost one is used up
    have hle := ih h
    rw [openCount_append, openCount_opening] at hle
    rw [openCount_cons_open hopen]
    cases opens <;> simp at hle ⊢ <;> omega
  | case5 inner t rest hopen _ opener outer _ hempty ih =>
    rw [openCount_cons_of_not_isOpen hopen, if_neg (by simp)]
    cases List.mem_cons.1 h with
    | inl heq =>
      rw [Piece.group.injEq] at heq
      rw [heq, openCount_reverse]
      omega
    | inr hmem =>
      have hle : openCount g + 1 ≤ 0 + openCount rest := ih hmem
      omega
  | case6 inner t rest hopen _ opener outer _ _ ih =>
    have hle := ih h
    rw [openCount_cons_of_not_isOpen (by simp [Token.isOpen])] at hle
    rw [openCount_cons_of_not_isOpen hopen, if_neg (by simp)]
    omega
  | case8 opens inner t rest hopen _ hempty ih =>
    have hmem : Piece.group g ∈ (cut [] [] rest).pieces := by simpa [Cut.cons] using h
    have hle : openCount g + 1 ≤ 0 + openCount rest := ih hmem
    rw [openCount_cons_of_not_isOpen hopen, if_pos (List.isEmpty_iff.1 hempty)]
    omega
  | case9 opens inner t rest hopen _ _ ih =>
    rw [openCount_cons_of_not_isOpen hopen]
    simpa only [openCount_cons_of_not_isOpen hopen] using ih h

theorem openCount_lt_of_group_mem (name : Token) {ts g : List Token} (h : Piece.group g ∈ (cut [] [] ts).pieces) :
    openCount g < openCount (name :: ts) := by
  have hcut : openCount g + 1 ≤ 0 + openCount ts := openCount_lt_of_mem_cut [] [] ts g h
  have hcons : openCount ts ≤ openCount (name :: ts) := List.Sublist.countP_le (List.sublist_cons_self name ts)
  omega

/-- The element of a token outside brackets. The delimiters of a quotation are taken off. -/
def leaf (t : Token) : Except Fault Element :=
  if t.isQuoted then
    if t.text.length < 2 then .error Fault.outOfRange
    else .ok (literal (t.text.drop 1).dropLast)
  else .ok (command t.text [])

/-- The element whose name is the first token and whose arguments are the others. -/
def represent (tokens : List Token) : Except Fault Element :=
  match tokens with
  | [] => .error emptyGroup
  | name :: rest => do
    let c := cut [] [] rest
    let args ← c.pieces.attach.mapM fun
      | ⟨.leaf t, _⟩ => leaf t
      | ⟨.group ts, _⟩ => represent ts
    match c.fault with
    | some f => .error f
    | none => .ok (command name.text args)
termination_by openCount tokens
decreasing_by
  rename_i h
  exact openCount_lt_of_group_mem name h

def seed (tokens : List Token) : List Token := Token.synthetic rootName :: tokens

def parse (source : Bytes) : Except Fault Element := do
  let tokens ← Token.read source
  represent (seed tokens)

end VerboseExpr.Element
