import Mathlib.Logic.Function.Iterate
import VerboseExpr.Proofs.Element.Diagnosis

/-!
How deep representing goes. The tokens of a group are represented by themselves, with the brackets in it made round and
a name added for every square one, so that they may be more than the tokens that the group stood among. What becomes
less are the opening brackets, since those of the group itself are gone. Main statement: every group has fewer of them
than the tokens that it was cut from, whether their brackets are matched or not, and representing goes no deeper than
their number.
-/

namespace VerboseExpr.Element

/-- Does representing `ts` go on to represent `us`? It does so with a group if all that stands before it in `ts` could
be represented. -/
def Calls (ts us : List Token) : Prop :=
  ∃ before after, (cut [] [] ts.tail).pieces = before ++ Piece.group us :: after ∧ ∀ p ∈ before, p.element.isOk

def Piece.elementBy (inner : List Token → Except Fault Element) : Piece → Except Fault Element
  | .leaf t => Element.leaf t
  | .group us => inner us

/-- The element of some tokens, where `inner` represents the groups. -/
def representBy (inner : List Token → Except Fault Element) : List Token → Except Fault Element
  | [] => .error emptyGroup
  | name :: ts => do
    let c := cut [] [] ts
    let args ← c.pieces.mapM (Piece.elementBy inner)
    match c.fault with
    | some f => .error f
    | none => .ok (command name.text args)

section Calls

variable {ts us : List Token}

theorem openCount_lt_of_calls (h : Calls ts us) : openCount us < openCount ts := by
  obtain ⟨before, after, hpieces, -⟩ := h
  have hmem : .group us ∈ (cut [] [] ts.tail).pieces := by
    rw [hpieces]
    simp
  cases ts with
  | nil => simp [cut] at hmem
  | cons name rest => exact openCount_lt_of_group_mem name hmem

theorem length_le_of_isChain {calls : List (List Token)} (h : (ts :: calls).IsChain Calls) :
    calls.length ≤ openCount ts := by
  induction calls generalizing ts with
  | nil => apply Nat.zero_le
  | cons us calls ih =>
    rw [List.isChain_cons_cons] at h
    have hlt := openCount_lt_of_calls h.1
    have hle := ih h.2
    rw [List.length_cons]
    omega

theorem mapM_elementBy {inner : List Token → Except Fault Element} {ps : List Piece}
    (h : ∀ before us after, ps = before ++ Piece.group us :: after → (∀ p ∈ before, p.element.isOk) →
      inner us = represent us) :
    ps.mapM (Piece.elementBy inner) = ps.mapM Piece.element := by
  induction ps with
  | nil => rfl
  | cons p ps ih =>
    have hp : p.elementBy inner = p.element := by
      cases p with
      | leaf t => rfl
      | group us => exact h [] us ps rfl (by simp)
    rw [List.mapM_cons, List.mapM_cons, hp]
    -- after a piece that has no element, nothing is represented any more
    cases hok : p.element with
    | error f => rfl
    | ok e =>
      rw [ih]
      intro before us after heq hbefore
      apply h (p :: before) us after
      . rw [heq, List.cons_append]
      . rw [List.forall_mem_cons, hok]
        exact ⟨rfl, hbefore⟩

theorem representBy_eq {inner : List Token → Except Fault Element} (h : ∀ us, Calls ts us → inner us = represent us) :
    representBy inner ts = represent ts := by
  cases ts with
  | nil => rw [representBy, represent_nil]
  | cons name ts =>
    have hargs : (cut [] [] ts).pieces.mapM (Piece.elementBy inner) = (cut [] [] ts).pieces.mapM Piece.element := by
      apply mapM_elementBy
      intro before us after heq hbefore
      apply h
      exact ⟨before, after, heq, hbefore⟩
    rw [representBy, hargs, represent_cons, arguments, Cut.arguments]
    cases (cut [] [] ts).pieces.mapM Piece.element with
    | error f => rfl
    | ok args => cases (cut [] [] ts).fault <;> rfl

theorem iterate_representBy {n : Nat} (h : openCount ts < n) (inner : List Token → Except Fault Element) :
    representBy^[n] inner ts = represent ts := by
  induction n generalizing ts with
  | zero => omega
  | succ n ih =>
    rw [Function.iterate_succ_apply']
    apply representBy_eq
    intro us hcall
    apply ih
    have := openCount_lt_of_calls hcall
    omega

end Calls

section Groups

theorem cut_group {opener closer : Token} (h : closes opener closer) {body : List Token} (hbody : Balanced body)
    (ts : List Token) :
    cut [] [] (opener :: body ++ closer :: ts) = (cut [] [] ts).cons (.group (groupTokens opener body)) := by
  rw [List.cons_append, cut_open _ _ (isOpen_of_closes h), hbody.cut_append, cut_close _ h]
  simp [groupTokens]

theorem exists_of_group_mem_cut {ts us : List Token} (h : .group us ∈ (cut [] [] ts).pieces) :
    ∃ pre opener body closer post, ts = pre ++ (opener :: body ++ closer :: post) ∧ closes opener closer ∧
      Balanced body ∧ us = groupTokens opener body := by
  match ts with
  | [] => simp [cut] at h
  | t :: rest =>
    by_cases hopen : t.isOpen
    . obtain ⟨body, closer, after, rfl, hbody, hcloses⟩ | hpieces := closed_or_pieces_eq_nil t rest
      . rw [← List.cons_append, cut_group hcloses hbody, Cut.cons, List.mem_cons] at h
        cases h with
        | inl heq =>
          rw [Piece.group.injEq] at heq
          exact ⟨[], t, body, closer, after, rfl, hcloses, hbody, heq⟩
        | inr hmem =>
          obtain ⟨pre, opener, body', closer', post, hsplit, hgroup⟩ := exists_of_group_mem_cut hmem
          refine ⟨t :: body ++ closer :: pre, opener, body', closer', post, ?_, hgroup⟩
          rw [hsplit]
          simp
      . -- a bracket that stays open leaves no pieces at all
        rw [cut_open _ _ hopen, hpieces] at h
        contradiction
    . by_cases hclose : t.isClose
      . rw [cut.eq_def] at h
        simp [hopen, hclose] at h
      . rw [Bool.not_eq_true] at hopen hclose
        rw [cut_leaf hopen hclose, Cut.cons, List.mem_cons] at h
        cases h with
        | inl heq => contradiction
        | inr hmem =>
          obtain ⟨pre, opener, body, closer, post, hsplit, hgroup⟩ := exists_of_group_mem_cut hmem
          refine ⟨t :: pre, opener, body, closer, post, ?_, hgroup⟩
          rw [hsplit]
          simp
termination_by ts.length
decreasing_by
  all_goals
    simp_all only [List.length_cons, List.length_append]
    omega

theorem length_opening (t : Token) (nested : Bool) :
    (opening t nested).length = (if t.text == [0x5B] then 1 else 0) + if nested then 1 else 0 := by
  rw [opening, List.length_append]
  split <;> split <;> rfl

theorem length_rounded (ts : List Token) :
    (rounded ts).length = ts.length + ts.countP (·.text == [0x5B]) := by
  induction ts with
  | nil => rfl
  | cons t ts ih =>
    rw [List.length_cons, List.countP_cons]
    by_cases hopen : t.isOpen
    . rw [rounded_cons_open hopen, List.length_append, List.length_reverse, length_opening, ih, if_pos rfl]
      omega
    . have hsquare : (t.text == [0x5B]) = false := by
        rw [Token.isOpen, Bool.or_eq_true, not_or, Bool.not_eq_true, Bool.not_eq_true] at hopen
        exact hopen.2
      rw [hsquare]
      by_cases hclose : t.isClose
      . rw [rounded_cons_close hclose, List.length_cons, ih]
        simp
        omega
      . rw [Bool.not_eq_true] at hopen hclose
        rw [rounded_cons_leaf hopen hclose, List.length_cons, ih]
        simp
        omega

theorem length_groupTokens (opener : Token) (body : List Token) :
    (groupTokens opener body).length = body.length + (opener :: body).countP (·.text == [0x5B]) := by
  rw [groupTokens, List.length_append, List.length_reverse, length_opening, length_rounded, List.countP_cons]
  simp
  omega

theorem text_of_mem_rounded {t : Token} {ts : List Token} (h : t ∈ rounded ts) :
    (t.isOpen → t.text = [0x28]) ∧ (t.isClose → t.text = [0x29]) := by
  rw [rounded, List.mem_flatMap] at h
  obtain ⟨u, -, ht⟩ := h
  split at ht
  . rw [List.mem_reverse, opening, List.mem_append, if_pos rfl, List.mem_singleton] at ht
    obtain hroot | rfl := ht
    . split at hroot
      . rw [List.mem_singleton] at hroot
        rw [hroot, root_not_bracket.1, root_not_bracket.2]
        simp
      . contradiction
    . exact ⟨fun _ => rfl, fun hclose => absurd hclose (by simp [Token.isClose])⟩
  . split at ht
    . rw [List.mem_singleton] at ht
      rw [ht]
      exact ⟨fun hopen => absurd hopen (by simp [Token.isOpen]), fun _ => rfl⟩
    . rw [List.mem_singleton] at ht
      rw [ht]
      next hopen hclose => exact ⟨fun h => absurd h hopen, fun h => absurd h hclose⟩

/-- Square brackets, each pair inside the one before. -/
def squares : Nat → List Token
  | 0 => []
  | n + 1 => ⟨[0x5B], 0⟩ :: squares n ++ [⟨[0x5D], 0⟩]

theorem balanced_squares (n : Nat) : Balanced (squares n) := by
  induction n with
  | zero => exact Balanced.nil
  | succ n ih => exact Balanced.group rfl ih Balanced.nil

theorem length_squares (n : Nat) : (squares n).length = 2 * n := by
  induction n with
  | zero => rfl
  | succ n ih =>
    rw [squares, List.length_append, List.length_cons, ih, List.length_singleton]
    omega

theorem countP_squares (n : Nat) : (squares n).countP (·.text == [0x5B]) = n := by
  induction n with
  | zero => rfl
  | succ n ih =>
    rw [squares, List.countP_append, List.countP_cons, ih]
    rfl

theorem calls_squares (n : Nat) : Calls (seed (squares (n + 1))) (groupTokens ⟨[0x5B], 0⟩ (squares n)) := by
  refine ⟨[], [], ?_, by simp⟩
  rw [seed, List.tail_cons, squares, cut_group rfl (balanced_squares n)]
  rfl

end Groups

/-- Each group that representing goes on to has fewer opening brackets than the tokens that it was cut from, and its
brackets are round. Its tokens are those between two brackets and a name for every square bracket, so that they may be
more by any number. Calls inside each other are no more than there are opening brackets, and with one level more than
that nothing depends on what further calls would give. -/
theorem calls_descend :
    (∀ ts us, Calls ts us →
      openCount us < openCount ts ∧ (∀ t ∈ us, (t.isOpen → t.text = [0x28]) ∧ (t.isClose → t.text = [0x29])) ∧
        ∃ pre opener body closer post, ts.tail = pre ++ (opener :: body ++ closer :: post) ∧ closes opener closer ∧
          us.length = body.length + (opener :: body).countP (·.text == [0x5B])) ∧
      (∀ n, ∃ ts us, Calls ts us ∧ us.length = ts.length + n) ∧
      (∀ ts calls, (ts :: calls).IsChain Calls → calls.length ≤ openCount ts) ∧
      ∀ ts inner n, openCount ts < n → representBy^[n] inner ts = represent ts := by
  refine ⟨?_, ?_, fun ts calls => length_le_of_isChain, fun ts inner n h => iterate_representBy h inner⟩
  . intro ts us hcall
    refine ⟨openCount_lt_of_calls hcall, ?_⟩
    obtain ⟨before, after, hpieces, -⟩ := hcall
    have hmem : .group us ∈ (cut [] [] ts.tail).pieces := by
      rw [hpieces]
      simp
    obtain ⟨pre, opener, body, closer, post, hsplit, hcloses, -, rfl⟩ := exists_of_group_mem_cut hmem
    constructor
    . intro t ht
      rw [← rounded_groupTokens hcloses] at ht
      apply text_of_mem_rounded ht
    . exact ⟨pre, opener, body, closer, post, hsplit, hcloses, length_groupTokens opener body⟩
  . -- brackets inside each other are cut into a call with a name more for each of them
    intro n
    refine ⟨_, _, calls_squares (n + 2), ?_⟩
    rw [length_groupTokens, List.countP_cons, countP_squares, length_squares, seed, List.length_cons, length_squares]
    simp
    omega

def unmatchedTokens : List Token :=
  [Token.synthetic rootName, ⟨[0x28], 0⟩, ⟨Bytes.ofString "a", 1⟩, ⟨[0x5B], 3⟩, ⟨[0x5B], 4⟩, ⟨[0x5D], 5⟩,
    ⟨[0x5D], 6⟩, ⟨[0x29], 7⟩, ⟨[0x5D], 8⟩]

def calledTokens : List Token :=
  [⟨Bytes.ofString "a", 1⟩, ⟨[0x28], 3⟩, Token.synthetic rootName, ⟨[0x28], 4⟩, Token.synthetic rootName,
    ⟨[0x29], 5⟩, ⟨[0x29], 6⟩]

def innerCalls : List (List Token) :=
  [calledTokens, [Token.synthetic rootName, ⟨[0x28], 4⟩, Token.synthetic rootName, ⟨[0x29], 5⟩],
    [Token.synthetic rootName]]

theorem calls_descend_unmatched :
    (unmatchedTokens :: innerCalls).IsChain Calls ∧ openCount calledTokens < openCount unmatchedTokens ∧
      (∀ t ∈ calledTokens, t.isOpen → t.text = [0x28]) ∧ innerCalls.length ≤ openCount unmatchedTokens ∧
      openCount unmatchedTokens < 4 ∧
      representBy^[4] (fun _ => .ok (literal [])) unmatchedTokens = .error (mismatched ⟨[0x5D], 8⟩) := by
  have houter : Calls unmatchedTokens calledTokens := ⟨[], [], by decide +kernel, by simp⟩
  have hchain : (unmatchedTokens :: innerCalls).IsChain Calls := by
    simp only [innerCalls, List.isChain_cons_cons]
    exact ⟨houter, ⟨[], [], by decide +kernel, by simp⟩, ⟨[], [], by decide +kernel, by simp⟩, List.IsChain.singleton _⟩
  obtain ⟨hcalls, -, hdepth, hlevels⟩ := calls_descend
  obtain ⟨hcount, hround, -⟩ := hcalls unmatchedTokens calledTokens houter
  have hopen : openCount unmatchedTokens < 4 := by decide
  have hfault : represent unmatchedTokens = .error (mismatched ⟨[0x5D], 8⟩) := by decide +kernel
  refine ⟨hchain, hcount, fun t ht => (hround t ht).1, hdepth unmatchedTokens innerCalls hchain, hopen, ?_⟩
  rw [hlevels unmatchedTokens _ 4 hopen, hfault]

end VerboseExpr.Element
