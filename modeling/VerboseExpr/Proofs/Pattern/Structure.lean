import Mathlib
import VerboseExpr.Proofs.Analysis.References
import VerboseExpr.Proofs.Element.Relabel
import VerboseExpr.Proofs.Pattern.Built

namespace VerboseExpr

namespace Element

/-- The group commands of a tree in preorder. -/
def groupCommands (e : Element) : List Element := (e.walk fun _ => true).filter (·.command? == some .group)

theorem groupCommands_node (k : Kind) (v : Bytes) (args : List Element) :
    groupCommands (.node k v args) =
      (if (node k v args).command? = some .group then [node k v args] else []) ++ args.flatMap groupCommands := by
  unfold groupCommands
  rw [walk, walkFrom, if_pos rfl, List.map_cons, map_walkAllFrom_eq_flatMap, List.filter_cons, List.filter_flatMap]
  by_cases hgroup : (node k v args).command? = some .group
  . rw [if_pos hgroup, if_pos (beq_iff_eq.2 hgroup)]
    rfl
  . rw [if_neg hgroup, if_neg (mt beq_iff_eq.1 hgroup)]
    rfl

end Element

namespace Pattern

open Element Regex

theorem isCount_leaf {e : Element} (h : isCount e) : e.args = [] ∧ e.command? = none := by
  refine ⟨args_of_isCount h, ?_⟩
  rw [isCount, Bool.and_eq_true, Bool.and_eq_true] at h
  unfold command?
  rw [ofName?_integer h.1.2]
  split <;> rfl

theorem isPlain_of_ne_literal {k : Kind} {v : Bytes} {args : List Element} (hk : k ≠ .literal)
    (h : isPlain (.node k v args)) :
    ∃ c, Command.ofName? v = some c ∧ c.arity.accepts args.length ∧ arePlain c.counts args ∧
      (c = .range ∨ c = .except → args.all isText) := by
  have htext {es : List Element} (hall : es.all isText) : arePlain 0 es := by
    induction es with
    | nil => rw [arePlain]
    | cons e rest ih =>
      obtain ⟨k, v, args⟩ := e
      rw [List.all_cons, Bool.and_eq_true, isText, Bool.and_eq_true, isLiteral, kind, beq_iff_eq] at hall
      rw [arePlain, isPlain, if_pos hall.1.1, ih hall.2, Bool.and_true]
      exact hall.1.2
  rw [isPlain, if_neg hk] at h
  cases hc : Command.ofName? v with
  | none => simp [hc] at h
  | some c =>
    simp only [hc, Bool.and_eq_true] at h
    refine ⟨c, rfl, h.1, ?_⟩
    cases c with
    | reference => simp at h
    | range =>
      obtain ⟨-, -, -, -, -, -, -, hall, -⟩ := isRange_eq h.2
      exact ⟨htext hall, fun _ => hall⟩
    | except =>
      have hall := h.2
      dsimp only at hall
      rw [isExcept, Bool.and_eq_true] at hall
      exact ⟨htext hall.1, fun _ => hall.1⟩
    | _ => exact ⟨h.2, by simp⟩

theorem spans_denote_literal (n : Nat) (v : Bytes) (args : List Element) :
    spans (denote n (.node .literal v args)) = [] := by
  rw [denote, if_pos rfl, spans_concat, List.flatMap_map]
  simp [spans]

theorem spans_denoteAll_text (n : Nat) {es : List Element} (h : es.all isText) :
    spans (.concat (denoteAll 0 n es)) = [] := by
  induction es generalizing n with
  | nil =>
    rw [denoteAll]
    rfl
  | cons e rest ih =>
    obtain ⟨k, v, args⟩ := e
    rw [List.all_cons, Bool.and_eq_true, isText, Bool.and_eq_true, isLiteral, kind, beq_iff_eq] at h
    obtain ⟨⟨rfl, -⟩, hrest⟩ := h
    rw [denoteAll, spans_concat_cons, spans_denote_literal, ih _ hrest, List.nil_append]

theorem makes_denote {k : Kind} {v : Bytes} {args : List Element} (hk : k ≠ .literal)
    (h : isPlain (.node k v args)) :
    ∃ c, Command.ofName? v = some c ∧ arePlain c.counts args ∧
      ∀ n, Makes c (n + 1) (denoteAll c.counts (n + ownGroups c) args) (denote n (.node k v args)) := by
  obtain ⟨c, hc, harity, hplain, htext⟩ := isPlain_of_ne_literal hk h
  refine ⟨c, hc, hplain, ?_⟩
  intro n
  rw [denote, if_neg hk, hc]
  apply makes_meaning v (n + 1) harity (length_denoteAll _ _ _)
  intro hclass
  have hall := htext hclass
  obtain rfl | rfl := hclass
  all_goals exact spans_denoteAll_text _ hall

section Captures

variable {ok : Bytes → Bool}

theorem groupCommands_count {e : Element} (h : isCount e) : groupCommands e = [] := by
  obtain ⟨hargs, hcommand⟩ := isCount_leaf h
  obtain ⟨k, v, args⟩ := e
  rw [Element.args] at hargs
  rw [groupCommands_node, hcommand, hargs]
  rfl

theorem groupCommands_literal (v : Bytes) : groupCommands (.node .literal v []) = [] := by
  rw [groupCommands_node, command?_of_ne_command (by decide)]
  rfl

theorem length_flatMap_groupCommands {counts : Nat} {es : List Element}
    (ih : ∀ e ∈ es, isBuilt ok e → (groupCommands e).length = groupCount e) (h : areBuilt ok counts es) :
    (es.flatMap groupCommands).length = groupCountAll counts es := by
  induction es generalizing counts with
  | nil => rw [groupCountAll, List.flatMap_nil, List.length_nil]
  | cons e rest ihrest =>
    rw [List.forall_mem_cons] at ih
    rw [List.flatMap_cons, List.length_append]
    cases counts with
    | zero =>
      rw [areBuilt, Bool.and_eq_true] at h
      rw [groupCountAll, ih.1 h.1, ihrest ih.2 h.2]
    | succ counts =>
      rw [areBuilt, Bool.and_eq_true] at h
      rw [groupCountAll, groupCommands_count h.1, ihrest ih.2 h.2, List.length_nil, Nat.zero_add]

theorem length_groupCommands {e : Element} (h : isBuilt ok e) : (groupCommands e).length = groupCount e := by
  induction e using argsInduction with
  | node k v args ih =>
    rw [groupCount]
    by_cases hk : k = .literal
    . subst hk
      rw [isBuilt_literal_iff] at h
      rw [h.1, groupCommands_literal, if_pos rfl, List.length_nil]
    . obtain ⟨rfl, c, hc, -, hbuilt⟩ := (isBuilt_of_ne_literal hk).1 h
      rw [if_neg hk, groupCommands_node, command?_node, hc, List.length_append, length_flatMap_groupCommands ih hbuilt]
      dsimp only
      congr 1
      unfold ownGroups
      by_cases hgroup : c = .group
      . rw [if_pos hgroup, if_pos (congrArg some hgroup)]
        rfl
      . rw [if_neg hgroup, if_neg (by simpa using hgroup)]
        rfl

/-- The group commands of a tree with the numbers of groups before them, as they are denoted. -/
def denoteGroups (n : Nat) (gs : List Element) : List Regex := (gs.zipIdx n).map fun x => denote x.2 x.1

theorem denoteGroups_append (n : Nat) (gs hs : List Element) :
    denoteGroups n (gs ++ hs) = denoteGroups n gs ++ denoteGroups (n + gs.length) hs := by
  unfold denoteGroups
  rw [List.zipIdx_append, List.map_append]

theorem captures_denoteAll {counts : Nat} {es : List Element}
    (ih : ∀ e ∈ es, isBuilt ok e → isPlain e → ∀ n, captures (denote n e) = denoteGroups n (groupCommands e))
    (hbuilt : areBuilt ok counts es) (hplain : arePlain counts es) (n : Nat) :
    captures (.concat (denoteAll counts n es)) = denoteGroups n (es.flatMap groupCommands) := by
  induction es generalizing counts n with
  | nil =>
    rw [denoteAll]
    rfl
  | cons e rest ihrest =>
    rw [List.forall_mem_cons] at ih
    rw [List.flatMap_cons]
    cases counts with
    | zero =>
      rw [areBuilt, Bool.and_eq_true] at hbuilt
      rw [arePlain, Bool.and_eq_true] at hplain
      rw [denoteAll, captures_concat_cons, ih.1 hbuilt.1 hplain.1, ihrest ih.2 hbuilt.2 hplain.2,
        denoteGroups_append, length_groupCommands hbuilt.1]
    | succ counts =>
      rw [areBuilt, Bool.and_eq_true] at hbuilt
      rw [arePlain, Bool.and_eq_true] at hplain
      rw [denoteAll, groupCommands_count hbuilt.1, List.nil_append]
      exact ihrest ih.2 hbuilt.2 hplain.2 n

/-- The groups of what a tree denotes are what its group commands denote, in preorder. -/
theorem captures_denote {e : Element} (hbuilt : isBuilt ok e) (hplain : isPlain e) (n : Nat) :
    captures (denote n e) = denoteGroups n (groupCommands e) := by
  induction e using argsInduction generalizing n with
  | node k v args ih =>
    by_cases hk : k = .literal
    . subst hk
      rw [isBuilt_literal_iff] at hbuilt
      rw [captures, spans_denote_literal, hbuilt.1, groupCommands_literal]
      rfl
    . obtain ⟨c, hc, hoperands, hmakes⟩ := makes_denote hk hplain
      obtain ⟨rfl, -, hbuilt⟩ := (isBuilt_iff_of_ofName? hk hc).1 hbuilt
      have hargs := captures_denoteAll ih hbuilt hoperands (n + ownGroups c)
      have hmakes := hmakes n
      rw [groupCommands_node, command?_node, hc]
      generalize hr : denote n (node .command v args) = r at hmakes
      -- the groups of the operands come after the one that the command makes itself, if it makes one
      cases hmakes with
      | group hgroup =>
        subst hgroup
        rw [captures_group, hargs, if_pos rfl, denoteGroups_append, ← hr]
        rfl
      | rep hquantifier =>
        have hgroup : c ≠ .group := by
          rintro rfl
          contradiction
        rw [captures_rep, hargs, ownGroups, if_neg hgroup, if_neg (by simpa using hgroup), List.nil_append]
        rfl
      | other hgroup _ hspans =>
        have hcaptures : captures r = captures (.concat (denoteAll c.counts (n + ownGroups c) args)) :=
          congrArg (List.filter isGroup) hspans
        rw [hcaptures, hargs, ownGroups, if_neg hgroup, if_neg (by simpa using hgroup), List.nil_append]
        rfl

end Captures

section Nests

/-- What `p` says of a command, `P` says of what the command denotes. -/
structure Tells (p : Command → Bool) (P : Regex → Bool) : Prop where
  group : ∀ n r, P (.group n r) = p .group
  rep : ∀ (c : Command) min max greedy r, c.isQuantifier → max.isNone = c.isUnbounded →
    P (.rep min max greedy r) = p c
  other : ∀ c : Command, c ≠ .group → c.isQuantifier = false → p c = false

theorem tells_isGroup : Tells (· == .group) isGroup where
  group _ _ := rfl
  rep c _ _ _ _ hquantifier _ := by
    cases c with
    | group => contradiction
    | _ => rfl
  other c hgroup _ := by simpa using hgroup

theorem tells_isRep : Tells (·.isQuantifier) isRep where
  group _ _ := rfl
  rep _ _ _ _ _ hquantifier _ := hquantifier.symm
  other _ _ hquantifier := hquantifier

theorem tells_isLoop : Tells (·.isUnbounded) isLoop where
  group _ _ := rfl
  rep _ _ max _ _ _ hmax := by
    rw [← hmax]
    cases max <;> rfl
  other c _ hquantifier := by
    cases c with
    | oneOrMore | zeroOrMore | minTimes => contradiction
    | _ => rfl

variable {ok : Bytes → Bool} {p q : Command → Bool} {P Q : Regex → Bool}

theorem nests_count {isOuter isInner : Element → Bool} {e : Element} (h : isCount e) (hinner : isInner e = false)
    (inside : Bool) : Element.nests isOuter isInner inside e = false := by
  obtain ⟨k, v, args⟩ := e
  obtain rfl : args = [] := args_of_isCount h
  rw [Element.nests, hinner, Element.nestsAny, Bool.and_false, Bool.false_or]

theorem nests_denoteAll {counts : Nat} {es : List Element}
    (ih : ∀ e ∈ es, isBuilt ok e → isPlain e → ∀ n inside, Regex.nests P Q inside (spans (denote n e)) =
      Element.nests (·.command?.any p) (·.command?.any q) inside e)
    (hbuilt : areBuilt ok counts es) (hplain : arePlain counts es) (n : Nat) (inside : Bool) :
    Regex.nests P Q inside (spans (.concat (denoteAll counts n es))) =
      Element.nestsAny (·.command?.any p) (·.command?.any q) inside es := by
  induction es generalizing counts n with
  | nil =>
    rw [denoteAll, Element.nestsAny]
    exact nests_nil inside
  | cons e rest ihrest =>
    rw [List.forall_mem_cons] at ih
    rw [Element.nestsAny]
    cases counts with
    | zero =>
      rw [areBuilt, Bool.and_eq_true] at hbuilt
      rw [arePlain, Bool.and_eq_true] at hplain
      rw [denoteAll, spans_concat_cons, nests_append, ih.1 hbuilt.1 hplain.1, ihrest ih.2 hbuilt.2 hplain.2]
    | succ counts =>
      rw [areBuilt, Bool.and_eq_true] at hbuilt
      rw [arePlain, Bool.and_eq_true] at hplain
      -- a count is no command and denotes nothing
      have hcommand := (isCount_leaf hbuilt.1).2
      rw [denoteAll, nests_count hbuilt.1 (by rw [hcommand]; rfl), Bool.false_or]
      exact ihrest ih.2 hbuilt.2 hplain.2 n

theorem nests_denote (hp : Tells p P) (hq : Tells q Q) {e : Element} (hbuilt : isBuilt ok e) (hplain : isPlain e)
    (n : Nat) (inside : Bool) : Regex.nests P Q inside (spans (denote n e)) =
      Element.nests (·.command?.any p) (·.command?.any q) inside e := by
  induction e using argsInduction generalizing n inside with
  | node k v args ih =>
    by_cases hk : k = .literal
    . subst hk
      rw [isBuilt_literal_iff] at hbuilt
      rw [spans_denote_literal, hbuilt.1, Element.nests, command?_of_ne_command (by decide), Element.nestsAny,
        nests_nil]
      simp
    . obtain ⟨c, hc, hoperands, hmakes⟩ := makes_denote hk hplain
      obtain ⟨rfl, -, hbuilt⟩ := (isBuilt_iff_of_ofName? hk hc).1 hbuilt
      have hargs := nests_denoteAll ih hbuilt hoperands (n + ownGroups c)
      have hmakes := hmakes n
      rw [Element.nests, command?_node, hc, Option.any_some, Option.any_some]
      generalize denote n (node .command v args) = r at hmakes
      cases hmakes with
      | group hgroup =>
        subst hgroup
        rw [nests_group, hp.group, hq.group, hargs]
      | rep hquantifier hmax =>
        rw [nests_rep, hp.rep c _ _ _ _ hquantifier hmax, hq.rep c _ _ _ _ hquantifier hmax, hargs]
      | other hgroup hquantifier hspans =>
        rw [hspans, hargs, hp.other c hgroup hquantifier, hq.other c hgroup hquantifier]
        simp

end Nests

section Shift

theorem meaning_shift (c : Command) (v : Bytes) (n m : Nat) (args : List Element) (rs : List Regex) :
    meaning c v (n + m) args (rs.map (shift m)) = (meaning c v n args rs).shift m := by
  cases c with
  | control | anyCharacter | start | finish | except => rfl
  | group | concatenation | oneOrMore | optional | zeroOrMore => simp only [meaning, shift, concat_shift]
  | alternation => simp only [meaning, choice_shift]
  | range =>
    rw [meaning, meaning]
    split <;> rfl
  | reference => cases args <;> rfl
  | times | minTimes =>
    cases args with
    | nil => rfl
    | cons e args => simp only [meaning, shift, concat_shift]
  | minMaxTimes =>
    obtain _ | ⟨e, _ | ⟨e', args⟩⟩ := args
    . rfl
    . rfl
    . simp only [meaning, shift, concat_shift]

theorem denoteAll_shift {es : List Element} (m : Nat) (ih : ∀ e ∈ es, ∀ n, denote (n + m) e = (denote n e).shift m)
    (counts n : Nat) : denoteAll counts (n + m) es = (denoteAll counts n es).map (shift m) := by
  induction es generalizing counts n with
  | nil =>
    rw [denoteAll, denoteAll]
    rfl
  | cons e rest ihrest =>
    rw [List.forall_mem_cons] at ih
    cases counts with
    | zero => rw [denoteAll, denoteAll, ih.1, Nat.add_right_comm, ihrest ih.2, List.map_cons]
    | succ counts =>
      rw [denoteAll, denoteAll]
      exact ihrest ih.2 counts n

theorem denote_shift (n m : Nat) (e : Element) : denote (n + m) e = (denote n e).shift m := by
  induction e using argsInduction generalizing n with
  | node k v args ih =>
    rw [denote, denote]
    split
    . rw [concat_shift, List.map_map]
      rfl
    . cases Command.ofName? v with
      | none => rfl
      | some c =>
        dsimp only
        rw [Nat.add_right_comm, Nat.add_right_comm n m, denoteAll_shift m ih, meaning_shift]

end Shift

end Pattern

end VerboseExpr
