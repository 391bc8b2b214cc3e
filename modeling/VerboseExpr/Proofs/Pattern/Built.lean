import VerboseExpr.Proofs.Analysis.Tables
import VerboseExpr.Proofs.Pattern.Correct
import VerboseExpr.Proofs.Regex.Spans

namespace VerboseExpr.Regex.Automaton

open Pattern (escapeChar)

theorem classRange?_reversed {lo hi d e : Char} {more rest : List Char} {n : Nat}
    (hlo : classChar? d (more ++ '-' :: e :: rest) = some (lo, more.length))
    (hhi : classChar? e rest = some (hi, n)) (he : e ≠ ']') (hlt : hi.toNat < lo.toNat) :
    classRange? d (more ++ '-' :: e :: rest) = none := by
  rw [classRange?, hlo]
  simp only [Option.bind_eq_bind, Option.bind_some, List.drop_left, he, hhi, hlt, if_false, if_true]
  rfl

theorem lexeme?_reversed {lo hi : Char} (k : List Char) (h : hi.toNat < lo.toNat) :
    lexeme? '[' (escapeChar lo ++ '-' :: (escapeChar hi ++ ']' :: k)) = none := by
  obtain ⟨d, more, hlo, hd, -, hcircumflex, hread⟩ := classChar?_escapeChar lo
  obtain ⟨e, more', hhi, he, -, -, hread'⟩ := classChar?_escapeChar hi
  obtain ⟨hchar, hitem⟩ := hread ('-' :: e :: (more' ++ ']' :: k))
  rw [classRange?_reversed hchar (hread' _).1 he h] at hitem
  have hitems : classItems? true (d :: (more ++ '-' :: e :: (more' ++ ']' :: k))) = none := by
    rw [classItems?, hitem]
    simp [hd]
  have hclass : class? (d :: (more ++ '-' :: e :: (more' ++ ']' :: k))) = none := by
    rw [class?.eq_def]
    split
    . next body heq =>
      rw [List.cons.injEq] at heq
      exact absurd heq.1 hcircumflex
    . rw [hitems]
      rfl
  rw [hlo, hhi]
  show (class? (d :: (more ++ '-' :: e :: (more' ++ ']' :: k)))).map _ = none
  rw [hclass]
  rfl

end VerboseExpr.Regex.Automaton

namespace VerboseExpr.Pattern

open Regex Regex.Automaton Element

section Built

/-- Are the arguments of the kind that the command is meant for? Nothing can be referred to, a range is over
characters, and an exception is over literals, of which one at least is not empty. -/
def operandsFit (c : Command) (args : List Element) : Bool :=
  match c with
  | .reference => false
  | .range => args.all fun e => e.isLiteral && Utf8.count e.value == 1
  | .except => args.all (·.isLiteral) && args.any (!·.value.isEmpty)
  | _ => true

mutual

/-- Is the tree built from literals with texts that are `ok` and from commands with arguments that fit? -/
def isBuilt (ok : Bytes → Bool) : Element → Bool
  | .node k v args =>
    if k = .literal then args.isEmpty && ok v
    else
      k == .command &&
        match Command.ofName? v with
        | none => false
        | some c => operandsFit c args && areBuilt ok c.counts args

def areBuilt (ok : Bytes → Bool) (counts : Nat) : List Element → Bool
  | [] => true
  | e :: rest =>
    match counts with
    | 0 => isBuilt ok e && areBuilt ok 0 rest
    | counts + 1 => isCount e && areBuilt ok counts rest

end

variable {ok : Bytes → Bool}

theorem isBuilt_of_ne_literal {k : Kind} (hk : k ≠ .literal) {v : Bytes} {args : List Element} :
    isBuilt ok (.node k v args) ↔ k = .command ∧
      ∃ c, Command.ofName? v = some c ∧ operandsFit c args ∧ areBuilt ok c.counts args := by
  rw [isBuilt, if_neg hk, Bool.and_eq_true, beq_iff_eq]
  cases Command.ofName? v with
  | none => simp
  | some c => simp

theorem isBuilt_iff_of_ofName? {k : Kind} (hk : k ≠ .literal) {v : Bytes} {c : Command}
    (hc : Command.ofName? v = some c) {args : List Element} :
    isBuilt ok (.node k v args) ↔ k = .command ∧ operandsFit c args ∧ areBuilt ok c.counts args := by
  simp [isBuilt_of_ne_literal hk, hc]

theorem isBuilt_literal_iff {v : Bytes} {args : List Element} :
    isBuilt ok (.node .literal v args) ↔ args = [] ∧ ok v := by
  rw [isBuilt, if_pos rfl, Bool.and_eq_true, List.isEmpty_iff]

theorem areBuilt_zero (es : List Element) : areBuilt ok 0 es = es.all (isBuilt ok) := by
  induction es with
  | nil => rw [areBuilt, List.all_nil]
  | cons e rest ih => rw [areBuilt, ih, List.all_cons]

theorem isBuilt_of_isLiteral {e : Element} (h : e.isLiteral) : isBuilt ok e = (e.args.isEmpty && ok e.value) := by
  obtain ⟨k, v, args⟩ := e
  rw [isLiteral, kind, beq_iff_eq] at h
  rw [isBuilt, if_pos h, value, Element.args]

theorem all_isText {es : List Element} (hliteral : ∀ e ∈ es, e.isLiteral)
    (hbuilt : areBuilt Utf8.isValid 0 es) : es.all isText := by
  rw [areBuilt_zero, List.all_eq_true] at hbuilt
  rw [List.all_eq_true]
  intro e he
  have hvalid := hbuilt e he
  rw [isBuilt_of_isLiteral (hliteral e he), Bool.and_eq_true] at hvalid
  rw [isText, hliteral e he, hvalid.2]
  rfl

end Built

section Meaning

def countFits : Regex → Bool
  | .rep min max _ _ => countAllowed min max
  | _ => true

theorem all_countFits_spans (r : Regex) : (spans r).all countFits = countsFit r := by
  induction r with
  | group n r ih =>
    rw [spans, List.all_cons, ih]
    rfl
  | rep min max greedy r ih => rw [spans, List.all_cons, ih, countFits, countsFit]
  | cat r s ihr ihs | alt r s ihr ihs => rw [spans, List.all_append, ihr, ihs, countsFit]
  | _ => rfl

/-- What a command makes of what its arguments denote: a group that begins with number `n`, a repetition, or
something that adds no group and no repetition. -/
inductive Makes (c : Command) (n : Nat) (rs : List Regex) : Regex → Prop where
  | group : c = .group → Makes c n rs (.group n (.concat rs))
  | rep {min : Nat} {max : Option Nat} :
    c.isQuantifier → max.isNone = c.isUnbounded → Makes c n rs (.rep min max true (.concat rs))
  | other {r : Regex} :
    c ≠ .group → c.isQuantifier = false → spans r = spans (.concat rs) → Makes c n rs r

theorem makes_meaning {c : Command} (v : Bytes) (n : Nat) {args : List Element} {rs : List Regex}
    (harity : c.arity.accepts args.length) (hlength : rs.length = args.length - c.counts)
    (hclass : c = .range ∨ c = .except → spans (.concat rs) = []) : Makes c n rs (meaning c v n args rs) := by
  have hnone (hle : args.length ≤ c.counts) : [] = spans (.concat rs) := by
    rw [List.length_eq_zero_iff.1 (by omega : rs.length = 0)]
    rfl
  cases c with
  | group => exact .group rfl
  | concatenation => exact .other (by decide) rfl rfl
  | alternation => exact .other (by decide) rfl ((spans_choice rs).trans (spans_concat rs).symm)
  | oneOrMore | optional | zeroOrMore => exact .rep rfl rfl
  | times | minTimes =>
    obtain ⟨e, rest, rfl⟩ := List.exists_cons_of_length_pos (Nat.lt_of_succ_lt (accepts_atLeast.1 harity))
    exact .rep rfl rfl
  | minMaxTimes =>
    have hthree := accepts_atLeast.1 harity
    obtain ⟨e, rest, rfl⟩ := List.exists_cons_of_length_pos (l := args) (by omega)
    rw [List.length_cons] at hthree
    obtain ⟨e', rest, rfl⟩ := List.exists_cons_of_length_pos (l := rest) (by omega)
    exact .rep rfl rfl
  | control | anyCharacter | start | finish =>
    exact .other (by decide) rfl (hnone (Nat.le_of_eq (accepts_exactly.1 harity)))
  | reference =>
    have hone := accepts_exactly.1 harity
    obtain ⟨e, rfl⟩ := List.length_eq_one_iff.1 hone
    exact .other (by decide) rfl (hnone (Nat.le_of_eq hone))
  | except => exact .other (by decide) rfl (hclass (.inr rfl)).symm
  | range =>
    apply Makes.other (by decide) rfl
    rw [hclass (.inl rfl), meaning]
    split <;> rfl

theorem Makes.all_countsFit {c : Command} {n : Nat} {rs : List Regex} {r : Regex} (h : Makes c n rs r)
    (hfits : countsFit r) : rs.all countsFit := by
  cases h with
  | group => rwa [countsFit, countsFit_concat] at hfits
  | rep =>
    rw [countsFit, countsFit_concat, Bool.and_eq_true] at hfits
    exact hfits.2
  | other _ _ hspans =>
    rwa [← all_countFits_spans, hspans, all_countFits_spans, countsFit_concat] at hfits

end Meaning

section Classes

theorem decode_of_count_eq_one {v : Bytes} (h : Utf8.count v = 1) : ∃ c, Utf8.decode v = [c] := by
  rw [Utf8.count] at h
  obtain ⟨u, hu⟩ := List.length_eq_one_iff.1 h
  exact ⟨u.char, by rw [Utf8.decode, hu, List.map_singleton]⟩

theorem isExcept_of_operandsFit {es : List Element} (hfit : operandsFit .except es)
    (hbuilt : areBuilt Utf8.isValid 0 es) : isExcept es := by
  rw [operandsFit, Bool.and_eq_true, List.all_eq_true, List.any_eq_true] at hfit
  obtain ⟨hliteral, e, he, hne⟩ := hfit
  have htext := all_isText hliteral hbuilt
  rw [isExcept, htext]
  have hvalid := List.all_eq_true.1 htext e he
  rw [isText, hliteral e he, Bool.true_and] at hvalid
  have hdecode : Utf8.decode e.value ≠ [] := by
    intro hnil
    have hvalue := Utf8.ofChars_decode hvalid
    rw [hnil, Bytes.ofChars_nil] at hvalue
    simp [← hvalue] at hne
  have hchars : characters es ≠ [] := by
    rw [characters, Ne, List.flatMap_eq_nil_iff]
    intro hall
    exact hdecode (hall e he)
  simpa using hchars

theorem isLiteral_of_range {es : List Element} (hfit : operandsFit .range es) : ∀ e ∈ es, e.isLiteral := by
  rw [operandsFit, List.all_eq_true] at hfit
  intro e he
  have := hfit e he
  rw [Bool.and_eq_true] at this
  exact this.1

theorem readsAs_reversed {es : List Element} {v p : Bytes} {parts : List Bytes} (n : Nat)
    (hlength : es.length = 2) (hfit : operandsFit .range (normalizeAll es))
    (hbuilt : areBuilt Utf8.isValid 0 (normalizeAll es)) (hrange : isRange (normalizeAll es) = false)
    (hparts : emitAll v 0 0 es = .ok parts) (hrender : Command.range.render v parts = some p) :
    ∃ cs r, p = Bytes.ofChars cs ∧ ReadsAs n n cs r ∧ countsFit r = false := by
  have htext := all_isText (isLiteral_of_range hfit) hbuilt
  rw [operandsFit, List.all_eq_true] at hfit
  rw [emitAll_text 0 (all_isText_normalizeAll htext), Except.ok.injEq] at hparts
  obtain ⟨e, rest, rfl⟩ := List.exists_cons_of_length_eq_add_one hlength
  obtain ⟨e', rfl⟩ := List.length_eq_one_iff.1 (Nat.succ.inj hlength)
  simp only [normalizeAll, List.forall_mem_cons, Bool.and_eq_true, beq_iff_eq, value_normalize] at hfit
  obtain ⟨lo, hlo⟩ := decode_of_count_eq_one hfit.1.2
  obtain ⟨hi, hhi⟩ := decode_of_count_eq_one hfit.2.1.2
  -- the two characters are out of order, since the operands would make a range otherwise
  have hlt : hi.toNat < lo.toNat := by
    rw [isRange, htext] at hrange
    simpa [normalizeAll, hlo, hhi] using hrange
  refine ⟨'[' :: (escapeChar lo ++ '-' :: (escapeChar hi ++ [']'])), .rep 1 (some 0) true .empty, ?_, ?_, rfl⟩
  . rw [← hparts] at hrender
    simp only [List.map_cons, List.map_nil, hlo, hhi, List.flatMap_singleton, Command.render,
      Option.some.injEq] at hrender
    rw [← hrender]
    simp [Bytes.ofChars_append, Bytes.ofString]
  . refine ⟨by simp, ?_⟩
    intro b k _ _
    refine ⟨[.rep 1 (some 0) true .empty], true, rfl, ?_⟩
    have hlex := lexeme?_reversed k hlt
    have htext : '[' :: (escapeChar lo ++ '-' :: (escapeChar hi ++ [']'])) ++ k =
        '[' :: (escapeChar lo ++ '-' :: (escapeChar hi ++ ']' :: k)) := by simp
    rw [htext, readOn_refused hlex]
    rfl

end Classes

section Trees

variable {ok : Bytes → Bool}

/-- The pattern of an element that is built with valid texts is read, and if it is not refused the element is
plain. -/
def Settles (e : Element) : Prop :=
  isBuilt Utf8.isValid (normalize e) → ∀ p, emit e = .ok p → ∀ n, ∃ cs r, p = Bytes.ofChars cs ∧
    ReadsAs n (n + groupCount (normalize e)) cs r ∧ (countsFit r → isPlain (normalize e))

theorem settles_of_isPlain {e : Element} (h : isPlain (normalize e)) : Settles e := by
  intro _ p hemit n
  obtain ⟨cs, hcs, hread⟩ := compiles e h n
  rw [hcs, Except.ok.injEq] at hemit
  exact ⟨cs, _, hemit.symm, hread, fun _ => h⟩

theorem settles_operands {name : Bytes} {counts index skip : Nat} {es : List Element} {parts : List Bytes}
    (hskip : counts - index = skip) (hes : ∀ e ∈ es, Settles e)
    (hbuilt : areBuilt Utf8.isValid skip (normalizeAll es)) (h : emitAll name counts index es = .ok parts) (n : Nat) :
    ∃ css rs, parts = (es.take skip).map value ++ css.map Bytes.ofChars ∧ rs.length = es.length - skip ∧
      ReadsAllAs n (n + groupCountAll skip (normalizeAll es)) css rs ∧
      (rs.all countsFit → arePlain skip (normalizeAll es)) := by
  -- the counts are used up first, and the numbers of the groups go on from operand to operand
  induction es generalizing index skip parts n with
  | nil =>
    rw [emitAll, Except.ok.injEq] at h
    rw [normalizeAll, groupCountAll, arePlain]
    exact ⟨[], [], by simp [← h], by simp, ExtendsAll.nil n, fun _ => rfl⟩
  | cons e rest ih =>
    obtain ⟨part, more, hpart, hmore, rfl⟩ := emitAll_cons_eq_ok_iff.1 h
    rw [List.forall_mem_cons] at hes
    rw [normalizeAll] at hbuilt ⊢
    cases skip with
    | zero =>
      rw [areBuilt, Bool.and_eq_true] at hbuilt
      rw [operand_of_le (by omega)] at hpart
      obtain ⟨cs, r, rfl, hread, hplain⟩ := hes.1 hbuilt.1 part hpart n
      obtain ⟨css, rs, rfl, hlength, hreads, hplains⟩ :=
        ih (by omega) hes.2 hbuilt.2 hmore (n + groupCount (normalize e))
      refine ⟨cs :: css, r :: rs, rfl, ?_, ?_, ?_⟩
      . rw [List.length_cons, hlength]
        rfl
      . rw [groupCountAll, ← Nat.add_assoc]
        exact ExtendsAll.cons hread hreads
      . rw [List.all_cons, Bool.and_eq_true, arePlain, Bool.and_eq_true]
        exact And.imp hplain hplains
    | succ skip =>
      rw [areBuilt, Bool.and_eq_true] at hbuilt
      obtain ⟨-, rfl⟩ := (operand_of_lt (by omega) name e part).1 hpart
      obtain ⟨css, rs, rfl, hlength, hreads, hplains⟩ := ih (by omega) hes.2 hbuilt.2 hmore n
      refine ⟨css, rs, rfl, ?_, ?_, ?_⟩
      . rw [hlength, List.length_cons, Nat.add_sub_add_right]
      . rw [groupCountAll]
        exact hreads
      . rw [arePlain, hbuilt.1]
        exact hplains

theorem isCount_of_areBuilt {counts : Nat} {es : List Element} (h : areBuilt ok counts es) :
    ∀ e ∈ es.take counts, isCount e := by
  induction es generalizing counts with
  | nil => simp
  | cons e rest ih =>
    cases counts with
    | zero => simp
    | succ counts =>
      rw [areBuilt, Bool.and_eq_true] at h
      rw [List.take_succ_cons, List.forall_mem_cons]
      exact ⟨h.1, ih h.2⟩

theorem settles_node {k : Kind} (hk : k ≠ .literal) (v : Bytes) {args : List Element}
    (h : ∀ e ∈ fold args, Settles e) : Settles (.node k v args) := by
  by_cases hplain : isPlain (normalize (.node k v args))
  . exact settles_of_isPlain hplain
  intro hbuilt p hemit n
  rw [normalize_of_ne_literal hk] at hplain hbuilt ⊢
  rw [emit_of_ne_literal hk] at hemit
  generalize fold args = es at *
  obtain ⟨c, parts, hc, harity, hparts, hrender⟩ := exists_of_assemble hemit
  obtain ⟨rfl, hfit, hbuilt⟩ := (isBuilt_iff_of_ofName? hk hc).1 hbuilt
  rw [isPlain, if_neg hk] at hplain ⊢
  rw [groupCount, if_neg hk]
  simp only [hc, Bool.and_eq_true, length_normalizeAll, harity, true_and] at hplain ⊢
  -- the classes take texts, which are read together; the other commands put patterns around those of their operands
  by_cases hclass : c = .range ∨ c = .except
  . obtain rfl | rfl := hclass
    . have hgroups : ownGroups .range + groupCountAll Command.range.counts (normalizeAll es) = 0 := by
        apply (Nat.zero_add _).trans
        apply groupCountAll_text
        exact all_isText (isLiteral_of_range hfit) hbuilt
      rw [hgroups]
      obtain ⟨cs, r, hp, hread, hfits⟩ := readsAs_reversed n (accepts_exactly.1 harity) hfit hbuilt
        (Bool.eq_false_iff.2 hplain) hparts hrender
      exact ⟨cs, r, hp, hread, by simp [hfits]⟩
    . exact absurd (isExcept_of_operandsFit hfit hbuilt) hplain
  . rw [not_or] at hclass
    obtain ⟨css, rs, rfl, hlength, hreads, hplains⟩ :=
      settles_operands (Nat.sub_zero c.counts) h hbuilt hparts (n + ownGroups c)
    obtain ⟨cs, hcs, hread⟩ := render_eq (mem_names_of_ofName? hc) harity (isCount_of_areBuilt hbuilt) hlength hreads
      hclass.1 hclass.2 (by rintro rfl; contradiction)
    rw [hcs, Option.some.injEq] at hrender
    refine ⟨cs, _, hrender.symm, by rwa [← Nat.add_assoc], ?_⟩
    intro hfits
    have hmakes : Makes c (n + 1) rs (meaning c v (n + 1) (normalizeAll es) rs) := by
      apply makes_meaning
      . rwa [length_normalizeAll]
      . rwa [length_normalizeAll]
      . intro h
        exact absurd h (not_or.2 hclass)
    have hall := hplains (hmakes.all_countsFit hfits)
    cases c with
    | range => exact absurd rfl hclass.1
    | except => exact absurd rfl hclass.2
    | reference => contradiction
    | _ => exact hall

theorem settles (e : Element) : Settles e := by
  induction e using foldInduction with
  | literal v args =>
    intro hbuilt
    apply settles_of_isPlain _ hbuilt
    rw [normalize_literal] at hbuilt ⊢
    simpa [literal, isPlain, isBuilt] using hbuilt
  | operands k v args hk ih => exact settles_node hk v ih

end Trees

end VerboseExpr.Pattern
