import VerboseExpr.Proofs.Compilation.Append
import VerboseExpr.Proofs.Pattern.Normal
import VerboseExpr.Proofs.Pattern.Operands

/-!
Where the parts of a pattern come from. A pattern consists of pieces, each of which is due to one element of
the normal form: the marks that commands write themselves, the texts of literals, counts and references.
Main statement: the texts of the literals stand in the pattern in the order of the tree, and all of them are
there, unless some stand below a count.
-/

namespace VerboseExpr

namespace Pattern

inductive Piece where
  /-- What a command writes of its own. -/
  | mark (text : Bytes)
  | literal (value : Bytes)
  | count (digits : Bytes)
  | reference (index : Bytes)
  deriving DecidableEq, Repr

namespace Piece

def text : Piece → Bytes
  | mark text => text
  | literal value => escape value
  | count digits => digits
  | reference index => 0x5C :: index

/-- What the pieces of a pattern are like. Among the marks, only a control character has a backslash. -/
def Sound : Piece → Prop
  | mark text => 0x5C ∉ text ∨ text ∈ Command.control.names
  | literal _ => True
  | count digits => isInteger digits
  | reference index => isInteger index

def textAll (ps : List Piece) : Bytes := ps.flatMap text

structure Renders (ps : List Piece) (p : Bytes) : Prop where
  textAll_eq : textAll ps = p
  sound : ∀ q ∈ ps, q.Sound

def literal? : Piece → Option Bytes
  | literal value => some value
  | _ => none

def literals (ps : List Piece) : List Bytes := ps.filterMap literal?

section Lists

variable (ps qs : List Piece)

@[simp]
theorem textAll_nil : textAll [] = [] := rfl

@[simp]
theorem textAll_cons (p : Piece) : textAll (p :: ps) = p.text ++ textAll ps := rfl

@[simp]
theorem textAll_append : textAll (ps ++ qs) = textAll ps ++ textAll qs := List.flatMap_append

theorem textAll_flatten (pss : List (List Piece)) : textAll pss.flatten = (pss.map textAll).flatten := by
  induction pss with
  | nil => rfl
  | cons ps pss ih => rw [List.flatten_cons, textAll_append, ih, List.map_cons, List.flatten_cons]

theorem textAll_intersperse (sep : List Piece) (pss : List (List Piece)) :
    textAll (pss.intersperse sep).flatten = Bytes.join (textAll sep) (pss.map textAll) := by
  induction pss with
  | nil => rfl
  | cons ps pss ih =>
    cases pss with
    | nil => simp [Bytes.join]
    | cons qs pss =>
      rw [List.intersperse_cons_cons, List.flatten_cons, List.flatten_cons, textAll_append, textAll_append, ih]
      simp [Bytes.join]

@[simp]
theorem literals_nil : literals [] = [] := rfl

@[simp]
theorem literals_mark (text : Bytes) : literals (mark text :: ps) = literals ps := rfl

@[simp]
theorem literals_append : literals (ps ++ qs) = literals ps ++ literals qs := List.filterMap_append

theorem literals_flatten (pss : List (List Piece)) : literals pss.flatten = pss.flatMap literals := by
  induction pss with
  | nil => rfl
  | cons ps pss ih => rw [List.flatten_cons, literals_append, ih, List.flatMap_cons]

theorem literals_intersperse {sep : List Piece} (hsep : literals sep = []) (pss : List (List Piece)) :
    literals (pss.intersperse sep).flatten = pss.flatMap literals := by
  induction pss with
  | nil => rfl
  | cons ps pss ih =>
    cases pss with
    | nil => simp
    | cons qs pss =>
      rw [List.intersperse_cons_cons, List.flatten_cons, List.flatten_cons, literals_append, literals_append]
      rw [ih, hsep, List.nil_append, ← List.flatMap_cons]

theorem forall_mem_intersperse {P : Piece → Prop} {sep : List Piece} {pss : List (List Piece)}
    (hsep : ∀ q ∈ sep, P q) (hpss : ∀ ps ∈ pss, ∀ q ∈ ps, P q) :
    ∀ q ∈ (pss.intersperse sep).flatten, P q := by
  induction pss with
  | nil => simp
  | cons ps pss ih =>
    rw [List.forall_mem_cons] at hpss
    cases pss with
    | nil => simpa using hpss.1
    | cons qs pss =>
      rw [List.intersperse_cons_cons, List.flatten_cons, List.flatten_cons, List.forall_mem_append,
        List.forall_mem_append]
      exact ⟨hpss.1, hsep, ih hpss.2⟩

end Lists

end Piece

end Pattern

namespace Command

open Pattern Pattern.Piece

/-- The pieces of the arguments of a command in the order of its pattern, among the marks that it writes of
its own. A reference is a piece of its own. -/
def layout (c : Command) (called : Bytes) (args : List (List Piece)) : List Piece :=
  match c, args with
  | control, _ => [mark called]
  | anyCharacter, _ => mark "." :: args.flatten
  | start, _ => mark "^" :: args.flatten
  | finish, _ => mark "$" :: args.flatten
  | except, _ => mark "[^" :: (args.flatten ++ [mark "]"])
  | group, _ => mark "(" :: (args.flatten ++ [mark ")"])
  | concatenation, _ => args.flatten
  | oneOrMore, _ => mark "(?:" :: (args.flatten ++ [mark ")+"])
  | optional, _ => mark "(?:" :: (args.flatten ++ [mark ")?"])
  | zeroOrMore, _ => mark "(?:" :: (args.flatten ++ [mark ")*"])
  | alternation, _ => mark "(?:" :: ((args.intersperse [mark "|"]).flatten ++ [mark ")"])
  | range, lo :: hi :: _ => mark "[" :: (lo ++ mark "-" :: (hi ++ [mark "]"]))
  | times, n :: body => mark "(?:" :: (body.flatten ++ mark ")\x7b" :: (n ++ [mark "\x7d"]))
  | minTimes, n :: body => mark "(?:" :: (body.flatten ++ mark ")\x7b" :: (n ++ [mark ",\x7d"]))
  | minMaxTimes, n :: m :: body =>
    mark "(?:" :: (body.flatten ++ mark ")\x7b" :: (n ++ mark "," :: (m ++ [mark "\x7d"])))
  | _, _ => []

section Layout

variable {c : Command} {called p : Bytes} {args : List (List Piece)}

theorem textAll_layout (hc : c ≠ reference) (h : c.render called (args.map textAll) = some p) :
    textAll (c.layout called args) = p := by
  have hempty : Bytes.ofString "" = [] := rfl
  cases c with
  | reference => contradiction
  | range =>
    obtain _ | ⟨lo, _ | ⟨hi, rest⟩⟩ := args
    . simp [render] at h
    . simp [render] at h
    . obtain rfl := Option.some.inj h
      simp [layout, text]
  | times | minTimes =>
    obtain _ | ⟨n, body⟩ := args
    . simp [render] at h
    . obtain rfl := Option.some.inj h
      simp [layout, wrap, text, textAll_flatten]
  | minMaxTimes =>
    obtain _ | ⟨n, _ | ⟨m, body⟩⟩ := args
    . simp [render] at h
    . simp [render] at h
    . obtain rfl := Option.some.inj h
      simp [layout, wrap, text, textAll_flatten]
  | alternation =>
    obtain rfl := Option.some.inj h
    simp [layout, wrap, text, textAll_intersperse]
  | _ =>
    obtain rfl := Option.some.inj h
    simp [layout, wrap, text, textAll_flatten, hempty]

theorem literals_layout (hc : c ≠ reference) (harity : c.arity.accepts args.length)
    (hcounts : ∀ ps ∈ args.take c.counts, literals ps = []) :
    literals (c.layout called args) = args.flatMap literals := by
  cases c with
  | reference => contradiction
  | control =>
    obtain rfl : args = [] := List.length_eq_zero_iff.1 (accepts_exactly.1 harity)
    rfl
  | range =>
    obtain ⟨lo, hi, rfl⟩ : ∃ lo hi, args = [lo, hi] := by
      match args, accepts_exactly.1 harity with
      | [lo, hi], _ => exact ⟨lo, hi, rfl⟩
    simp [layout]
  | times | minTimes =>
    obtain ⟨n, body, rfl⟩ := List.exists_cons_of_length_pos (Nat.zero_lt_of_lt (accepts_atLeast.1 harity))
    have hn : literals n = [] := hcounts n List.mem_cons_self
    simp [layout, literals_flatten, hn]
  | minMaxTimes =>
    have hthree := accepts_atLeast.1 harity
    obtain ⟨n, m, body, rfl⟩ : ∃ n m body, args = n :: m :: body := by
      match args, hthree with
      | n :: m :: body, _ => exact ⟨n, m, body, rfl⟩
    have hn : literals n = [] := hcounts n List.mem_cons_self
    have hm : literals m = [] := hcounts m (List.mem_cons_of_mem n List.mem_cons_self)
    simp [layout, literals_flatten, hn, hm]
  | alternation =>
    have hbar : literals [mark (Bytes.ofString "|")] = [] := rfl
    simp [layout, literals_intersperse hbar]
  | _ => simp [layout, literals_flatten]

theorem forall_mem_layout {P : Piece → Prop} (hmark : ∀ text : Bytes, 0x5C ∉ text → P (mark text))
    (hcontrol : c = control → P (mark called)) (hargs : ∀ ps ∈ args, ∀ q ∈ ps, P q) :
    ∀ q ∈ c.layout called args, P q := by
  have hflatten : ∀ q ∈ args.flatten, P q := List.forall_mem_flatten.2 hargs
  cases c with
  | control => exact List.forall_mem_singleton.2 (hcontrol rfl)
  | range =>
    obtain _ | ⟨lo, _ | ⟨hi, rest⟩⟩ := args
    . simp [layout]
    . simp [layout]
    . simp only [List.forall_mem_cons] at hargs
      simp only [layout, List.forall_mem_cons, List.forall_mem_append]
      exact ⟨hmark _ (by decide), hargs.1, hmark _ (by decide), hargs.2.1, hmark _ (by decide), by simp⟩
  | times | minTimes =>
    obtain _ | ⟨n, body⟩ := args
    . simp [layout]
    . simp only [List.forall_mem_cons] at hargs
      simp only [layout, List.forall_mem_cons, List.forall_mem_append]
      have hbody : ∀ q ∈ body.flatten, P q := List.forall_mem_flatten.2 hargs.2
      exact ⟨hmark _ (by decide), hbody, hmark _ (by decide), hargs.1, hmark _ (by decide), by simp⟩
  | minMaxTimes =>
    obtain _ | ⟨n, _ | ⟨m, body⟩⟩ := args
    . simp [layout]
    . simp [layout]
    . simp only [List.forall_mem_cons] at hargs
      simp only [layout, List.forall_mem_cons, List.forall_mem_append]
      have hbody : ∀ q ∈ body.flatten, P q := List.forall_mem_flatten.2 hargs.2.2
      exact ⟨hmark _ (by decide), hbody, hmark _ (by decide), hargs.1, hmark _ (by decide), hargs.2.1,
        hmark _ (by decide), by simp⟩
  | concatenation => exact hflatten
  | reference => simp [layout]
  | anyCharacter | start | finish => exact List.forall_mem_cons.2 ⟨hmark _ (by decide), hflatten⟩
  | alternation =>
    simp only [layout, List.forall_mem_cons, List.forall_mem_append]
    have hbar : ∀ q ∈ [mark (Bytes.ofString "|")], P q := List.forall_mem_singleton.2 (hmark _ (by decide))
    exact ⟨hmark _ (by decide), forall_mem_intersperse hbar hargs, hmark _ (by decide), by simp⟩
  | _ =>
    simp only [layout, List.forall_mem_cons, List.forall_mem_append]
    exact ⟨hmark _ (by decide), hflatten, hmark _ (by decide), by simp⟩

end Layout

end Command

/-- The texts stand in the other text one after another, with anything between them. -/
inductive InOrder : List Bytes → Bytes → Prop where
  | nil (rest : Bytes) : InOrder [] rest
  | cons {t : Bytes} {ts : List Bytes} {rest : Bytes} (gap : Bytes) :
    InOrder ts rest → InOrder (t :: ts) (gap ++ t ++ rest)

namespace InOrder

variable {ts : List Bytes} {b : Bytes}

theorem append_left (gap : Bytes) (h : InOrder ts b) : InOrder ts (gap ++ b) := by
  cases h with
  | nil => exact nil _
  | cons gap' h =>
    rw [← List.append_assoc, ← List.append_assoc]
    exact cons (gap ++ gap') h

theorem flatten_sublist (h : InOrder ts b) : ts.flatten.Sublist b := by
  induction h with
  | nil => exact List.nil_sublist _
  | @cons t ts rest gap _ ih =>
    rw [List.flatten_cons]
    exact (List.sublist_append_right gap t).append ih

end InOrder

namespace Element

mutual

/-- The texts of the literals of a tree, from left to right, without those that are counts themselves. -/
def operandTexts : Element → List Bytes
  | node k v args =>
    if k = .literal then [v] else operandTextsAll ((Command.ofName? v).elim 0 (·.counts)) args

def operandTextsAll (counts : Nat) : List Element → List Bytes
  | [] => []
  | e :: rest =>
    match counts with
    | 0 => operandTexts e ++ operandTextsAll 0 rest
    | counts + 1 => (if e.isLiteral then [] else operandTexts e) ++ operandTextsAll counts rest

end

mutual

/-- Are there no literals below the counts of a tree? -/
def countsBare : Element → Bool
  | node k v args => k = .literal || countsBareAll ((Command.ofName? v).elim 0 (·.counts)) args

def countsBareAll (counts : Nat) : List Element → Bool
  | [] => true
  | e :: rest =>
    match counts with
    | 0 => countsBare e && countsBareAll 0 rest
    | counts + 1 => (e.isLiteral || (operandTexts e).isEmpty) && countsBareAll counts rest

end

end Element

namespace Pattern

open Element

mutual

/-- The pieces of the pattern of a tree in normal form. -/
def pieces : Element → List Piece
  | .node k v args =>
    if k = .literal then [.literal v]
    else
      match Command.ofName? v with
      | none => []
      | some .reference => args.map fun e => .reference e.value
      | some c => c.layout v (piecesAll c.counts args)

def piecesAll (counts : Nat) : List Element → List (List Piece)
  | [] => []
  | e :: rest =>
    match counts with
    | 0 => pieces e :: piecesAll 0 rest
    | counts + 1 => [.count e.value] :: piecesAll counts rest

end

theorem Piece.literals_inOrder (ps : List Piece) : InOrder ((literals ps).map escape) (textAll ps) := by
  induction ps with
  | nil => exact InOrder.nil _
  | cons p ps ih =>
    cases p with
    | literal v => exact InOrder.cons [] ih
    | mark | count | reference => exact ih.append_left _

section Pieces

open Piece

theorem pieces_literal (v : Bytes) (args : List Element) : pieces (.node .literal v args) = [.literal v] := by
  simp [pieces]

theorem pieces_reference {k : Kind} {v : Bytes} (hk : k ≠ .literal) (hv : Command.ofName? v = some .reference)
    (args : List Element) : pieces (.node k v args) = args.map fun e => .reference e.value := by
  rw [pieces, if_neg hk, hv]

theorem pieces_command {k : Kind} {v : Bytes} {c : Command} (hk : k ≠ .literal) (hv : Command.ofName? v = some c)
    (hc : c ≠ .reference) (args : List Element) :
    pieces (.node k v args) = c.layout v (piecesAll c.counts args) := by
  rw [pieces, if_neg hk, hv]
  cases c with
  | reference => contradiction
  | _ => rfl

theorem length_piecesAll (counts : Nat) (es : List Element) : (piecesAll counts es).length = es.length := by
  induction es generalizing counts with
  | nil => rw [piecesAll, List.length_nil, List.length_nil]
  | cons e rest ih =>
    cases counts with
    | zero => rw [piecesAll, List.length_cons, ih, List.length_cons]
    | succ counts => rw [piecesAll, List.length_cons, ih, List.length_cons]

theorem renders_piecesAll {name : Bytes} {counts index skip : Nat} {es : List Element} {parts : List Bytes}
    (hskip : counts - index = skip) (hes : ∀ e ∈ es, ∀ p, emit e = .ok p → Renders (pieces (normalize e)) p)
    (h : emitAll name counts index es = .ok parts) :
    (piecesAll skip (normalizeAll es)).map textAll = parts ∧
      ∀ ps ∈ piecesAll skip (normalizeAll es), ∀ q ∈ ps, q.Sound := by
  induction es generalizing index skip parts with
  | nil =>
    rw [emitAll, Except.ok.injEq] at h
    simp [← h, normalizeAll, piecesAll]
  | cons e rest ih =>
    obtain ⟨part, more, hpart, hmore, rfl⟩ := emitAll_cons_eq_ok_iff.1 h
    rw [List.forall_mem_cons] at hes
    rw [normalizeAll]
    cases skip with
    | zero =>
      rw [operand_of_le (by omega)] at hpart
      obtain ⟨htext, hsound⟩ := hes.1 part hpart
      obtain ⟨htexts, hsounds⟩ := ih (by omega : counts - (index + 1) = 0) hes.2 hmore
      rw [piecesAll, List.map_cons, List.forall_mem_cons, htext, htexts]
      exact ⟨rfl, hsound, hsounds⟩
    | succ skip =>
      obtain ⟨hinteger, hvalue⟩ := (operand_of_lt (by omega) name e part).1 hpart
      obtain ⟨htexts, hsounds⟩ := ih (by omega : counts - (index + 1) = skip) hes.2 hmore
      rw [piecesAll, List.map_cons, List.forall_mem_cons, List.forall_mem_singleton, value_normalize, htexts,
        ← hvalue]
      exact ⟨by simp [text], hinteger, hsounds⟩

theorem renders_pieces {e : Element} {p : Bytes} (h : emit e = .ok p) : Renders (pieces (normalize e)) p := by
  induction e using foldInduction generalizing p with
  | literal v args =>
    rw [emit_literal, Except.ok.injEq] at h
    rw [normalize_literal, Element.literal, pieces_literal, ← h]
    exact ⟨by simp [text], List.forall_mem_singleton.2 trivial⟩
  | operands k v args hk ih =>
    rw [emit_of_ne_literal hk] at h
    obtain ⟨c, parts, hc, harity, hparts, hrender⟩ := exists_of_assemble h
    obtain ⟨htexts, hsounds⟩ := renders_piecesAll (Nat.sub_zero c.counts) (fun e he p hp => ih e he hp) hparts
    rw [normalize_of_ne_literal hk]
    -- a reference is a piece of its own, whose number is not one of its operands
    by_cases hreference : c = .reference
    . subst hreference
      obtain ⟨e, he⟩ := List.length_eq_one_iff.1 (accepts_exactly.1 harity)
      rw [he] at hparts
      obtain ⟨part, more, hpart, -, rfl⟩ := emitAll_cons_eq_ok_iff.1 hparts
      obtain ⟨hinteger, rfl⟩ := (operand_of_lt Nat.one_pos v e part).1 hpart
      obtain rfl := Option.some.inj hrender
      rw [pieces_reference hk hc, he, normalizeAll, normalizeAll, List.map_cons, List.map_nil, value_normalize]
      constructor
      . rw [textAll_cons, textAll_nil, List.append_nil]
        rfl
      . exact List.forall_mem_singleton.2 hinteger
    . rw [← htexts] at hrender
      rw [pieces_command hk hc hreference]
      constructor
      . exact Command.textAll_layout hreference hrender
      . apply Command.forall_mem_layout
        . intro text htext
          exact .inl htext
        . rintro rfl
          exact .inr (mem_names_of_ofName? hc)
        . exact hsounds

theorem literals_of_mem_take_piecesAll (counts : Nat) (es : List Element) :
    ∀ ps ∈ (piecesAll counts es).take counts, literals ps = [] := by
  induction es generalizing counts with
  | nil => simp [piecesAll]
  | cons e rest ih =>
    cases counts with
    | zero => simp
    | succ counts =>
      intro ps hps
      rw [piecesAll, List.take_succ_cons] at hps
      cases List.mem_cons.1 hps with
      | inl heq =>
        rw [heq]
        rfl
      | inr hmem => exact ih counts ps hmem

theorem flatMap_literals_piecesAll {counts : Nat} {es : List Element}
    (hes : ∀ e ∈ es.drop counts, countsBare e → literals (pieces e) = operandTexts e)
    (h : countsBareAll counts es) : (piecesAll counts es).flatMap literals = operandTextsAll counts es := by
  induction es generalizing counts with
  | nil => simp [piecesAll, operandTextsAll]
  | cons e rest ih =>
    cases counts with
    | zero =>
      rw [countsBareAll, Bool.and_eq_true] at h
      rw [piecesAll, operandTextsAll, List.flatMap_cons, hes e List.mem_cons_self h.1]
      have hrest : ∀ x ∈ rest.drop 0, countsBare x → literals (pieces x) = operandTexts x :=
        fun x hx => hes x (List.mem_cons_of_mem e hx)
      rw [ih hrest h.2]
    | succ counts =>
      rw [countsBareAll, Bool.and_eq_true, Bool.or_eq_true, List.isEmpty_iff] at h
      have hcount : (if e.isLiteral then [] else operandTexts e) = [] := by
        cases h.1 with
        | inl hliteral => rw [if_pos hliteral]
        | inr hnone => rw [hnone, ite_self]
      rw [piecesAll, operandTextsAll, List.flatMap_cons, hcount, ih hes h.2]
      rfl

theorem literals_pieces {e : Element} {p : Bytes} (h : emit e = .ok p) (hcounts : countsBare (normalize e)) :
    literals (pieces (normalize e)) = operandTexts (normalize e) := by
  induction e using foldInduction generalizing p with
  | literal v args =>
    rw [normalize_literal, Element.literal, pieces_literal, operandTexts, if_pos rfl]
    rfl
  | operands k v args hk ih =>
    rw [emit_of_ne_literal hk] at h
    obtain ⟨c, parts, hc, harity, hparts, -⟩ := exists_of_assemble h
    rw [normalize_of_ne_literal hk] at hcounts ⊢
    have hbare : countsBareAll c.counts (normalizeAll (fold args)) := by simpa [countsBare, hk, hc] using hcounts
    have hoperands : ∀ e ∈ (normalizeAll (fold args)).drop c.counts, countsBare e →
        literals (pieces e) = operandTexts e := by
      intro e he hbare
      rw [normalizeAll_eq_map, ← List.map_drop] at he
      obtain ⟨x, hx, rfl⟩ := List.mem_map.1 he
      obtain ⟨q, hq⟩ := exists_of_emitAll hparts x hx
      exact ih x (List.mem_of_mem_drop hx) hq hbare
    have hall := flatMap_literals_piecesAll hoperands hbare
    rw [operandTexts, if_neg hk, hc, Option.elim_some, ← hall]
    -- a reference has no operand but its count
    by_cases hreference : c = .reference
    . subst hreference
      rw [pieces_reference hk hc]
      obtain ⟨e, he⟩ := List.length_eq_one_iff.1 (accepts_exactly.1 harity)
      rw [he, normalizeAll, normalizeAll]
      rfl
    . rw [← length_normalizeAll, ← length_piecesAll c.counts] at harity
      rw [pieces_command hk hc hreference]
      rw [Command.literals_layout hreference harity (literals_of_mem_take_piecesAll _ _)]

end Pieces

end Pattern

section Sources

open Element Pattern

/-- The texts of the literals stand in the pattern of a source in the order of its tree, provided that none
of them is below a count. -/
theorem operandTexts_inOrder {source p : Bytes} {tree : Element} (htree : parse source = .ok tree)
    (hp : compile source = .ok p) (hcounts : countsBare tree.normalize) :
    InOrder (tree.normalize.operandTexts.map escape) p := by
  rw [compile_eq_bind, htree] at hp
  rw [← (renders_pieces hp).textAll_eq, ← literals_pieces hp hcounts]
  exact Piece.literals_inOrder _

def countedTree : Element :=
  command rootName [command "times" [command "2" [], literal "a.", command "or" [literal "b", literal ""]],
    command "refer" [], literal "1", literal "c"]

theorem operandTexts_inOrder_nested :
    parse "(times 2 'a.' (or 'b' '')) refer '1' 'c'" = .ok countedTree ∧
      compile "(times 2 'a.' (or 'b' '')) refer '1' 'c'" = .ok "(?:a\\.(?:b|))\x7b2\x7d\\1c" ∧
      countsBare countedTree.normalize ∧ countedTree.normalize.operandTexts = ["a.", "b", "", "c"] ∧
      InOrder (countedTree.normalize.operandTexts.map escape) "(?:a\\.(?:b|))\x7b2\x7d\\1c" := by
  have htree : parse "(times 2 'a.' (or 'b' '')) refer '1' 'c'" = .ok countedTree := by decide +kernel
  have hp : compile "(times 2 'a.' (or 'b' '')) refer '1' 'c'" = .ok "(?:a\\.(?:b|))\x7b2\x7d\\1c" := by decide +kernel
  exact ⟨htree, hp, by decide +kernel, by decide +kernel, operandTexts_inOrder htree hp (by decide +kernel)⟩

def lostTree : Element := command rootName [command "times" [command "3" [literal "a"], literal "b"]]

theorem operandTexts_below_count :
    parse "(times (3 'a') 'b')" = .ok lostTree ∧ compile "(times (3 'a') 'b')" = .ok "(?:b)\x7b3\x7d" ∧
      lostTree.normalize.operandTexts = ["a", "b"] ∧
      ¬InOrder (lostTree.normalize.operandTexts.map escape) "(?:b)\x7b3\x7d" := by
  have hlost : ¬(lostTree.normalize.operandTexts.map escape).flatten.Sublist (Bytes.ofString "(?:b)\x7b3\x7d") := by
    decide +kernel
  exact ⟨by decide +kernel, by decide +kernel, by decide +kernel, fun h => hlost h.flatten_sublist⟩

end Sources

end VerboseExpr
