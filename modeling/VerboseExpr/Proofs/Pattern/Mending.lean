import Mathlib
import VerboseExpr.Proofs.Element.Blank
import VerboseExpr.Proofs.Pattern.Straddling
import VerboseExpr.Proofs.Pattern.Structure
import VerboseExpr.Proofs.Pattern.WellBracketed

namespace VerboseExpr.Pattern

open Element

def Emits (e : Element) (p : Bytes) : Prop := emit e = .ok p

section Operands

variable {name : Bytes} {counts index : Nat} {cs bs : List Element} {parts : List Bytes}

theorem emitAll_eq_ok_iff_of_le (h : counts ≤ index) :
    emitAll name counts index bs = .ok parts ↔ List.Forall₂ Emits bs parts := by
  induction bs generalizing index parts with
  | nil =>
    rw [emitAll, Except.ok.injEq, List.forall₂_nil_left_iff]
    exact eq_comm
  | cons e rest ih =>
    rw [emitAll_cons_eq_ok_iff, List.forall₂_cons_left_iff, operand_of_le h]
    apply exists_congr
    intro part
    constructor
    . rintro ⟨more, hpart, hmore, rfl⟩
      exact ⟨more, hpart, (ih (by omega)).1 hmore, rfl⟩
    . rintro ⟨more, hpart, hmore, rfl⟩
      exact ⟨more, hpart, (ih (by omega)).2 hmore, rfl⟩

theorem emitAll_append_eq_ok_iff (hlength : cs.length = counts - index) :
    emitAll name counts index (cs ++ bs) = .ok parts ↔
      (∀ e ∈ cs, isInteger e.value) ∧ ∃ bodies, List.Forall₂ Emits bs bodies ∧ parts = cs.map value ++ bodies := by
  induction cs generalizing index parts with
  | nil =>
    rw [List.length_nil] at hlength
    rw [List.nil_append, emitAll_eq_ok_iff_of_le (by omega)]
    simp
  | cons e rest ih =>
    rw [List.length_cons] at hlength
    have hindex : index < counts := by omega
    have hnext : rest.length = counts - (index + 1) := by omega
    rw [List.cons_append, emitAll_cons_eq_ok_iff, List.forall_mem_cons]
    simp only [operand_of_lt hindex, ih hnext]
    constructor
    . rintro ⟨part, more, ⟨hinteger, rfl⟩, ⟨hrest, bodies, hbodies, rfl⟩, rfl⟩
      exact ⟨⟨hinteger, hrest⟩, bodies, hbodies, rfl⟩
    . rintro ⟨⟨hinteger, hrest⟩, bodies, hbodies, rfl⟩
      exact ⟨e.value, _, ⟨hinteger, rfl⟩, ⟨hrest, bodies, hbodies, rfl⟩, rfl⟩

theorem counts_le_of_accepts {c : Command} {n : Nat} (h : c.arity.accepts n) : c.counts ≤ n := by
  cases c with
  | reference => exact (accepts_exactly.1 h).ge
  | times | minTimes => exact Nat.le_of_succ_le (accepts_atLeast.1 h)
  | minMaxTimes => exact Nat.le_of_succ_le (accepts_atLeast.1 h)
  | _ => exact Nat.zero_le n

end Operands

section Encasing

theorem isAscii_of_isInteger {v : Bytes} (h : isInteger v) : IsAscii v := by
  intro b hb
  have hdigit := ((isInteger_iff v).1 h).2 b hb
  omega

theorem IsAscii.append {v w : Bytes} (hv : IsAscii v) (hw : IsAscii w) : IsAscii (v ++ w) :=
  List.forall_mem_append.2 ⟨hv, hw⟩

/-- The command puts what comes after the counts between two texts, and a third text between neighbours. -/
structure Encases (c : Command) (v : Bytes) (counts : List Bytes) (before sep after : Bytes) : Prop where
  before_ascii : IsAscii before
  sep_ascii : IsAscii sep
  after_ascii : IsAscii after
  closed : c = .group → before ≠ [] ∧ after ≠ []
  render_eq : ∀ parts : List Bytes, c.arity.accepts (counts.length + parts.length : Nat) →
    c.render v (counts ++ parts) = some (before ++ Bytes.join sep parts ++ after)

theorem join_nil (parts : List Bytes) : Bytes.join [] parts = parts.flatten := by
  induction parts with
  | nil => rfl
  | cons p rest ih =>
    cases rest with
    | nil => simp [Bytes.join]
    | cons q rest =>
      rw [Bytes.join_cons_cons, ih, List.nil_append]
      rfl

theorem encases_wrap {c : Command} (v : Bytes) {counts : List Bytes} (before after : String) {text : Bytes}
    (hbefore : IsAscii (Bytes.ofString before)) (hafter : IsAscii (Bytes.ofString after)) (htext : IsAscii text)
    (hclosed : c = .group → Bytes.ofString before ≠ [] ∧ Bytes.ofString after ≠ [])
    (hrender : ∀ parts, c.render v (counts ++ parts) = some (Command.wrap before after parts ++ text)) :
    Encases c v counts (Bytes.ofString before) [] (Bytes.ofString after ++ text) where
  before_ascii := hbefore
  sep_ascii := by simp [IsAscii]
  after_ascii := hafter.append htext
  closed hc := ⟨(hclosed hc).1, by simp [(hclosed hc).2]⟩
  render_eq parts _ := by rw [hrender, join_nil, Command.wrap, List.append_assoc]

theorem exists_encases {c : Command} {v : Bytes} {counts : List Bytes} (hv : v ∈ c.names)
    (hlength : counts.length = c.counts) (hcounts : ∀ n ∈ counts, isInteger n) (hrange : c ≠ .range)
    (hreference : c ≠ .reference) : ∃ before sep after, Encases c v counts before sep after := by
  have hempty : IsAscii [] := by decide
  cases c with
  | range => contradiction
  | reference => contradiction
  | control =>
    obtain rfl := List.length_eq_zero_iff.1 hlength
    have hascii : ∀ w ∈ Command.control.names, IsAscii w := by decide +kernel
    refine ⟨v, [], [], hascii v hv, hempty, hempty, by simp, ?_⟩
    intro parts harity
    have hparts : parts = [] := by simpa using accepts_exactly.1 harity
    rw [hparts, List.append_nil, Bytes.join, List.append_nil, List.append_nil, Command.render]
  | anyCharacter | start | finish | concatenation | except | group | oneOrMore | optional | zeroOrMore =>
    obtain rfl := List.length_eq_zero_iff.1 hlength
    refine ⟨_, _, _, encases_wrap v _ _ ?_ ?_ hempty ?_ fun parts => congrArg some (List.append_nil _).symm⟩
    all_goals decide +kernel
  | alternation =>
    obtain rfl := List.length_eq_zero_iff.1 hlength
    refine ⟨Bytes.ofString "(?:", Bytes.ofString "|", Bytes.ofString ")", by decide +kernel, by decide +kernel,
      by decide +kernel, by simp, ?_⟩
    intro parts _
    rw [List.nil_append, Command.render, Command.wrap, List.flatten_singleton]
  | times | minTimes =>
    obtain ⟨n, rfl⟩ := List.length_eq_one_iff.1 hlength
    have hn := isAscii_of_isInteger (hcounts n List.mem_cons_self)
    refine ⟨_, _, _, encases_wrap v "(?:" ")\x7b" (by decide +kernel) (by decide +kernel)
      (hn.append (by decide +kernel)) (by simp) fun parts => congrArg some (List.append_assoc _ _ _)⟩
  | minMaxTimes =>
    obtain ⟨n, rest, rfl⟩ := List.exists_cons_of_length_eq_add_one hlength
    obtain ⟨m, rfl⟩ := List.length_eq_one_iff.1 (Nat.succ.inj hlength)
    have hn := isAscii_of_isInteger (hcounts n (by simp))
    have hm := isAscii_of_isInteger (hcounts m (by simp))
    have htext : IsAscii (n ++ Bytes.ofString "," ++ m ++ Bytes.ofString "\x7d") :=
      ((hn.append (by decide +kernel)).append hm).append (by decide +kernel)
    refine ⟨_, _, _, encases_wrap v "(?:" ")\x7b" (by decide +kernel) (by decide +kernel) htext (by simp) ?_⟩
    intro parts
    rw [← List.append_assoc, ← List.append_assoc, ← List.append_assoc]
    rfl

end Encasing

section Mended

/-- A tree of the same shape with literals that are valid text, in which the groups have the same patterns. -/
structure Mended (e e' : Element) : Prop where
  blank_eq : e'.blank = e.blank
  normalize_eq : normalize e' = e'
  isBuilt : isBuilt Utf8.isValid e'
  groups : (groupCommands e').map emit = (groupCommands e).map emit

theorem bareCommand?_eq_of_blank_eq {e e' : Element} (h : e'.blank = e.blank) :
    e'.bareCommand? = e.bareCommand? := by
  rw [← relabels_blank.bareCommand?_eq, h, relabels_blank.bareCommand?_eq]

theorem blankAll_eq_of_forall₂ {es es' : List Element} (h : List.Forall₂ Mended es es') :
    blankAll es' = blankAll es := by
  induction h with
  | nil => rfl
  | cons h _ ih => rw [blankAll, blankAll, h.blank_eq, ih]

theorem blankAll_append_of_forall₂ (cs : List Element) {bs bs' : List Element} (h : List.Forall₂ Mended bs bs') :
    blankAll (cs ++ bs') = blankAll (cs ++ bs) := by
  have hoperands := blankAll_eq_of_forall₂ h
  rw [blankAll_eq_map, blankAll_eq_map] at hoperands ⊢
  rw [List.map_append, List.map_append, hoperands]

theorem forall_of_forall₂ {es es' : List Element} (h : List.Forall₂ Mended es es') :
    ∀ e ∈ es', normalize e = e ∧ isBuilt Utf8.isValid e := by
  induction h with
  | nil => simp
  | cons h _ ih => exact List.forall_mem_cons.2 ⟨⟨h.normalize_eq, h.isBuilt⟩, ih⟩

theorem folded_of_blankAll_eq {es es' : List Element} (h : blankAll es' = blankAll es) (hes : Folded es) :
    Folded es' := by
  rw [blankAll_eq_map, blankAll_eq_map] at h
  intro e' he'
  have hmem := List.mem_map_of_mem (f := blank) he'
  rw [List.map_dropLast, h, ← List.map_dropLast] at hmem
  obtain ⟨e, he, hblank⟩ := List.mem_map.1 hmem
  rw [bareCommand?_eq_of_blank_eq hblank.symm]
  exact hes e he

theorem groups_of_forall₂ {es es' : List Element} (h : List.Forall₂ Mended es es') :
    (es'.flatMap groupCommands).map emit = (es.flatMap groupCommands).map emit := by
  induction h with
  | nil => rfl
  | cons h _ ih => rw [List.flatMap_cons, List.flatMap_cons, List.map_append, List.map_append, h.groups, ih]

theorem normalizeAll_eq_self {es : List Element} (h : ∀ e ∈ es, normalize e = e) : normalizeAll es = es := by
  rw [normalizeAll_eq_map, List.map_congr_left h, List.map_id']

theorem areBuilt_append_iff {ok : Bytes → Bool} {cs bs : List Element} :
    areBuilt ok cs.length (cs ++ bs) ↔ (∀ e ∈ cs, isCount e) ∧ ∀ e ∈ bs, isBuilt ok e := by
  induction cs with
  | nil => simp [areBuilt_zero]
  | cons e rest ih =>
    rw [List.length_cons, List.cons_append, areBuilt, Bool.and_eq_true, ih, List.forall_mem_cons, and_assoc]

theorem mended_literal (v : Bytes) {v' : Bytes} (h : Utf8.isValid v') : Mended (literal v) (literal v') where
  blank_eq := by rw [literal, literal, blank_literal, blank_literal]
  normalize_eq := normalize_literal v' []
  isBuilt := by
    rw [literal, Pattern.isBuilt, if_pos rfl, h]
    rfl
  groups := by rw [literal, literal, groupCommands_literal, groupCommands_literal]

variable {v : Bytes} {c : Command} {cs bs bs' : List Element}

theorem mended_node (hc : Command.ofName? v = some c) (hlength : cs.length = c.counts)
    (hcounts : ∀ e ∈ cs, isCount e) (hbs : List.Forall₂ Mended bs bs') (hfolded : Folded (cs ++ bs))
    (hfit : operandsFit c (cs ++ bs'))
    (hgroup : c = .group → emit (.node .command v (cs ++ bs')) = emit (.node .command v (cs ++ bs))) :
    Mended (.node .command v (cs ++ bs)) (.node .command v (cs ++ bs')) := by
  have hblank := blankAll_append_of_forall₂ cs hbs
  have hmended := forall_of_forall₂ hbs
  refine ⟨?_, ?_, ?_, ?_⟩
  . rw [blank_of_ne_literal (by decide), blank_of_ne_literal (by decide), hblank]
  . rw [normalize_of_ne_literal (by decide), fold_eq_self (folded_of_blankAll_eq hblank hfolded), normalizeAll_eq_self]
    intro e he
    obtain he | he := List.mem_append.1 he
    . exact normalize_count (hcounts e he)
    . exact (hmended e he).1
  . rw [isBuilt_iff_of_ofName? (by decide) hc]
    refine ⟨rfl, hfit, ?_⟩
    rw [← hlength, areBuilt_append_iff]
    exact ⟨hcounts, fun e he => (hmended e he).2⟩
  . rw [groupCommands_node, groupCommands_node, command?_node, command?_node, hc, List.flatMap_append,
      List.flatMap_append]
    simp only [List.map_append, groups_of_forall₂ hbs]
    -- only a group has a pattern of its own among the groups, and that one is kept
    congr 1
    split
    . next h => rw [List.map_singleton, List.map_singleton, hgroup (Option.some.inj h)]
    . rfl

theorem Encases.emits {before sep after : Bytes} {bodies : List Bytes}
    (h : Encases c v (cs.map value) before sep after) (hc : Command.ofName? v = some c) (hlength : cs.length = c.counts)
    (hcounts : ∀ e ∈ cs, isCount e) (harity : c.arity.accepts (cs.length + bs.length : Nat))
    (hfolded : Folded (cs ++ bs)) (hbodies : List.Forall₂ Emits bs bodies) :
    Emits (.node .command v (cs ++ bs)) (before ++ Bytes.join sep bodies ++ after) := by
  have hinteger : ∀ e ∈ cs, isInteger e.value := by
    intro e he
    have hcount := hcounts e he
    rw [isCount, Bool.and_eq_true, Bool.and_eq_true] at hcount
    exact hcount.1.2
  have hparts : emitAll v c.counts 0 (cs ++ bs) = .ok (cs.map value ++ bodies) :=
    (emitAll_append_eq_ok_iff (by rw [hlength, Nat.sub_zero])).2 ⟨hinteger, bodies, hbodies, rfl⟩
  unfold Emits
  rw [emit_of_ne_literal (by decide), fold_eq_self hfolded]
  apply assemble_eq hc _ hparts
  . apply h.render_eq
    rwa [List.length_map, ← hbodies.length_eq]
  . rwa [List.length_append]

/-- The element has the same pattern in normal form, and after pending bytes, before what completes the text, a
mended form of it has the pattern up to what is pending then. -/
def Mendable (e : Element) : Prop :=
  isBuilt (fun _ => true) (normalize e) → ∀ c p k, emit e = .ok p → Pending c (p ++ k) →
    Emits (normalize e) p ∧
      ∃ e' p' c', Mended (normalize e) e' ∧ Emits e' p' ∧ c ++ p = p' ++ c' ∧ Pending c' k

theorem mendable_literal (v : Bytes) (args : List Element) : Mendable (.node .literal v args) := by
  intro _ c p k hemit hpending
  rw [emit_literal, Except.ok.injEq] at hemit
  subst hemit
  obtain ⟨ds, c', -, htext, hnext⟩ := hpending.literal
  rw [normalize_literal]
  exact ⟨emit_literal v [], literal (Bytes.ofChars ds), _, c', mended_literal v (Utf8.isValid_ofChars ds),
    emit_literal _ [], htext, hnext⟩

theorem mendable_operands {sep : Bytes} (hsep : IsAscii sep) {es : List Element} {ps : List Bytes}
    (hes : ∀ e ∈ es, Mendable e) (hbuilt : ∀ e ∈ es, isBuilt (fun _ => true) (normalize e))
    (hps : List.Forall₂ Emits es ps) {c k : Bytes} (hpending : Pending c (Bytes.join sep ps ++ k)) :
    List.Forall₂ Emits (normalizeAll es) ps ∧
      ∃ es' ps' c', List.Forall₂ Mended (normalizeAll es) es' ∧ List.Forall₂ Emits es' ps' ∧
        c ++ Bytes.join sep ps = Bytes.join sep ps' ++ c' ∧ Pending c' k := by
  induction hps generalizing c with
  | nil =>
    rw [normalizeAll]
    exact ⟨.nil, [], [], c, .nil, .nil, List.append_nil c, hpending⟩
  | @cons e p rest more hemit hmore ih =>
    rw [List.forall_mem_cons] at hes hbuilt
    rw [normalizeAll]
    cases hmore with
    | nil =>
      obtain ⟨hnormal, e', p', c', hmended, hemit', htext, hnext⟩ := hes.1 hbuilt.1 c p k hemit hpending
      rw [normalizeAll]
      exact ⟨.cons hnormal .nil, [e'], [p'], c', .cons hmended .nil, .cons hemit' .nil, htext, hnext⟩
    -- what the first operand leaves over goes to the next one, past the text between them
    | @cons f q rest more hq hmore =>
      rw [Bytes.join_cons_cons, List.append_assoc, List.append_assoc] at hpending
      obtain ⟨hnormal, e', p', c₁, hmended, hemit', htext, hnext⟩ := hes.1 hbuilt.1 c p _ hemit hpending
      obtain ⟨hnext, hswap⟩ := hnext.of_ascii_append hsep
      obtain ⟨hnormals, es', ps', c', hmendeds, hemits, htexts, hlast⟩ := ih hes.2 hbuilt.2 hnext
      refine ⟨.cons hnormal hnormals, e' :: es', p' :: ps', c', .cons hmended hmendeds, .cons hemit' hemits, ?_, hlast⟩
      obtain ⟨q', more', rfl⟩ : ∃ q' more', ps' = q' :: more' := by
        rw [normalizeAll] at hmendeds
        cases hmendeds with
        | cons _ _ =>
          cases hemits with
          | cons _ _ => exact ⟨_, _, rfl⟩
      rw [Bytes.join_cons_cons, Bytes.join_cons_cons, ← List.append_assoc, htext, List.append_assoc,
        ← List.append_assoc c₁, hswap, List.append_assoc sep, htexts]
      simp only [List.append_assoc]

end Mended

section Classes

variable {v : Bytes} {c : Command} {vs vs' : List Bytes}

theorem folded_map_literal (vs : List Bytes) : Folded (vs.map literal) := by
  intro e he
  obtain ⟨w, -, rfl⟩ := List.mem_map.1 (List.mem_of_mem_dropLast he)
  rfl

theorem forall₂_emits_literal (vs : List Bytes) : List.Forall₂ Emits (vs.map literal) (vs.map escape) := by
  rw [List.forall₂_map_left_iff, List.forall₂_map_right_iff, List.forall₂_same]
  intro w _
  exact emit_literal w []

theorem normalizeAll_of_isLiteral {es : List Element} (h : ∀ e ∈ normalizeAll es, e.isLiteral) :
    normalizeAll es = (es.map value).map literal ∧ List.Forall₂ Emits es ((es.map value).map escape) := by
  induction es with
  | nil =>
    rw [normalizeAll]
    exact ⟨rfl, .nil⟩
  | cons e rest ih =>
    rw [normalizeAll, List.forall_mem_cons] at h
    obtain ⟨hnormal, hemits⟩ := ih h.2
    obtain ⟨k, w, args⟩ := e
    by_cases hk : k = .literal
    . subst hk
      rw [normalizeAll, normalize_literal, hnormal]
      exact ⟨rfl, .cons (emit_literal w args) hemits⟩
    . have hfirst := h.1
      rw [normalize_of_ne_literal hk, isLiteral, kind, beq_iff_eq] at hfirst
      contradiction

theorem exists_texts {p : Bytes} {es : List Element} (hc : Command.ofName? v = some c) (hcounts : c.counts = 0)
    (hliteral : ∀ e ∈ normalizeAll es, e.isLiteral) (hemit : assemble v es = .ok p) :
    ∃ vs : List Bytes, normalizeAll es = vs.map literal ∧ c.arity.accepts vs.length ∧
      c.render v (vs.map escape) = some p := by
  obtain ⟨harity, parts, hparts, hrender⟩ := (assemble_eq_ok_iff hc).1 hemit
  obtain ⟨hnormal, hemits⟩ := normalizeAll_of_isLiteral hliteral
  have hescaped : emitAll v c.counts 0 es = .ok ((es.map value).map escape) :=
    (emitAll_eq_ok_iff_of_le (Nat.le_of_eq hcounts)).2 hemits
  rw [hparts, Except.ok.injEq] at hescaped
  refine ⟨es.map value, hnormal, ?_, ?_⟩
  . rwa [List.length_map]
  . rwa [← hescaped]

theorem emits_class {p : Bytes} (hc : Command.ofName? v = some c) (hcounts : c.counts = 0)
    (harity : c.arity.accepts vs.length) (hrender : c.render v (vs.map escape) = some p) :
    Emits (.node .command v (vs.map literal)) p := by
  unfold Emits
  rw [emit_of_ne_literal (by decide), fold_eq_self (folded_map_literal vs)]
  apply assemble_eq hc _ _ hrender
  . rwa [List.length_map]
  . exact (emitAll_eq_ok_iff_of_le (Nat.le_of_eq hcounts)).2 (forall₂_emits_literal vs)

theorem mended_class (hc : Command.ofName? v = some c) (hcounts : c.counts = 0) (hgroup : c ≠ .group)
    (hvalid : List.Forall₂ (fun _ w => Utf8.isValid w) vs vs') (hfit : operandsFit c (vs'.map literal)) :
    Mended (.node .command v (vs.map literal)) (.node .command v (vs'.map literal)) := by
  apply mended_node hc (List.length_nil.trans hcounts.symm) (by simp) _ (folded_map_literal vs) hfit
  . intro h
    exact absurd h hgroup
  . rw [List.forall₂_map_left_iff, List.forall₂_map_right_iff]
    exact hvalid.imp fun w w' hw => mended_literal w hw

theorem mendable_range (hc : Command.ofName? v = some .range) (args : List Element) :
    Mendable (.node .command v args) := by
  intro hbuilt b p k hemit hpending
  rw [normalize_of_ne_literal (by decide)] at hbuilt ⊢
  rw [emit_of_ne_literal (by decide)] at hemit
  obtain ⟨-, hfit, -⟩ := (isBuilt_iff_of_ofName? (by decide) hc).1 hbuilt
  obtain ⟨vs, hvs, harity, hrender⟩ := exists_texts hc rfl (isLiteral_of_range hfit) hemit
  rw [hvs] at hfit ⊢
  have hemits := emits_class hc rfl harity hrender
  obtain ⟨lo, rest, rfl⟩ := List.exists_cons_of_length_eq_add_one (accepts_exactly.1 harity)
  obtain ⟨hi, rfl⟩ := List.length_eq_one_iff.1 (Nat.succ.inj (accepts_exactly.1 harity))
  have hp : p = Bytes.ofString "[" ++ (escape lo ++ (Bytes.ofString "-" ++ (escape hi ++ Bytes.ofString "]"))) := by
    rw [List.map_cons, List.map_singleton, Command.render, Option.some.injEq] at hrender
    rw [← hrender]
    simp only [List.append_assoc]
  have htext := hpending
  rw [hp] at htext
  simp only [List.append_assoc] at htext
  -- nothing can be left over from before the bracket, and each character ends before the byte that follows it
  obtain rfl := htext.eq_nil_of_ascii_append (by decide +kernel) (by decide +kernel)
  obtain ⟨htext, -⟩ := htext.of_ascii_append (by decide +kernel)
  obtain ⟨hlo, htext⟩ := htext.isValid_of_literal (by decide +kernel) (by decide +kernel)
  obtain ⟨hhi, htext⟩ := htext.isValid_of_literal (by decide +kernel) (by decide +kernel)
  exact ⟨hemits, _, p, [], mended_class hc rfl (by decide) (.cons hlo (.cons hhi .nil)) hfit, hemits,
    (List.append_nil p).symm, htext⟩

theorem flatten_map_escape (vs : List Bytes) : (vs.map escape).flatten = escape vs.flatten := by
  induction vs with
  | nil => exact escape_nil.symm
  | cons v vs ih => rw [List.map_cons, List.flatten_cons, ih, ← escape_append, List.flatten_cons]

def gathered : List Bytes → List Bytes
  | [] => []
  | v :: rest => (v :: rest).flatten :: rest.map fun _ => []

theorem flatten_gathered (vs : List Bytes) : (gathered vs).flatten = vs.flatten := by
  cases vs with
  | nil => rfl
  | cons v rest =>
    have hrest : (rest.map fun _ => ([] : Bytes)).flatten = [] := by simp
    rw [gathered, List.flatten_cons, hrest, List.append_nil]

theorem forall₂_gathered (h : Utf8.isValid vs.flatten) :
    List.Forall₂ (fun _ w => Utf8.isValid w) vs (gathered vs) := by
  cases vs with
  | nil => exact .nil
  | cons v rest =>
    refine .cons h ?_
    rw [List.forall₂_map_right_iff, List.forall₂_same]
    intro _ _
    decide +kernel

theorem operandsFit_except_iff (vs : List Bytes) : operandsFit .except (vs.map literal) ↔ vs.flatten ≠ [] := by
  rw [operandsFit, List.all_map, List.any_map, Bool.and_eq_true, List.any_eq_true, Ne, List.flatten_eq_nil_iff]
  simp [literal, value, isLiteral, kind]

theorem mendable_except (hc : Command.ofName? v = some .except) (args : List Element) :
    Mendable (.node .command v args) := by
  intro hbuilt b p k hemit hpending
  rw [normalize_of_ne_literal (by decide)] at hbuilt ⊢
  rw [emit_of_ne_literal (by decide)] at hemit
  obtain ⟨-, hfit, -⟩ := (isBuilt_iff_of_ofName? (by decide) hc).1 hbuilt
  have hliteral : ∀ e ∈ normalizeAll (fold args), e.isLiteral := by
    rw [operandsFit, Bool.and_eq_true, List.all_eq_true] at hfit
    exact hfit.1
  obtain ⟨vs, hvs, harity, hrender⟩ := exists_texts hc rfl hliteral hemit
  rw [hvs, operandsFit_except_iff] at hfit
  rw [hvs]
  have hemits := emits_class hc rfl harity hrender
  rw [Command.render, Command.wrap, flatten_map_escape, Option.some.injEq, List.append_assoc] at hrender
  have htext := hpending
  rw [← hrender] at htext
  simp only [List.append_assoc] at htext
  obtain rfl := htext.eq_nil_of_ascii_append (by decide +kernel) (by decide +kernel)
  obtain ⟨htext, -⟩ := htext.of_ascii_append (by decide +kernel)
  obtain ⟨hvalid, htext⟩ := htext.isValid_of_literal (by decide +kernel) (by decide +kernel)
  have hgathered := forall₂_gathered hvalid
  refine ⟨hemits, _, p, [], mended_class hc rfl (by decide) hgathered ?_, emits_class hc rfl ?_ ?_,
    (List.append_nil p).symm, htext⟩
  . rwa [operandsFit_except_iff, flatten_gathered]
  . rwa [← hgathered.length_eq]
  . rw [Command.render, Command.wrap, flatten_map_escape, flatten_gathered, List.append_assoc, hrender]

end Classes

section Trees

theorem normalizeAll_append (cs bs : List Element) :
    normalizeAll (cs ++ bs) = normalizeAll cs ++ normalizeAll bs := by
  rw [normalizeAll_eq_map, normalizeAll_eq_map, normalizeAll_eq_map, List.map_append]

theorem map_value_normalizeAll (es : List Element) : (normalizeAll es).map value = es.map value := by
  rw [normalizeAll_eq_map, List.map_map]
  apply List.map_congr_left
  intro e _
  exact value_normalize e

theorem exists_operands {ok : Bytes → Bool} {v p : Bytes} {c : Command} {es : List Element}
    (hc : Command.ofName? v = some c) (hrange : c ≠ .range)
    (hbuilt : isBuilt ok (.node .command v (normalizeAll es))) (hemit : assemble v es = .ok p) :
    ∃ cs bs before sep after bodies, es = cs ++ bs ∧ (normalizeAll cs).length = c.counts ∧
      (∀ e ∈ normalizeAll cs, isCount e) ∧ (∀ e ∈ bs, isBuilt ok (normalize e)) ∧
      c.arity.accepts ((normalizeAll cs).length + bs.length : Nat) ∧ c ≠ .reference ∧
      Encases c v ((normalizeAll cs).map value) before sep after ∧ List.Forall₂ Emits bs bodies ∧
      p = before ++ (Bytes.join sep bodies ++ after) := by
  obtain ⟨harity, parts, hparts, hrender⟩ := (assemble_eq_ok_iff hc).1 hemit
  obtain ⟨-, hfit, hbuilt⟩ := (isBuilt_iff_of_ofName? (by decide) hc).1 hbuilt
  have hreference : c ≠ .reference := by
    rintro rfl
    contradiction
  -- the counts come first, and the other operands are those whose patterns are put together
  obtain ⟨cs, bs, rfl, hcs⟩ : ∃ cs bs, es = cs ++ bs ∧ cs.length = c.counts :=
    ⟨es.take c.counts, es.drop c.counts, (List.take_append_drop _ _).symm,
      List.length_take_of_le (counts_le_of_accepts harity)⟩
  obtain ⟨hinteger, bodies, hbodies, rfl⟩ := (emitAll_append_eq_ok_iff (by rw [hcs, Nat.sub_zero])).1 hparts
  obtain ⟨before, sep, after, hencases⟩ : ∃ before sep after, Encases c v (cs.map value) before sep after :=
    exists_encases (mem_names_of_ofName? hc) (by rw [List.length_map, hcs]) (List.forall_mem_map.2 hinteger) hrange
      hreference
  rw [List.length_append] at harity
  have hrendered := hencases.render_eq bodies (by rwa [List.length_map, ← hbodies.length_eq])
  rw [hrender, Option.some.injEq, List.append_assoc] at hrendered
  have hlength : (normalizeAll cs).length = c.counts := by rw [length_normalizeAll, hcs]
  rw [normalizeAll_append, ← hlength, areBuilt_append_iff] at hbuilt
  refine ⟨cs, bs, before, sep, after, bodies, rfl, hlength, hbuilt.1, ?_, ?_, hreference, ?_, hbodies, hrendered⟩
  . intro e he
    apply hbuilt.2
    rw [normalizeAll_eq_map]
    exact List.mem_map_of_mem he
  . rwa [length_normalizeAll]
  . rwa [map_value_normalizeAll]

theorem mendable_node {v : Bytes} {args : List Element} {c : Command} (hc : Command.ofName? v = some c)
    (hrange : c ≠ .range) (hexcept : c ≠ .except) (hes : ∀ e ∈ fold args, Mendable e) :
    Mendable (.node .command v args) := by
  intro hbuilt b p k hemit hpending
  rw [normalize_of_ne_literal (by decide)] at hbuilt ⊢
  rw [emit_of_ne_literal (by decide)] at hemit
  have hfolded : Folded (normalizeAll (fold args)) := (folded_fold args).normalizeAll
  generalize fold args = es at *
  obtain ⟨cs, bs, before, sep, after, bodies, rfl, hlength, hcounts, hbuilt, harity, hreference, hencases, hbodies,
    rfl⟩ := exists_operands hc hrange hbuilt hemit
  rw [List.forall_mem_append] at hes
  rw [normalizeAll_append] at hfolded ⊢
  -- what comes before and after the operands completes no character
  rw [List.append_assoc, List.append_assoc] at hpending
  obtain ⟨hoperands, hbefore⟩ := hpending.of_ascii_append hencases.before_ascii
  obtain ⟨hnormal, bs', ps', b', hmended, hemits, htext, hrest⟩ :=
    mendable_operands hencases.sep_ascii hes.2 hbuilt hbodies hoperands
  obtain ⟨hlast, hafter⟩ := hrest.of_ascii_append hencases.after_ascii
  have htexts : b ++ (before ++ (Bytes.join sep bodies ++ after)) = before ++ Bytes.join sep ps' ++ after ++ b' := by
    calc
      _ = before ++ (b ++ Bytes.join sep bodies) ++ after := by
        rw [← List.append_assoc b, hbefore]
        simp only [List.append_assoc]
      _ = before ++ Bytes.join sep ps' ++ (b' ++ after) := by
        rw [htext]
        simp only [List.append_assoc]
      _ = _ := by rw [hafter, List.append_assoc _ after b']
  have hlengths : bs'.length = bs.length := by rw [← hmended.length_eq, length_normalizeAll]
  have hfirst := hencases.emits hc hlength hcounts (by rwa [length_normalizeAll bs]) hfolded hnormal
  have hsecond := hencases.emits hc hlength hcounts (by rwa [hlengths])
    (folded_of_blankAll_eq (blankAll_append_of_forall₂ _ hmended) hfolded) hemits
  rw [List.append_assoc] at hfirst
  refine ⟨hfirst, _, _, b', mended_node hc hlength hcounts hmended hfolded ?_ ?_, hsecond, htexts, hlast⟩
  . cases c with
    | range | except | reference => contradiction
    | _ => rfl
  . intro hgroup
    obtain ⟨hne, hne'⟩ := hencases.closed hgroup
    obtain rfl := hpending.eq_nil_of_ascii_append hencases.before_ascii hne
    obtain rfl := hrest.eq_nil_of_ascii_append hencases.after_ascii hne'
    rw [List.nil_append, List.append_nil] at htexts
    rw [hfirst, hsecond, htexts]

theorem mendable (e : Element) : Mendable e := by
  induction e using foldInduction with
  | literal v args => exact mendable_literal v args
  | operands k v args hk ih =>
    intro hbuilt
    have hnode := hbuilt
    rw [normalize_of_ne_literal hk, isBuilt_of_ne_literal hk] at hnode
    obtain ⟨rfl, c, hc, -⟩ := hnode
    apply (_ : Mendable (.node .command v args)) hbuilt
    by_cases hrange : c = .range
    . subst hrange
      apply mendable_range hc
    . by_cases hexcept : c = .except
      . subst hexcept
        apply mendable_except hc
      . apply mendable_node hc hrange hexcept ih

/-- A tree whose pattern is valid text has a mended form with the same pattern. -/
theorem exists_mended {e : Element} {p : Bytes} (hbuilt : isBuilt (fun _ => true) (normalize e))
    (hemit : emit e = .ok p) (hvalid : Utf8.isValid p) : ∃ e', Mended (normalize e) e' ∧ Emits e' p := by
  obtain ⟨-, e', p', c', hmended, hemits, htext, hpending⟩ :=
    mendable e hbuilt [] p [] hemit (.of_isValid (by rwa [List.append_nil]))
  have hnil : c' = [] := by
    by_cases hc : c' = []
    . exact hc
    . obtain ⟨b, hb, -⟩ := hpending.next hc
      simp at hb
  rw [hnil, List.nil_append, List.append_nil] at htext
  exact ⟨e', hmended, by rwa [htext]⟩

end Trees

end VerboseExpr.Pattern
