import VerboseExpr.Proofs.Pattern.Denotation
import VerboseExpr.Proofs.Pattern.Normal
import VerboseExpr.Proofs.Pattern.Operands
import VerboseExpr.Proofs.Regex.Reading

/-!
The pattern of a plain tree is read back as what the normal form of the tree denotes. The proof follows the
operands of the commands: what is needed of an operand is only how its pattern extends the one around it.
-/

namespace VerboseExpr.Pattern

open Regex Regex.Automaton Element

section ReadsAs

/-- After `n` groups the characters are read as the regular expression, which has groups up to `m`. -/
def ReadsAs (n m : Nat) (cs : List Char) (r : Regex) : Prop := Extends n m (countsFit r) cs (members r)

def ReadsAllAs (n m : Nat) (css : List (List Char)) (rs : List Regex) : Prop :=
  ExtendsAll n m (rs.all countsFit) css (rs.map members)

variable {n m : Nat} {css : List (List Char)} {rs : List Regex}

theorem ReadsAllAs.concat (h : ReadsAllAs n m css rs) : ReadsAs n m css.flatten (.concat rs) := by
  rw [ReadsAs, countsFit_concat, members_concat, List.flatMap_def]
  exact h.flatten

theorem ReadsAllAs.group (h : ReadsAllAs (n + 1) m css rs) :
    ReadsAs n m ('(' :: (css.flatten ++ [')'])) (.group (n + 1) (.concat rs)) :=
  Extends.captured h.concat

theorem ReadsAllAs.rep {q : Char} {more : List Char} {min : Nat} {max : Option Nat}
    (h : ReadsAllAs n m css rs) (hq : Quantifies q more min max) :
    ReadsAs n m ('(' :: '?' :: ':' :: (css.flatten ++ ')' :: q :: more)) (.rep min max true (.concat rs)) :=
  Extends.repeated h.concat hq

theorem ReadsAllAs.choice (h : ReadsAllAs n m css rs) (hne : rs ≠ []) :
    ReadsAs n m ('(' :: '?' :: ':' :: (bars css ++ [')'])) (.choice rs) := by
  have hlength := ExtendsAll.length_eq h
  have hcss : css ≠ [] := by
    intro hnil
    rw [hnil, List.length_nil, List.length_map] at hlength
    exact hne (List.length_eq_zero_iff.1 hlength.symm)
  rw [ReadsAs, countsFit_choice]
  exact ExtendsAll.chosen h hcss rfl

end ReadsAs

section Text

theorem flatten_map_ofChars (css : List (List Char)) :
    (css.map Bytes.ofChars).flatten = Bytes.ofChars css.flatten := by
  induction css with
  | nil => rfl
  | cons cs css ih => rw [List.map_cons, List.flatten_cons, List.flatten_cons, ih, Bytes.ofChars_append]

theorem wrap_ofChars (before after : String) (css : List (List Char)) :
    Command.wrap before after (css.map Bytes.ofChars) =
      Bytes.ofChars (before.toList ++ css.flatten ++ after.toList) := by
  rw [Command.wrap, flatten_map_ofChars, Bytes.ofChars_append, Bytes.ofChars_append]
  rfl

theorem join_ofChars (css : List (List Char)) :
    Bytes.join (Bytes.ofString "|") (css.map Bytes.ofChars) = Bytes.ofChars (bars css) := by
  induction css with
  | nil => rfl
  | cons cs css ih =>
    cases css with
    | nil => rfl
    | cons ds dss =>
      have hbars : bars (cs :: ds :: dss) = cs ++ ['|'] ++ bars (ds :: dss) := by
        rw [List.append_assoc]
        rfl
      rw [hbars, Bytes.ofChars_append, Bytes.ofChars_append, ← ih]
      rfl

theorem wrap_count (css : List (List Char)) (more : List Char) :
    Command.wrap "(?:" ")\x7b" (css.map Bytes.ofChars) ++ Bytes.ofChars more =
      Bytes.ofChars ('(' :: '?' :: ':' :: (css.flatten ++ ')' :: '\x7b' :: more)) := by
  rw [wrap_ofChars, ← Bytes.ofChars_append, List.append_assoc, List.append_assoc]
  rfl

end Text

section Operands

/-- The pattern of an element is read as what its normal form denotes, if that is plain. -/
def Compiles (e : Element) : Prop :=
  isPlain (normalize e) → ∀ n, ∃ cs, emit e = .ok (Bytes.ofChars cs) ∧
    ReadsAs n (n + groupCount (normalize e)) cs (denote n (normalize e))

theorem isCount_eq {e : Element} (h : isCount e) :
    ∃ ds, e.value = Bytes.ofChars ds ∧ Digits ds ∧ number e = decimal ds := by
  rw [isCount, Bool.and_eq_true, Bool.and_eq_true, Bool.or_eq_true] at h
  obtain ⟨⟨-, hinteger⟩, hcanonical⟩ := h
  obtain ⟨ds, hvalue, hne, hdigits, hlength, hzero⟩ := exists_digits hinteger
  refine ⟨ds, hvalue, ⟨hne, List.all_eq_true.1 hdigits, ?_⟩, ?_⟩
  . intro hhead
    have := hzero hhead
    simpa [this, hlength] using hcanonical
  . rw [number, hvalue, Utf8.decode_ofChars]

theorem args_of_isCount {e : Element} (h : isCount e) : e.args = [] := by
  rw [isCount, Bool.and_eq_true, Bool.and_eq_true, List.isEmpty_iff] at h
  exact h.1.1

theorem normalize_count {e : Element} (h : isCount e) : normalize e = e := by
  obtain ⟨k, v, args⟩ := e
  obtain rfl : args = [] := args_of_isCount h
  by_cases hk : k = .literal
  . rw [hk, normalize_literal]
    rfl
  . rw [normalize_of_ne_literal hk, fold, normalizeAll]

theorem emitAll_eq {name : Bytes} {counts index skip : Nat} {es : List Element} (hskip : counts - index = skip)
    (hes : ∀ e ∈ es, Compiles e) (hplain : arePlain skip (normalizeAll es)) (n : Nat) :
    ∃ css, emitAll name counts index es = .ok ((es.take skip).map value ++ css.map Bytes.ofChars) ∧
      ReadsAllAs n (n + groupCountAll skip (normalizeAll es)) css (denoteAll skip n (normalizeAll es)) := by
  -- as many operands as there are counts left are written as they are, the others as patterns
  induction es generalizing index skip n with
  | nil =>
    rw [normalizeAll, emitAll, denoteAll, groupCountAll]
    exact ⟨[], by simp, ExtendsAll.nil n⟩
  | cons e rest ih =>
    have hrest : ∀ x ∈ rest, Compiles x := fun x hx => hes x (List.mem_cons_of_mem e hx)
    rw [normalizeAll] at hplain ⊢
    rw [emitAll]
    cases skip with
    | zero =>
      have hindex : ¬index < counts := by omega
      rw [arePlain, Bool.and_eq_true] at hplain
      obtain ⟨cs, hemit, hread⟩ := hes e List.mem_cons_self hplain.1 n
      have hnext : counts - (index + 1) = 0 := by omega
      obtain ⟨css, hemits, hreads⟩ := ih hnext hrest hplain.2 (n + groupCount (normalize e))
      refine ⟨cs :: css, ?_, ?_⟩
      . rw [if_neg hindex, hemit, hemits]
        rfl
      . rw [denoteAll, groupCountAll, ← Nat.add_assoc]
        exact ExtendsAll.cons hread hreads
    | succ skip =>
      have hindex : index < counts := by omega
      rw [arePlain, Bool.and_eq_true, isCount, Bool.and_eq_true, Bool.and_eq_true, value_normalize] at hplain
      obtain ⟨⟨⟨-, hinteger⟩, -⟩, hplain⟩ := hplain
      have hnext : counts - (index + 1) = skip := by omega
      obtain ⟨css, hemits, hreads⟩ := ih hnext hrest hplain n
      refine ⟨css, ?_, ?_⟩
      . rw [if_pos hindex, count, if_pos hinteger, hemits]
        rfl
      . rw [denoteAll, groupCountAll]
        exact hreads

theorem length_denoteAll (counts n : Nat) (es : List Element) :
    (denoteAll counts n es).length = es.length - counts := by
  induction es generalizing counts n with
  | nil => simp [denoteAll]
  | cons e rest ih =>
    cases counts with
    | zero =>
      rw [denoteAll, List.length_cons, ih]
      rfl
    | succ counts => rw [denoteAll, ih, List.length_cons, Nat.add_sub_add_right]

theorem isCount_of_mem_take {counts : Nat} {es : List Element} (h : arePlain counts es) :
    ∀ e ∈ es.take counts, isCount e := by
  induction es generalizing counts with
  | nil => simp
  | cons e rest ih =>
    cases counts with
    | zero => simp
    | succ counts =>
      rw [arePlain, Bool.and_eq_true] at h
      intro x hx
      rw [List.take_succ_cons] at hx
      cases List.mem_cons.1 hx with
      | inl heq =>
        rw [heq]
        exact h.1
      | inr hmem => exact ih h.2 x hmem

end Operands

section Commands

theorem assemble_eq {v p : Bytes} {c : Command} {es : List Element} {parts : List Bytes}
    (hc : Command.ofName? v = some c) (harity : c.arity.accepts es.length)
    (hparts : emitAll v c.counts 0 es = .ok parts) (hrender : c.render v parts = some p) :
    assemble v es = .ok p :=
  (assemble_eq_ok_iff hc).2 ⟨harity, parts, hparts, hrender⟩

theorem exists_count {counts : Nat} {es : List Element} (hlength : 0 < es.length)
    (h : ∀ e ∈ (normalizeAll es).take (counts + 1), isCount e) :
    ∃ e rest ds, es = e :: rest ∧ e.value = Bytes.ofChars ds ∧ Digits ds ∧
      number (normalize e) = decimal ds ∧ ∀ x ∈ (normalizeAll rest).take counts, isCount x := by
  obtain ⟨e, rest, rfl⟩ := List.exists_cons_of_length_pos hlength
  rw [normalizeAll, List.take_succ_cons] at h
  obtain ⟨ds, hvalue, hdigits, hnumber⟩ := isCount_eq (h (normalize e) List.mem_cons_self)
  rw [value_normalize] at hvalue
  exact ⟨e, rest, ds, rfl, hvalue, hdigits, hnumber, fun x hx => h x (List.mem_cons_of_mem _ hx)⟩

variable {n m : Nat} {v : Bytes} {css : List (List Char)} {rs : List Regex}

theorem readsAs_atom {c : Char} {more : List Char} {r : Regex} (n : Nat) (hc : c ≠ '?')
    (hfits : countsFit r) (h : ∀ k, lexeme? c (more ++ k) = some (.atom r, more.length)) :
    ReadsAs n n (c :: more) r := by
  rw [ReadsAs, hfits]
  exact Extends.atom n hc h

theorem readsAs_control (n : Nat) (hv : v ∈ Command.control.names) :
    ∃ cs, v = Bytes.ofChars cs ∧ ReadsAs n n cs (.char (controlChar v)) := by
  simp only [Command.names, Command.name, Command.aliases, List.mem_cons, List.not_mem_nil, or_false] at hv
  obtain rfl | rfl | rfl := hv
  . exact ⟨['\\', 'n'], rfl, readsAs_atom n (by decide) rfl fun _ => rfl⟩
  . exact ⟨['\\', 'r'], rfl, readsAs_atom n (by decide) rfl fun _ => rfl⟩
  . exact ⟨['\\', 't'], rfl, readsAs_atom n (by decide) rfl fun _ => rfl⟩

theorem render_eq {c : Command} {es : List Element} (hname : v ∈ c.names)
    (harity : c.arity.accepts es.length) (hcounts : ∀ e ∈ (normalizeAll es).take c.counts, isCount e)
    (hlength : rs.length = es.length - c.counts) (hreads : ReadsAllAs (n + ownGroups c) m css rs)
    (hrange : c ≠ .range) (hexcept : c ≠ .except) (hreference : c ≠ .reference) :
    ∃ cs, c.render v ((es.take c.counts).map value ++ css.map Bytes.ofChars) = some (Bytes.ofChars cs) ∧
      ReadsAs n m cs (meaning c v (n + 1) (normalizeAll es) rs) := by
  -- a command that takes no operands has no groups besides its own
  have hleaf : c.arity = .exactly 0 → css = [] ∧ m = n + ownGroups c := by
    intro hzero
    rw [hzero] at harity
    rw [accepts_exactly.1 harity, Nat.zero_sub, List.length_eq_zero_iff] at hlength
    rw [hlength] at hreads
    exact ExtendsAll.of_nil hreads
  cases c with
  | range | except | reference => contradiction
  | control =>
    obtain ⟨rfl, rfl⟩ := hleaf rfl
    obtain ⟨cs, hcs, hread⟩ := readsAs_control _ hname
    exact ⟨cs, congrArg some hcs, hread⟩
  | anyCharacter =>
    obtain ⟨rfl, rfl⟩ := hleaf rfl
    exact ⟨['.'], rfl, readsAs_atom _ (by decide) rfl fun _ => rfl⟩
  | start =>
    obtain ⟨rfl, rfl⟩ := hleaf rfl
    exact ⟨['^'], rfl, readsAs_atom _ (by decide) rfl fun _ => rfl⟩
  | finish =>
    obtain ⟨rfl, rfl⟩ := hleaf rfl
    exact ⟨['$'], rfl, readsAs_atom _ (by decide) rfl fun _ => rfl⟩
  | group => exact ⟨_, congrArg some (wrap_ofChars "(" ")" css), hreads.group⟩
  | concatenation =>
    have hwrap := wrap_ofChars "" "" css
    rw [String.toList_empty, List.nil_append, List.append_nil] at hwrap
    exact ⟨css.flatten, congrArg some hwrap, hreads.concat⟩
  | oneOrMore =>
    refine ⟨_, congrArg some (wrap_ofChars "(?:" ")+" css), ?_⟩
    exact hreads.rep (quantifies_sign (fun _ => rfl) rfl)
  | optional =>
    refine ⟨_, congrArg some (wrap_ofChars "(?:" ")?" css), ?_⟩
    exact hreads.rep (quantifies_sign (fun _ => rfl) rfl)
  | zeroOrMore =>
    refine ⟨_, congrArg some (wrap_ofChars "(?:" ")*" css), ?_⟩
    exact hreads.rep (quantifies_sign (fun _ => rfl) rfl)
  | alternation =>
    have hne : rs ≠ [] := by
      intro hnil
      have hone := accepts_atLeast.1 harity
      have hcounts : Command.alternation.counts = 0 := rfl
      rw [hnil, List.length_nil, hcounts] at hlength
      omega
    have hwrap := wrap_ofChars "(?:" ")" [bars css]
    rw [List.map_singleton, ← join_ofChars, List.flatten_singleton] at hwrap
    exact ⟨_, congrArg some hwrap, hreads.choice hne⟩
  | times =>
    obtain ⟨e, rest, ds, rfl, hvalue, hdigits, hnumber, -⟩ :=
      exists_count (Nat.lt_of_succ_lt (accepts_atLeast.1 harity)) hcounts
    have hread := hreads.rep hdigits.quantifies_exactly
    rw [← hnumber] at hread
    rw [normalizeAll]
    refine ⟨_, ?_, hread⟩
    rw [← wrap_count, Bytes.ofChars_append, ← hvalue, ← List.append_assoc]
    rfl
  | minTimes =>
    obtain ⟨e, rest, ds, rfl, hvalue, hdigits, hnumber, -⟩ :=
      exists_count (Nat.lt_of_succ_lt (accepts_atLeast.1 harity)) hcounts
    have hread := hreads.rep hdigits.quantifies_atLeast
    rw [← hnumber] at hread
    rw [normalizeAll]
    refine ⟨_, ?_, hread⟩
    rw [← wrap_count, Bytes.ofChars_append, ← hvalue, ← List.append_assoc]
    rfl
  | minMaxTimes =>
    have hthree := accepts_atLeast.1 harity
    obtain ⟨e, rest, ds, rfl, hvalue, hdigits, hnumber, hcounts⟩ := exists_count (by omega) hcounts
    rw [List.length_cons] at hthree
    obtain ⟨e', rest, ds', rfl, hvalue', hdigits', hnumber', -⟩ := exists_count (by omega) hcounts
    have hread := hreads.rep (hdigits.quantifies_between hdigits')
    rw [← hnumber, ← hnumber'] at hread
    rw [normalizeAll, normalizeAll]
    refine ⟨_, ?_, hread⟩
    rw [← wrap_count, Bytes.ofChars_append, ← hvalue, Bytes.ofChars_cons, Bytes.ofChars_append, ← hvalue']
    rw [← List.append_assoc, ← List.append_assoc, ← List.append_assoc]
    rfl

end Commands

section Classes

theorem isText_normalize {e : Element} (h : isText (normalize e)) :
    e.kind = .literal ∧ Utf8.isValid e.value := by
  rw [isText, Bool.and_eq_true, value_normalize, isLiteral, beq_iff_eq] at h
  obtain ⟨k, v, args⟩ := e
  by_cases hk : k = .literal
  . exact ⟨hk, h.2⟩
  . rw [normalize_of_ne_literal hk] at h
    exact absurd h.1 hk

theorem emit_text {e : Element} (h : isText (normalize e)) :
    emit e = .ok (Bytes.ofChars ((Utf8.decode e.value).flatMap escapeChar)) := by
  obtain ⟨hkind, hvalid⟩ := isText_normalize h
  obtain ⟨k, v, args⟩ := e
  rw [kind] at hkind
  subst hkind
  rw [emit_literal, ← escape_ofChars, Utf8.ofChars_decode hvalid, value]

theorem emitAll_text {name : Bytes} {es : List Element} (index : Nat)
    (h : ∀ e ∈ es, isText (normalize e)) :
    emitAll name 0 index es =
      .ok (es.map fun e => Bytes.ofChars ((Utf8.decode e.value).flatMap escapeChar)) := by
  induction es generalizing index with
  | nil => rw [emitAll, List.map_nil]
  | cons e rest ih =>
    have hrest := ih (index + 1) fun x hx => h x (List.mem_cons_of_mem e hx)
    rw [emitAll, if_neg (Nat.not_lt_zero index), emit_text (h e List.mem_cons_self), hrest]
    rfl

theorem characters_normalizeAll (es : List Element) : characters (normalizeAll es) = characters es := by
  rw [characters, normalizeAll_eq_map, List.flatMap_map]
  simp only [value_normalize]
  rfl

theorem flatten_escaped (es : List Element) :
    (es.map fun e => Bytes.ofChars ((Utf8.decode e.value).flatMap escapeChar)).flatten =
      Bytes.ofChars ((characters es).flatMap escapeChar) := by
  induction es with
  | nil => rfl
  | cons e rest ih =>
    have hchars : characters (e :: rest) = Utf8.decode e.value ++ characters rest := rfl
    rw [List.map_cons, List.flatten_cons, ih, hchars, List.flatMap_append, Bytes.ofChars_append]

theorem all_isText_normalizeAll {es : List Element} (h : (normalizeAll es).all isText) :
    ∀ e ∈ es, isText (normalize e) := by
  intro e he
  rw [normalizeAll_eq_map, List.all_map, List.all_eq_true] at h
  exact h e he

theorem groupCountAll_text {es : List Element} (h : es.all isText) : groupCountAll 0 es = 0 := by
  induction es with
  | nil => rw [groupCountAll]
  | cons e rest ih =>
    rw [List.all_cons, Bool.and_eq_true, isText, Bool.and_eq_true, isLiteral, beq_iff_eq] at h
    obtain ⟨k, v, args⟩ := e
    have hkind : k = .literal := h.1.1
    rw [groupCountAll, groupCount, ih h.2, if_pos hkind]

theorem readsAs_except {es : List Element} (v : Bytes) (n : Nat) (h : isExcept (normalizeAll es)) :
    ∃ parts cs, emitAll v 0 0 es = .ok parts ∧
      Command.except.render v parts = some (Bytes.ofChars cs) ∧
      ReadsAs n n cs (.set (.allBut (characters (normalizeAll es)))) := by
  rw [isExcept, Bool.and_eq_true, characters_normalizeAll] at h
  have hne : characters es ≠ [] := by simpa using h.2
  refine ⟨_, '[' :: '^' :: ((characters es).flatMap escapeChar ++ [']']),
    emitAll_text 0 (all_isText_normalizeAll h.1), ?_, ?_⟩
  . rw [Command.render, Command.wrap, flatten_escaped]
    simp [Bytes.ofChars_append, Bytes.ofString]
  . rw [characters_normalizeAll]
    apply readsAs_atom n (by decide) rfl
    intro k
    have hlex := lexeme?_except k hne
    simpa using hlex

theorem isRange_eq {es : List Element} (h : isRange es) :
    ∃ e e' lo hi, es = [e, e'] ∧ Utf8.decode e.value = [lo] ∧ Utf8.decode e'.value = [hi] ∧
      es.all isText ∧ lo.toNat ≤ hi.toNat := by
  rw [isRange] at h
  split at h
  . next lo hi hmap =>
    rw [List.map_eq_cons_iff] at hmap
    obtain ⟨e, rest, hes, hlo, hrest⟩ := hmap
    rw [List.map_eq_singleton_iff] at hrest
    obtain ⟨e', rfl, hhi⟩ := hrest
    rw [Bool.and_eq_true, decide_eq_true_iff] at h
    exact ⟨e, e', lo, hi, hes, hlo, hhi, h⟩
  . simp at h

theorem readsAs_range {es : List Element} (v : Bytes) (n : Nat) (h : isRange (normalizeAll es)) :
    ∃ parts cs lo hi, characters (normalizeAll es) = [lo, hi] ∧ emitAll v 0 0 es = .ok parts ∧
      Command.range.render v parts = some (Bytes.ofChars cs) ∧
      ReadsAs n n cs (.set (.ranges false [(lo, hi)])) := by
  obtain ⟨a, a', lo, hi, hes, hlo, hhi, htext, hle⟩ := isRange_eq h
  rw [normalizeAll_eq_map, List.map_eq_cons_iff] at hes
  obtain ⟨e, rest, rfl, rfl, hrest⟩ := hes
  rw [List.map_eq_singleton_iff] at hrest
  obtain ⟨e', rfl, rfl⟩ := hrest
  rw [value_normalize] at hlo hhi
  refine ⟨_, '[' :: (escapeChar lo ++ '-' :: (escapeChar hi ++ [']'])), lo, hi, ?_,
    emitAll_text 0 (all_isText_normalizeAll htext), ?_, ?_⟩
  . rw [characters_normalizeAll]
    simp [characters, hlo, hhi]
  . simp [Command.render, hlo, hhi, Bytes.ofChars_append, Bytes.ofString]
  . apply readsAs_atom n (by decide) rfl
    intro k
    have hlex := lexeme?_range k hle
    have hlength : (escapeChar lo ++ '-' :: (escapeChar hi ++ [']'])).length =
        (escapeChar lo).length + (escapeChar hi).length + 2 := by
      simp only [List.length_append, List.length_cons, List.length_nil]
      omega
    rw [hlength]
    simpa using hlex

end Classes

section Trees

theorem compiles_literal (v : Bytes) (args : List Element) : Compiles (.node .literal v args) := by
  intro hplain n
  rw [normalize_literal] at hplain ⊢
  have hvalid : Utf8.isValid v := by simpa [literal, isPlain] using hplain
  have hgroups : groupCount (literal v) = 0 := by simp [literal, groupCount]
  have hdenote : denote n (literal v) = .concat ((Utf8.decode v).map .char) := by simp [literal, denote]
  refine ⟨(Utf8.decode v).flatMap escapeChar, ?_, ?_⟩
  . rw [emit_literal, ← escape_ofChars, Utf8.ofChars_decode hvalid]
  . have hfits : ((Utf8.decode v).map Regex.char).all countsFit := by
      rw [List.all_map, List.all_eq_true]
      intro c _
      rfl
    have hmembers : ((Utf8.decode v).map Regex.char).flatMap members = (Utf8.decode v).map .char := by
      rw [List.flatMap_map, List.map_eq_flatMap]
      rfl
    rw [hgroups, hdenote, ReadsAs, countsFit_concat, members_concat, hfits, hmembers]
    exact Extends.text n (Utf8.decode v)

theorem compiles_operands {k : Kind} (hk : k ≠ .literal) (v : Bytes) {args : List Element}
    (h : ∀ e ∈ fold args, Compiles e) : Compiles (.node k v args) := by
  intro hplain n
  rw [normalize_of_ne_literal hk] at hplain ⊢
  rw [emit_of_ne_literal hk]
  generalize fold args = es at *
  rw [isPlain, if_neg hk] at hplain
  rw [denote, groupCount, if_neg hk, if_neg hk]
  cases hc : Command.ofName? v with
  | none => simp [hc] at hplain
  | some c =>
    simp only [hc, Bool.and_eq_true, length_normalizeAll] at hplain ⊢
    obtain ⟨harity, hplain⟩ := hplain
    -- classes are made of characters and not of patterns, so they do not use the induction hypothesis
    split at hplain
    . simp at hplain
    . obtain ⟨parts, cs, lo, hi, hchars, hparts, hrender, hread⟩ := readsAs_range v n hplain
      obtain ⟨-, -, -, -, -, -, -, htext, -⟩ := isRange_eq hplain
      refine ⟨cs, assemble_eq hc harity hparts hrender, ?_⟩
      have hgroups : ownGroups .range + groupCountAll Command.range.counts (normalizeAll es) = 0 :=
        (Nat.zero_add _).trans (groupCountAll_text htext)
      rw [hgroups, meaning, hchars]
      exact hread
    . obtain ⟨parts, cs, hparts, hrender, hread⟩ := readsAs_except v n hplain
      rw [isExcept, Bool.and_eq_true] at hplain
      refine ⟨cs, assemble_eq hc harity hparts hrender, ?_⟩
      have hgroups : ownGroups .except + groupCountAll Command.except.counts (normalizeAll es) = 0 :=
        (Nat.zero_add _).trans (groupCountAll_text hplain.1)
      rw [hgroups]
      exact hread
    . next hreference hrange hexcept =>
      obtain ⟨css, hparts, hreads⟩ := emitAll_eq (Nat.sub_zero c.counts) h hplain (n + ownGroups c)
      obtain ⟨cs, hrender, hread⟩ := render_eq (mem_names_of_ofName? hc) harity (isCount_of_mem_take hplain)
        (by rw [length_denoteAll, length_normalizeAll]) hreads hrange hexcept hreference
      rw [Nat.add_assoc] at hread
      exact ⟨cs, assemble_eq hc harity hparts hrender, hread⟩

theorem compiles (e : Element) : Compiles e := by
  induction e using foldInduction with
  | literal v args => exact compiles_literal v args
  | operands k v args hk ih => exact compiles_operands hk v ih

/-- Every plain tree has a pattern. Up to the nesting of concatenations the pattern is read back as what the
normal form of the tree denotes, unless a count is too large or the wrong way round, and the engine accepts
it unless nested counts multiply to too much or the pattern is too high or too large. -/
theorem read_emit {t : Element} (h : isPlain (normalize t)) :
    ∃ p r, emit t = .ok p ∧ r.flatten = (denote 0 (normalize t)).flatten ∧
      parse? p = (if countsFit (denote 0 (normalize t)) then some r else none) ∧
      read? p = (if countsFit (denote 0 (normalize t)) && countsAllowed (denote 0 (normalize t)) &&
        (patternLexemes? p).any withinLimits then some r else none) := by
  obtain ⟨cs, hemit, hread⟩ := compiles t h 0
  obtain ⟨r, hmembers, hparse⟩ := hread.parse?_eq
  have hflatten : r.flatten = (denote 0 (normalize t)).flatten := congrArg concat hmembers
  refine ⟨Bytes.ofChars cs, r, hemit, hflatten, hparse, ?_⟩
  have hallowed : countsAllowed r = countsAllowed (denote 0 (normalize t)) := by
    rw [← countsAllowed_flatten, hflatten, countsAllowed_flatten]
  rw [read?_eq_filter, hparse, ← hallowed]
  cases countsFit (denote 0 (normalize t)) with
  | false => rfl
  | true => rfl

def nestedTree : Element :=
  command "match" [command "^" [], literal "a.b", command "or" [literal "x", command "group" [literal "-"]],
    command "minmaxtimes" [], literal "2", literal "3", command "range" [], literal "a", literal "z"]

theorem read_emit_nestedTree :
    isPlain (normalize nestedTree) ∧
      ∃ p r, emit nestedTree = .ok p ∧ r.flatten = (denote 0 (normalize nestedTree)).flatten ∧
        parse? p = (if countsFit (denote 0 (normalize nestedTree)) then some r else none) ∧
        read? p = (if countsFit (denote 0 (normalize nestedTree)) &&
          countsAllowed (denote 0 (normalize nestedTree)) &&
          (patternLexemes? p).any withinLimits then some r else none) :=
  ⟨by decide +kernel, read_emit (by decide +kernel)⟩

end Trees

end VerboseExpr.Pattern
