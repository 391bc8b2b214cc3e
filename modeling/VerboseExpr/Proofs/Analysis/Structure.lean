import Mathlib
import VerboseExpr.Proofs.Analysis.Relabel
import VerboseExpr.Proofs.Pattern.Mending

/-!
The structure of a pattern, told from the tree. Main statement: where the automaton engine can read a pattern as it
is written, the groups that are counted in the tree are those of the pattern, one by one and in order, and the
warnings about repeated groups and about nested repetitions say what stands inside of what in the pattern.
-/

namespace VerboseExpr

open Regex Regex.Automaton Element Pattern

section Groups

variable {ok : Bytes → Bool}

theorem mem_args_cases {counts : Nat} {es : List Element} (hbuilt : areBuilt ok counts es)
    (hplain : arePlain counts es) : ∀ e ∈ es, isCount e ∨ (isBuilt ok e ∧ isPlain e) := by
  induction es generalizing counts with
  | nil => simp
  | cons e rest ih =>
    rw [List.forall_mem_cons]
    cases counts with
    | zero =>
      rw [areBuilt, Bool.and_eq_true] at hbuilt
      rw [arePlain, Bool.and_eq_true] at hplain
      exact ⟨.inr ⟨hbuilt.1, hplain.1⟩, ih hbuilt.2 hplain.2⟩
    | succ counts =>
      rw [areBuilt, Bool.and_eq_true] at hbuilt
      rw [arePlain, Bool.and_eq_true] at hplain
      exact ⟨.inl hbuilt.1, ih hbuilt.2 hplain.2⟩

theorem normalize_args {k : Kind} {v : Bytes} {args : List Element} (hk : k ≠ .literal)
    (h : (node k v args).normalize = node k v args) : ∀ e ∈ args, e.normalize = e := by
  rw [normalize_of_ne_literal hk, node.injEq] at h
  have hargs := h.2.2
  have hfold := fold_normalizeAll_fold args
  rw [hargs] at hfold
  rw [hfold, normalizeAll_eq_map] at hargs
  apply List.map_inj_left.1
  rw [hargs, List.map_id']

theorem of_mem_groupCommands {e : Element} (hnormal : e.normalize = e) (hbuilt : isBuilt ok e) (hplain : isPlain e) :
    ∀ g ∈ groupCommands e, g.command? = some .group ∧ g.normalize = g ∧ isPlain g := by
  induction e using argsInduction with
  | node k v args ih =>
    intro g hg
    by_cases hk : k = .literal
    . subst hk
      rw [isBuilt_literal_iff] at hbuilt
      rw [hbuilt.1, groupCommands_literal] at hg
      contradiction
    . -- the groups are the command itself, if it is one, and those of its arguments
      rw [groupCommands_node, List.mem_append] at hg
      obtain hg | hg := hg
      . split at hg
        . next hgroup =>
          rw [List.mem_singleton.1 hg]
          exact ⟨hgroup, hnormal, hplain⟩
        . contradiction
      . obtain ⟨x, hx, hg⟩ := List.mem_flatMap.1 hg
        obtain ⟨c, hc, hoperands, -⟩ := makes_denote hk hplain
        obtain ⟨rfl, -, hbuilt⟩ := (isBuilt_iff_of_ofName? hk hc).1 hbuilt
        obtain hcount | ⟨hbuilt, hplain⟩ := mem_args_cases hbuilt hoperands x hx
        . rw [groupCommands_count hcount] at hg
          contradiction
        . exact ih x hx (normalize_args hk hnormal x hx) hbuilt hplain g hg

end Groups

section Analysis

variable {ok : Bytes → Bool}

def isGroupEntry (x : Kind × Bytes) : Bool := x.1 != .literal && x.2 == groupName

theorem isGroupEntry_of_ne_literal {k : Kind} (hk : k ≠ .literal) (v : Bytes) :
    isGroupEntry (k, v) = (Command.ofName? v == some .group) := by
  rw [isGroupEntry, bne_iff_ne.2 hk, Bool.true_and, areNames_group.beq]
  cases Command.ofName? v <;> simp

theorem countP_entries_count {e : Element} (h : isCount e) : (entries e).countP isGroupEntry = 0 := by
  obtain ⟨k, v, args⟩ := e
  have hargs : args = [] := args_of_isCount h
  rw [isCount, Bool.and_eq_true, Bool.and_eq_true, value] at h
  by_cases hk : k = .literal
  . rw [hk, entries_literal]
    rfl
  . rw [entries_of_ne_literal hk, hargs, List.flatMap_nil, List.countP_singleton, isGroupEntry_of_ne_literal hk,
      ofName?_integer h.1.2]
    rfl

theorem countP_flatMap_entries {counts : Nat} {es : List Element}
    (ih : ∀ e ∈ es, isBuilt ok e → (entries e).countP isGroupEntry = (groupCommands e).length)
    (hbuilt : areBuilt ok counts es) :
    (es.flatMap entries).countP isGroupEntry = (es.flatMap groupCommands).length := by
  induction es generalizing counts with
  | nil => rfl
  | cons e rest ihrest =>
    rw [List.forall_mem_cons] at ih
    rw [List.flatMap_cons, List.flatMap_cons, List.countP_append, List.length_append]
    cases counts with
    | zero =>
      rw [areBuilt, Bool.and_eq_true] at hbuilt
      rw [ih.1 hbuilt.1, ihrest ih.2 hbuilt.2]
    | succ counts =>
      rw [areBuilt, Bool.and_eq_true] at hbuilt
      rw [countP_entries_count hbuilt.1, groupCommands_count hbuilt.1, ihrest ih.2 hbuilt.2]
      rfl

theorem countP_entries {e : Element} (h : isBuilt ok e) :
    (entries e).countP isGroupEntry = (groupCommands e).length := by
  induction e using argsInduction with
  | node k v args ih =>
    by_cases hk : k = .literal
    . subst hk
      rw [isBuilt_literal_iff] at h
      rw [h.1, entries_literal, groupCommands_literal]
      rfl
    . obtain ⟨rfl, c, hc, -, hbuilt⟩ := (isBuilt_of_ne_literal hk).1 h
      rw [entries_of_ne_literal hk, List.countP_cons, countP_flatMap_entries ih hbuilt, groupCommands_node,
        command?_node, isGroupEntry_of_ne_literal hk, List.length_append, hc, Nat.add_comm]
      congr 1
      by_cases hgroup : c = .group
      . rw [if_pos (beq_iff_eq.2 (congrArg some hgroup)), if_pos (congrArg some hgroup)]
        rfl
      . rw [if_neg (by simpa using hgroup), if_neg (by simpa using hgroup)]
        rfl

theorem captureGroups_eq_length {e : Element} (h : isBuilt ok e) (p : Bytes) :
    (Analysis.ofTree e p).captureGroups = (groupCommands e).length :=
  (countWhere_eq_countP isGroupEntry e).trans (countP_entries h)

theorem nests_iff {p q : Command → Bool} {P Q : Regex → Bool} (hp : Tells p P) (hq : Tells q Q)
    (hP : ∀ x : Regex, x.isGroup ∨ x.isRep → P x.flatten = P x)
    (hQ : ∀ x : Regex, x.isGroup ∨ x.isRep → Q x.flatten = Q x) {e : Element} {r : Regex}
    (hbuilt : isBuilt ok e) (hplain : isPlain e) (hr : r.flatten = (denote 0 e).flatten) :
    Element.nests (·.command?.any p) (·.command?.any q) false e ↔
      ∃ x ∈ spans r, P x ∧ ∃ y ∈ spans x.body, Q y := by
  rw [← nests_denote hp hq hbuilt hplain 0 false, ← nests_map_flatten false hP hQ, ← hr, nests_map_flatten false hP hQ]
  simp [Regex.nests, List.any_eq_true]

theorem hasRepeatingCaptures_iff {e : Element} {r : Regex} (hbuilt : isBuilt ok e) (hplain : isPlain e)
    (hr : r.flatten = (denote 0 e).flatten) :
    e.hasRepeatingCaptures ↔ ∃ x ∈ spans r, x.isRep ∧ ∃ y ∈ spans x.body, y.isGroup := by
  rw [hasRepeatingCaptures_eq]
  apply nests_iff tells_isRep tells_isGroup _ _ hbuilt hplain hr
  . intro x hx
    exact (flatten_of_isGroup_or_isRep hx).2.1
  . intro x hx
    exact (flatten_of_isGroup_or_isRep hx).1

theorem hasNestedQuantifiers_iff {e : Element} {r : Regex} (hbuilt : isBuilt ok e) (hplain : isPlain e)
    (hr : r.flatten = (denote 0 e).flatten) :
    e.hasNestedQuantifiers ↔ ∃ x ∈ spans r, x.isLoop ∧ ∃ y ∈ spans x.body, y.isLoop := by
  have hloop (x : Regex) (hx : x.isGroup ∨ x.isRep) : x.flatten.isLoop = x.isLoop :=
    (flatten_of_isGroup_or_isRep hx).2.2.1
  rw [hasNestedQuantifiers_eq]
  apply nests_iff tells_isLoop tells_isLoop hloop hloop hbuilt hplain hr

end Analysis

section Parsing

variable {ok : Bytes → Bool}

theorem flatten_of_parse? {e : Element} {p : Bytes} {r : Regex} (hplain : isPlain e.normalize) (hemit : emit e = .ok p)
    (hparse : parse? p = some r) :
    r.flatten = (denote 0 e.normalize).flatten ∧ countsFit (denote 0 e.normalize) := by
  obtain ⟨cs, hcs, hread⟩ := compiles e hplain 0
  rw [hemit, Except.ok.injEq] at hcs
  obtain ⟨r', hmembers, hparse'⟩ := hread.parse?_eq
  rw [← hcs, hparse] at hparse'
  split at hparse'
  . next hfits =>
    rw [Option.some.inj hparse']
    exact ⟨congrArg concat hmembers, hfits⟩
  . contradiction

theorem exists_plain {t : Element} {p : Bytes} {r : Regex} (hbuilt : isBuilt (fun _ => true) t.normalize)
    (hemit : emit t = .ok p) (hparse : parse? p = some r) :
    ∃ e, Mended t.normalize e ∧ emit e = .ok p ∧ isPlain e := by
  have hvalid : Utf8.isValid p := by
    rw [parse?, patternLexemes?] at hparse
    split at hparse
    . assumption
    . contradiction
  obtain ⟨e, hmended, hemits⟩ := exists_mended hbuilt hemit hvalid
  have hnormal := hmended.normalize_eq
  obtain ⟨cs, r', hcs, hread, hplain⟩ := settles e (by rw [hnormal]; exact hmended.isBuilt) p hemits 0
  obtain ⟨r'', -, hparse'⟩ := hread.parse?_eq
  rw [← hcs, hparse] at hparse'
  split at hparse'
  . next hfits =>
    rw [hnormal] at hplain
    exact ⟨e, hmended, hemits, hplain hfits⟩
  . contradiction

theorem countsFit_of_mem_spans {r x : Regex} (h : countsFit r) (hx : x ∈ spans r) : countsFit x := by
  induction r with
  | group n r ih =>
    obtain rfl | hx := List.mem_cons.1 hx
    . exact h
    . exact ih h hx
  | rep min max greedy r ih =>
    obtain rfl | hx := List.mem_cons.1 hx
    . exact h
    . rw [countsFit, Bool.and_eq_true] at h
      exact ih h.2 hx
  | cat r s ihr ihs | alt r s ihr ihs =>
    rw [countsFit, Bool.and_eq_true] at h
    obtain hx | hx := List.mem_append.1 hx
    . exact ihr h.1 hx
    . exact ihs h.2 hx
  | _ => contradiction

theorem countsFit_shift (n : Nat) (r : Regex) : countsFit (r.shift n) = countsFit r := by
  induction r with
  | group k r ih => exact ih
  | rep min max greedy r ih => rw [shift, countsFit, countsFit, ih]
  | cat r s ihr ihs | alt r s ihr ihs => rw [shift, countsFit, countsFit, ihr, ihs]
  | _ => rfl

theorem getElem?_denoteGroups (n : Nat) (gs : List Element) (k : Nat) :
    (denoteGroups n gs)[k]? = gs[k]?.map (denote (n + k)) := by
  rw [denoteGroups, List.getElem?_map, List.getElem?_zipIdx, Option.map_map]
  rfl

theorem exists_of_mem_captures {r x : Regex} (h : x ∈ captures r) : ∃ n body, x = .group n body := by
  rw [captures, List.mem_filter] at h
  cases x with
  | group n body => exact ⟨n, body, rfl⟩
  | _ => simp [isGroup] at h

theorem length_captures {e : Element} {r : Regex} (hbuilt : isBuilt ok e) (hplain : isPlain e)
    (hr : r.flatten = (denote 0 e).flatten) : (captures r).length = (groupCommands e).length := by
  have hcaptures : (captures r).map flatten = (captures (denote 0 e)).map flatten := by
    rw [← captures_flatten, hr, captures_flatten]
  have hlength := congrArg List.length hcaptures
  rwa [List.length_map, List.length_map, captures_denote hbuilt hplain, denoteGroups, List.length_map,
    List.length_zipIdx] at hlength

theorem denote_of_group {g : Element} (h : g.command? = some .group) (n : Nat) :
    ∃ body, denote n g = .group (n + 1) body := by
  obtain ⟨k, v, args⟩ := g
  by_cases hk : k = .command
  . subst hk
    rw [command?_node] at h
    rw [denote, if_neg (by decide), h]
    exact ⟨_, rfl⟩
  . rw [command?_of_ne_command hk] at h
    contradiction

theorem exists_capture {e g : Element} {r : Regex} {k : Nat} (hnormal : e.normalize = e) (hbuilt : isBuilt ok e)
    (hplain : isPlain e) (hr : r.flatten = (denote 0 e).flatten) (hfits : countsFit (denote 0 e))
    (hg : (groupCommands e)[k]? = some g) :
    ∃ q r' body, emit g = .ok q ∧ parse? q = some r' ∧ (captures r)[k]? = some (.group (k + 1) body) ∧
      (Regex.group (k + 1) body).flatten = (r'.shift k).flatten := by
  obtain ⟨hgroup, hgnormal, hgplain⟩ := of_mem_groupCommands hnormal hbuilt hplain g (List.mem_of_getElem? hg)
  have hdenoted : (captures (denote 0 e))[k]? = some (denote k g) := by
    rw [captures_denote hbuilt hplain, getElem?_denoteGroups, hg, Nat.zero_add]
    rfl
  -- the group as it stands in the whole pattern
  have hwhole : ((captures r).map flatten)[k]? = some (denote k g).flatten := by
    rw [← captures_flatten, hr, captures_flatten, List.getElem?_map, hdenoted]
    rfl
  rw [List.getElem?_map, Option.map_eq_some_iff] at hwhole
  obtain ⟨x, hx, hxflatten⟩ := hwhole
  obtain ⟨i, body, rfl⟩ := exists_of_mem_captures (List.mem_of_getElem? hx)
  obtain ⟨inner, hinner⟩ := denote_of_group hgroup k
  obtain rfl : i = k + 1 := by
    rw [hinner] at hxflatten
    exact (Regex.group.inj hxflatten).1
  -- the group by itself
  have hgfits : countsFit (denote 0 g) := by
    have hmem := List.mem_of_getElem? hdenoted
    rw [captures, List.mem_filter] at hmem
    have := countsFit_of_mem_spans hfits hmem.1
    rwa [← Nat.zero_add k, denote_shift, countsFit_shift] at this
  obtain ⟨cs, hcs, hread⟩ := compiles g (by rwa [hgnormal]) 0
  rw [hgnormal] at hread
  obtain ⟨r', hmembers, hparse⟩ := hread.parse?_eq
  rw [if_pos hgfits] at hparse
  have hflatten : r'.flatten = (denote 0 g).flatten := congrArg concat hmembers
  refine ⟨_, r', body, hcs, hparse, hx, ?_⟩
  rw [hxflatten, flatten_shift, hflatten, ← flatten_shift, ← denote_shift, Nat.zero_add]

end Parsing

/-- What an analysis says of the groups and the repetitions in a tree is so in a regular expression. -/
structure Analysis.Describes (a : Analysis) (t : Element) (r : Regex) : Prop where
  captureGroups_eq : a.captureGroups = (captures r).length
  length_eq : (groupCommands t).length = (captures r).length
  /-- A group is what is read from the pattern of its own command, but for the groups before it. -/
  capture_eq : ∀ k g, (groupCommands t)[k]? = some g → ∃ q r' body, emit g = .ok q ∧ parse? q = some r' ∧
    (captures r)[k]? = some (.group (k + 1) body) ∧ (Regex.group (k + 1) body).flatten = (r'.shift k).flatten
  repeating_iff : a.hasRepeatingCaptures ↔ ∃ x ∈ spans r, x.isRep ∧ ∃ y ∈ spans x.body, y.isGroup
  risk_iff : a.hasCatastrophicRisk ↔ ∃ x ∈ spans r, x.isLoop ∧ ∃ y ∈ spans x.body, y.isLoop

/-- Where the engine reads the pattern of a tree that is built from literals and from commands that do not refer
back, the analysis of the tree describes what is read. -/
theorem describes_of_parse? {t : Element} {p : Bytes} {r : Regex} (hbuilt : isBuilt (fun _ => true) t.normalize)
    (hemit : emit t = .ok p) (hparse : parse? p = some r) :
    (Analysis.ofTree t.normalize p).Describes t.normalize r := by
  obtain ⟨e, hmended, hemits, hplain⟩ := exists_plain hbuilt hemit hparse
  have hnormal := hmended.normalize_eq
  obtain ⟨hr, hfits⟩ := flatten_of_parse? (by rwa [hnormal]) hemits hparse
  rw [hnormal] at hr hfits
  -- the mended tree differs from the given one in its texts only, which the analysis does not look at
  have hanalysis : Analysis.ofTree t.normalize p = Analysis.ofTree e p := by
    rw [← relabels_blank.ofTree_eq, ← hmended.blank_eq, relabels_blank.ofTree_eq]
  have hlength : (groupCommands t.normalize).length = (captures r).length := by
    have hgroups := congrArg List.length hmended.groups
    rw [List.length_map, List.length_map] at hgroups
    rw [length_captures hmended.isBuilt hplain hr, hgroups]
  refine ⟨?_, hlength, ?_, ?_, ?_⟩
  . rw [← hlength]
    exact captureGroups_eq_length hbuilt p
  . intro k g hg
    have hpattern : ((groupCommands e).map emit)[k]? = some (emit g) := by
      rw [hmended.groups, List.getElem?_map, hg]
      rfl
    rw [List.getElem?_map, Option.map_eq_some_iff] at hpattern
    obtain ⟨g', hg', hemit'⟩ := hpattern
    rw [← hemit']
    exact exists_capture hnormal hmended.isBuilt hplain hr hfits hg'
  . rw [hanalysis]
    exact hasRepeatingCaptures_iff hmended.isBuilt hplain hr
  . rw [hanalysis]
    exact hasNestedQuantifiers_iff hmended.isBuilt hplain hr

def splitTree : Element :=
  command "match" [literal [0xC3], literal [0xA9], command "group" [command "^" [], command "mintimes" [], literal "2",
    command "group" [command "except" [literal [0xE2, 0x82], literal [0xAC, 0x2D]]],
    command "|" [literal "x", command "*" [literal "y"]]]]

def splitPattern : Bytes := "é(^(?:([^€\\-])(?:x|(?:y)*))\x7b2,\x7d)"

def splitRegex : Regex :=
  .cat (.char 'é') (.group 1 (.cat (.anchor .textStart) (.rep 2 none true
    (.cat (.group 2 (.set (.allBut ['€', '-']))) (.alt (.char 'x') (.rep 0 none true (.char 'y')))))))

theorem describes_splitTree :
    isBuilt (fun _ => true) splitTree.normalize ∧ emit splitTree = .ok splitPattern ∧
      parse? splitPattern = some splitRegex ∧
      (Analysis.ofTree splitTree.normalize splitPattern).Describes splitTree.normalize splitRegex := by
  have hbuilt : isBuilt (fun _ => true) splitTree.normalize := by decide +kernel
  have hemit : emit splitTree = .ok splitPattern := by decide +kernel
  have hparse : parse? splitPattern = some splitRegex := by decide +kernel
  exact ⟨hbuilt, hemit, hparse, describes_of_parse? hbuilt hemit hparse⟩

end VerboseExpr
