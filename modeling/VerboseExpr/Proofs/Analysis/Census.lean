import Mathlib
import VerboseExpr.Proofs.Analysis.References
import VerboseExpr.Proofs.Compilation.Append

/-!
The counts of an analysis, told from the tokens. Every word and every quotation adds one element to the tree,
an opening square bracket adds one for the command that it is short for, and the root is there in any case.
Neither the reading of groups nor folding drops an element or makes another. Main statement: the counts and
the features of an analysis can be read off the tokens of the source.
-/

namespace VerboseExpr

namespace Token

/-- Each token with the one before it, where `prev` stands before the first. -/
def withPrevious : Option Token → List Token → List (Option Token × Token)
  | _, [] => []
  | prev, t :: ts => (prev, t) :: withPrevious (some t) ts

def followsRound (prev : Option Token) : Bool := prev.any (·.text == [0x28])

theorem withPrevious_append (prev : Option Token) (ts us : List Token) :
    withPrevious prev (ts ++ us) = withPrevious prev ts ++ withPrevious (ts.getLast?.or prev) us := by
  induction ts generalizing prev with
  | nil => rfl
  | cons t ts ih =>
    rw [List.cons_append, withPrevious, withPrevious, ih, List.cons_append, List.getLast?_cons]
    cases ts.getLast? <;> rfl

theorem map_snd_withPrevious (prev : Option Token) (ts : List Token) :
    (withPrevious prev ts).map (·.2) = ts := by
  induction ts generalizing prev with
  | nil => rfl
  | cons t ts ih => rw [withPrevious, List.map_cons, ih]

theorem countP_withPrevious (p : Token → Bool) (prev : Option Token) (ts : List Token) :
    (withPrevious prev ts).countP (fun x => p x.2) = ts.countP p := by
  nth_rw 2 [← map_snd_withPrevious prev ts]
  rw [List.countP_map]
  rfl

end Token

namespace Element

open Token (withPrevious followsRound)

section Entries

theorem countWhere_eq_countP (p : Kind × Bytes → Bool) (e : Element) :
    countWhere (fun x => p (x.kind, x.value)) e = (entries e).countP p := by
  rw [countWhere, entries, List.countP_map]
  rfl

end Entries

section Tokens

/-- The kind and the value of the element that a token adds to the tree, if it adds one. -/
def added : Option Token × Token → List (Kind × Bytes)
  | (prev, t) =>
    match t.classify with
    | .word => [(.command, t.text)]
    | .quoted => if followsRound prev then [(.command, t.text)] else [(.literal, (t.text.drop 1).dropLast)]
    | .openBracket => if t.text = [0x5B] then [(.command, rootName)] else []
    | .closeBracket => []

theorem classify_of_isOpen {t : Token} (h : t.isOpen) : t.classify = .openBracket := by
  have hquoted : t.isQuoted = false := by
    obtain ho | ho := (isOpen_iff t).1 h <;> simp [Token.isQuoted, Token.isQuote, ho]
  simp [Token.classify, hquoted, h]

theorem classify_of_isClose {t : Token} (h : t.isClose) : t.classify = .closeBracket := by
  have hquoted : t.isQuoted = false := by
    obtain hc | hc := (isClose_iff t).1 h <;> simp [Token.isQuoted, Token.isQuote, hc]
  simp [Token.classify, hquoted, not_isOpen_of_isClose h, h]

theorem added_round {t : Token} (h : t.text = [0x28]) (prev : Option Token) : added (prev, t) = [] := by
  simp [added, classify_of_isOpen ((isOpen_iff t).2 (.inl h)), h]

theorem added_square {t : Token} (h : t.text = [0x5B]) (prev : Option Token) :
    added (prev, t) = [(.command, rootName)] := by
  simp [added, classify_of_isOpen ((isOpen_iff t).2 (.inr h)), h]

theorem added_close {t : Token} (h : t.isClose) (prev : Option Token) : added (prev, t) = [] := by
  simp [added, classify_of_isClose h]

theorem Leaf.classify_eq {t : Token} {e : Element} (h : Leaf t e) : t.classify = .word ∨ t.classify = .quoted := by
  cases h with
  | word hword => exact .inl hword
  | quoted hd htext =>
    right
    apply Token.classify_eq_quoted
    rw [Token.isQuoted, htext]
    exact hd

theorem Leaf.added_eq {t : Token} {e : Element} (h : Leaf t e) {prev : Option Token}
    (hprev : followsRound prev = false) : added (prev, t) = entries e := by
  have hclass := h.classify_eq
  cases h with
  | word hword => simp [added, hword]
  | quoted hd htext =>
    obtain hword | hquoted := hclass
    . simp [Token.classify, Token.isQuoted, htext, hd] at hword
    . simp [added, hquoted, hprev, htext, literal]

theorem Leaf.added_name {t : Token} {e : Element} (h : Leaf t e) {prev : Option Token}
    (hprev : followsRound prev) : added (prev, t) = [(.command, t.text)] := by
  obtain hword | hquoted := h.classify_eq
  . simp [added, hword]
  . simp [added, hquoted, hprev]

theorem followsRound_some {t : Token} (h : t.text ≠ [0x28]) : followsRound (some t) = false := by
  simpa [followsRound] using h

theorem flatMap_added_group {closer : Token} {body ts : List Token} {args es : List Element} {prev : Option Token}
    (hclose : closer.isClose) (hbody : (withPrevious prev body).flatMap added = args.flatMap entries)
    (hts : (withPrevious (some closer) ts).flatMap added = es.flatMap entries) :
    (withPrevious prev (body ++ closer :: ts)).flatMap added = args.flatMap entries ++ es.flatMap entries := by
  rw [Token.withPrevious_append, List.flatMap_append, hbody, withPrevious, List.flatMap_cons, added_close hclose,
    List.nil_append, hts]

theorem Items.flatMap_added {ts : List Token} {es : List Element} (h : Items ts es) {prev : Option Token}
    (hprev : followsRound prev = false) : (withPrevious prev ts).flatMap added = es.flatMap entries := by
  induction h generalizing prev with
  | nil => rfl
  | leaf hleaf _ ih =>
    rw [withPrevious, List.flatMap_cons, ih (followsRound_some hleaf.text_ne_round), hleaf.added_eq hprev,
      List.flatMap_cons]
  | @round opener name closer body ts e args es ho hname _ hc _ ihbody ihts =>
    have hopener : followsRound (some opener) := by simp [followsRound, ho]
    have hclose : closer.isClose := (isClose_iff closer).2 (.inl hc)
    have hgroup := flatMap_added_group hclose (ihbody (followsRound_some hname.text_ne_round))
      (ihts (followsRound_some (by simp [hc])))
    -- the bracket adds nothing, and the name after it the command
    rw [List.cons_append, List.cons_append, withPrevious, withPrevious, List.flatMap_cons, List.flatMap_cons,
      added_round ho, hname.added_name hopener, hgroup, List.flatMap_cons, entries_command]
    rfl
  | @square opener closer body ts args es ho _ hc _ ihbody ihts =>
    have hclose : closer.isClose := (isClose_iff closer).2 (.inr hc)
    have hopener : followsRound (some opener) = false := followsRound_some (by simp [ho])
    have hgroup := flatMap_added_group hclose (ihbody hopener)
      (ihts (followsRound_some (by simp [hc])))
    -- here the bracket itself adds the root command
    rw [List.cons_append, withPrevious, List.flatMap_cons, added_square ho, hgroup, List.flatMap_cons,
      entries_command]
    rfl

theorem entries_of_items {ts : List Token} {es : List Element} (h : Items ts es) :
    entries (normalize (command rootName es)) = (.command, rootName) :: (withPrevious none ts).flatMap added := by
  rw [entries_normalize, entries_command, h.flatMap_added rfl]

theorem text_ne_square {t : Token} (h : t.classify ≠ .openBracket) : t.text ≠ [0x5B] := fun htext =>
  h (classify_of_isOpen ((isOpen_iff t).2 (.inr htext)))

theorem countP_literal_added (x : Option Token × Token) :
    (added x).countP (·.1 == .literal) = if x.2.classify = .quoted ∧ followsRound x.1 = false then 1 else 0 := by
  obtain ⟨prev, t⟩ := x
  simp only [added]
  cases hclass : t.classify with
  | word | closeBracket => simp
  | quoted => cases hprev : followsRound prev <;> simp
  | openBracket => by_cases hsquare : t.text = [0x5B] <;> simp [hsquare]

theorem countP_command_added (x : Option Token × Token) :
    (added x).countP (·.1 != .literal) =
      (if x.2.classify = .word then 1 else 0) + (if x.2.text = [0x5B] then 1 else 0) +
        if x.2.classify = .quoted ∧ followsRound x.1 then 1 else 0 := by
  obtain ⟨prev, t⟩ := x
  simp only [added]
  cases hclass : t.classify with
  | word | closeBracket => simp [text_ne_square, hclass]
  | quoted => cases hprev : followsRound prev <;> simp [text_ne_square, hclass]
  | openBracket => by_cases hsquare : t.text = [0x5B] <;> simp [hsquare]

theorem countP_literal_flatMap_added (xs : List (Option Token × Token)) :
    (xs.flatMap added).countP (·.1 == .literal) =
      xs.countP fun x => x.2.classify = .quoted ∧ followsRound x.1 = false := by
  induction xs with
  | nil => rfl
  | cons x xs ih =>
    rw [List.flatMap_cons, List.countP_append, ih, countP_literal_added, List.countP_cons, Nat.add_comm]
    simp only [decide_eq_true_eq]

theorem countP_command_flatMap_added (xs : List (Option Token × Token)) :
    (xs.flatMap added).countP (·.1 != .literal) =
      xs.countP (·.2.classify = .word) + xs.countP (·.2.text = [0x5B]) +
        xs.countP fun x => x.2.classify = .quoted ∧ followsRound x.1 := by
  induction xs with
  | nil => rfl
  | cons x xs ih =>
    rw [List.flatMap_cons, List.countP_append, ih, countP_command_added, List.countP_cons, List.countP_cons,
      List.countP_cons]
    simp only [decide_eq_true_eq]
    omega

/-- Only commands other than the root pass the test. -/
def IsSelective (q : Bytes → Bool) : Prop := ∀ v, q v → ∃ c, Command.ofName? v = some c ∧ c ≠ .concatenation

theorem ofName?_quoted {t : Token} (h : t.classify = .quoted) : Command.ofName? t.text = none := by
  cases hc : Command.ofName? t.text with
  | none => rfl
  | some c =>
    have hnames : ∀ c ∈ Command.all, ∀ v ∈ c.names, (Token.synthetic v).classify ≠ .quoted := by decide +kernel
    exact absurd h (hnames c (List.mem_of_find?_eq_some hc) t.text (Pattern.mem_names_of_ofName? hc))

theorem IsSelective.quoted {q : Bytes → Bool} (hq : IsSelective q) {t : Token} (h : t.classify = .quoted) :
    q t.text = false := by
  rw [← Bool.not_eq_true]
  intro htext
  obtain ⟨c, hc, -⟩ := hq t.text htext
  rw [ofName?_quoted h] at hc
  contradiction

theorem IsSelective.root {q : Bytes → Bool} (hq : IsSelective q) : q rootName = false := by
  rw [← Bool.not_eq_true]
  intro hroot
  obtain ⟨c, hc, hne⟩ := hq rootName hroot
  have hname : Command.ofName? rootName = some .concatenation := by decide +kernel
  rw [hname, Option.some.injEq] at hc
  exact hne hc.symm

theorem IsSelective.countP_added {q : Bytes → Bool} (hq : IsSelective q) (x : Option Token × Token) :
    (added x).countP (fun y => y.1 != .literal && q y.2) =
      if x.2.classify = .word ∧ q x.2.text then 1 else 0 := by
  obtain ⟨prev, t⟩ := x
  simp only [added]
  cases hclass : t.classify with
  | word => simp [List.countP_cons]
  | closeBracket => simp
  | quoted => cases hprev : followsRound prev <;> simp [hq.quoted hclass]
  | openBracket => by_cases hsquare : t.text = [0x5B] <;> simp [hsquare, hq.root]

theorem IsSelective.countP_flatMap_added {q : Bytes → Bool} (hq : IsSelective q)
    (xs : List (Option Token × Token)) :
    (xs.flatMap added).countP (fun y => y.1 != .literal && q y.2) =
      xs.countP fun x => x.2.classify = .word ∧ q x.2.text := by
  induction xs with
  | nil => rfl
  | cons x xs ih =>
    rw [List.flatMap_cons, List.countP_append, ih, hq.countP_added, List.countP_cons, Nat.add_comm]
    simp only [decide_eq_true_eq]

end Tokens

section Counts

variable {ts : List Token} {es : List Element}

theorem Items.countWhere_literal (h : Items ts es) :
    (normalize (command rootName es)).countWhere (·.isLiteral) =
      (withPrevious none ts).countP fun x => x.2.classify = .quoted ∧ followsRound x.1 = false := by
  rw [← countP_literal_flatMap_added]
  have hcount := countWhere_eq_countP (·.1 == .literal) (normalize (command rootName es))
  rw [entries_of_items h] at hcount
  exact hcount

theorem Items.countWhere_command (h : Items ts es) :
    (normalize (command rootName es)).countWhere (!·.isLiteral) =
      1 + ts.countP (·.classify = .word) + ts.countP (·.text = [0x5B]) +
        (withPrevious none ts).countP fun x => x.2.classify = .quoted ∧ followsRound x.1 := by
  have hcount := countWhere_eq_countP (·.1 != .literal) (normalize (command rootName es))
  rw [entries_of_items h, List.countP_cons_of_pos rfl, countP_command_flatMap_added,
    Token.countP_withPrevious (·.classify = .word), Token.countP_withPrevious (·.text = [0x5B])] at hcount
  rw [Nat.add_assoc, Nat.add_assoc, Nat.add_comm 1, ← Nat.add_assoc]
  exact hcount

theorem Items.countWhere_selective (h : Items ts es) {q : Bytes → Bool} (hq : IsSelective q) :
    (normalize (command rootName es)).countWhere (fun x => !x.isLiteral && q x.value) =
      ts.countP fun t => t.classify = .word ∧ q t.text := by
  have hcount := countWhere_eq_countP (fun y => y.1 != .literal && q y.2) (normalize (command rootName es))
  rw [entries_of_items h, List.countP_cons_of_neg (by simp [hq.root]), hq.countP_flatMap_added,
    Token.countP_withPrevious fun t => t.classify = .word ∧ q t.text] at hcount
  exact hcount

theorem Items.countWhere_selective_pos_iff (h : Items ts es) {q : Bytes → Bool} (hq : IsSelective q) :
    0 < (normalize (command rootName es)).countWhere (fun x => !x.isLiteral && q x.value) ↔
      ∃ t ∈ ts, t.classify = .word ∧ q t.text := by
  rw [h.countWhere_selective hq, List.countP_pos_iff]
  simp only [decide_eq_true_eq]

end Counts

section Features

theorem isSelective_name {name : Bytes} {p : Command → Bool} (h : AreNames [name] p)
    (hroot : p .concatenation = false) : IsSelective (· == name) := by
  intro v hv
  dsimp only at hv
  rw [h.beq, Option.any_eq_true] at hv
  obtain ⟨c, hc, hp⟩ := hv
  refine ⟨c, hc, ?_⟩
  rintro rfl
  rw [hroot] at hp
  contradiction

theorem isSelective_feature (f : Feature) : IsSelective fun v => Feature.ofName? v == some f := by
  intro v hv
  dsimp only at hv
  rw [Feature.ofName?_eq] at hv
  obtain ⟨c, hc, hfeature⟩ := Option.bind_eq_some_iff.1 (eq_of_beq hv)
  refine ⟨c, hc, ?_⟩
  rintro rfl
  contradiction

theorem mem_features_iff (e : Element) (f : Feature) :
    f ∈ features e ↔ 0 < e.countWhere fun x => !x.isLiteral && Feature.ofName? x.value == some f := by
  have hall : f ∈ Feature.all := by cases f <;> decide
  rw [features, countWhere, List.countP_pos_iff]
  simp only [List.mem_filter, hall, true_and, List.contains_iff_mem, List.mem_filterMap]
  apply exists_congr
  intro x
  cases hliteral : x.isLiteral <;> simp

end Features

end Element

namespace Analysis

open Element
open Token (withPrevious followsRound)

/-- What the counts and the features of an analysis are, told from the tokens of the source. -/
structure AccountsFor (a : Analysis) (ts : List Token) : Prop where
  literals : a.literals = (withPrevious none ts).countP fun x => x.2.classify = .quoted ∧ followsRound x.1 = false
  commands : a.commands = 1 + ts.countP (·.classify = .word) + ts.countP (·.text = [0x5B]) +
    (withPrevious none ts).countP fun x => x.2.classify = .quoted ∧ followsRound x.1
  captureGroups : a.captureGroups = ts.countP fun t => t.classify = .word ∧ t.text = Bytes.ofString "group"
  hasBackrefs : a.hasBackrefs ↔ ∃ t ∈ ts, t.classify = .word ∧ t.text = Bytes.ofString "refer"
  featureLabels : ∃ names : List Bytes, names.Pairwise (· < ·) ∧
    (∀ name, name ∈ names ↔ ∃ t ∈ ts, t.classify = .word ∧ (Feature.ofName? t.text).map (·.label) = some name) ∧
    a.featureLabels = if names = [] then [Bytes.ofString "Simple"] else names

theorem pairwise_label (e : Element) : (e.features.map (·.label)).Pairwise (· < ·) := by
  have hall : (Feature.all.map (·.label)).Pairwise (· < ·) := by decide
  exact hall.sublist (List.filter_sublist.map _)

theorem mem_label_iff {ts : List Token} {es : List Element} (h : Items ts es) (name : Bytes) :
    name ∈ (normalize (command rootName es)).features.map (·.label) ↔
      ∃ t ∈ ts, t.classify = .word ∧ (Feature.ofName? t.text).map (·.label) = some name := by
  simp only [List.mem_map, mem_features_iff, h.countWhere_selective_pos_iff (isSelective_feature _),
    Option.map_eq_some_iff, beq_iff_eq]
  constructor
  . rintro ⟨f, ⟨t, ht, hword, hfeature⟩, hlabel⟩
    exact ⟨t, ht, hword, f, hfeature, hlabel⟩
  . rintro ⟨t, ht, hword, f, hfeature, hlabel⟩
    exact ⟨f, ⟨t, ht, hword, hfeature⟩, hlabel⟩

theorem labels_eq (fs : List Feature) :
    labels fs = if fs.map (·.label) = [] then [Bytes.ofString "Simple"] else fs.map (·.label) := by
  rw [labels]
  cases fs <;> rfl

theorem accountsFor_ofTree {ts : List Token} {es : List Element} (h : Items ts es) (p : Bytes) :
    (ofTree (normalize (command rootName es)) p).AccountsFor ts where
  literals := h.countWhere_literal
  commands := h.countWhere_command
  captureGroups := by
    have hgroup := h.countWhere_selective (isSelective_name areNames_group rfl)
    simp only [beq_iff_eq] at hgroup
    exact hgroup
  hasBackrefs := by
    have href := h.countWhere_selective_pos_iff (isSelective_name areNames_reference rfl)
    simp only [beq_iff_eq] at href
    exact decide_eq_true_iff.trans href
  featureLabels := ⟨_, pairwise_label _, mem_label_iff h, labels_eq _⟩

/-- Every token of an analysed source is accounted for. -/
theorem exists_accountsFor {source : Bytes} {a : Analysis} (ha : run source = .ok a) :
    ∃ ts, Token.read source = .ok ts ∧ a.AccountsFor ts := by
  cases htree : parse source with
  | error f => simp [run_eq_bind, htree, Except.bind] at ha
  | ok tree =>
    obtain ⟨p, -, rfl⟩ := exists_of_run htree ha
    obtain ⟨ts, es, hread, hitems, rfl⟩ := exists_items_of_parse htree
    exact ⟨ts, hread, accountsFor_ofTree hitems p⟩

def quotedName : Bytes := "begin (times (2 (\"x\" 'y')) [(group 'a') (refer 1)])"

def quotedNameTree : Element :=
  command rootName [command "begin" [], command "times" [command "2" [command "\"x\"" [literal "y"]],
    command rootName [command "group" [literal "a"], command "refer" [command "1" []]]]]

theorem exists_accountsFor_quotedName :
    let a := ofTree quotedNameTree.normalize "^(?:(a)\\1)\x7b2\x7d"
    run quotedName = .ok a ∧ a.commands = 9 ∧ a.literals = 2 ∧ a.captureGroups = 1 ∧ a.hasBackrefs ∧
      ∃ ts, Token.read quotedName = .ok ts ∧ a.AccountsFor ts := by
  intro a
  have htree : parse quotedName = .ok quotedNameTree := by decide +kernel
  have ha : run quotedName = .ok a := run_of_emit htree (by decide +kernel)
  exact ⟨ha, by decide +kernel, by decide +kernel, by decide +kernel, by decide +kernel, exists_accountsFor ha⟩

end Analysis

end VerboseExpr
