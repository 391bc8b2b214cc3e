import Mathlib.Data.List.Nodup
import VerboseExpr.Proofs.Element.Parse

/-!
What is wrong with tokens that have no tree. Either going through their brackets from left to right comes upon
a closing bracket without a partner of its kind, or it leaves some open, or a group that is complete has a
bracket where its name should be. In the last case the fault is found among tokens whose brackets have been made
round. Main statements: which of these a fault stands for, and how its offset and its token are related to the
tokens of the source.
-/

namespace VerboseExpr.Element

section Scan

/-- The brackets that are open after some tokens, innermost first, where `opens` are open before them; or the
first closing bracket that has no partner of its kind. -/
def scan (opens : List Token) : List Token → Except Token (List Token)
  | [] => .ok opens
  | t :: rest =>
    if t.isOpen then scan (t :: opens) rest
    else if t.isClose then
      match opens with
      | [] => .error t
      | opener :: outer => if closes opener t then scan outer rest else .error t
    else scan opens rest

def scanFault? : Except Token (List Token) → Option Fault
  | .error t => some (mismatched t)
  | .ok [] => none
  | .ok (opener :: _) => some (unfinished opener)

theorem scan_open {t : Token} (h : t.isOpen) (opens ts : List Token) :
    scan opens (t :: ts) = scan (t :: opens) ts := by
  rw [scan.eq_def]
  simp [h]

theorem scan_leaf {t : Token} (hopen : t.isOpen = false) (hclose : t.isClose = false) (opens ts : List Token) :
    scan opens (t :: ts) = scan opens ts := by
  rw [scan.eq_def]
  simp [hopen, hclose]

theorem scan_close {opener closer : Token} (h : closes opener closer) (opens ts : List Token) :
    scan (opener :: opens) (closer :: ts) = scan opens ts := by
  have hclose := isClose_of_closes h
  rw [scan.eq_def]
  simp [not_isOpen_of_isClose hclose, hclose, h]

theorem scan_stop {opens : List Token} {t : Token} (h : t.isClose) (hopens : ∀ o, opens.head? = some o → ¬ closes o t)
    (ts : List Token) : scan opens (t :: ts) = .error t := by
  rw [scan.eq_def]
  cases opens with
  | nil => simp [not_isOpen_of_isClose h, h]
  | cons o outer => simp [not_isOpen_of_isClose h, h, hopens o rfl]

theorem scan_append (opens ts us : List Token) :
    scan opens (ts ++ us) = (scan opens ts).bind fun os => scan os us := by
  fun_induction scan opens ts with
  | case1 => rfl
  | case2 opens t rest hopen ih => rw [List.cons_append, scan_open hopen, ih]
  | case3 t rest _ hclose =>
    rw [List.cons_append, scan_stop hclose (by simp)]
    rfl
  | case4 t rest _ _ opener outer hcloses ih => rw [List.cons_append, scan_close hcloses, ih]
  | case5 t rest _ hclose opener outer hcloses =>
    rw [List.cons_append, scan_stop hclose (by simpa using hcloses)]
    rfl
  | case6 opens t rest hopen hclose ih =>
    rw [List.cons_append, scan_leaf (by simpa using hopen) (by simpa using hclose), ih]

theorem scan_isOk_of_append {opens ts us os : List Token} (h : scan opens (ts ++ us) = .ok os) :
    (scan opens ts).isOk := by
  rw [scan_append] at h
  obtain ⟨before, hts, -⟩ := Except.bind_eq_ok_iff.1 h
  rw [hts]
  rfl

theorem Balanced.scan_eq {ts : List Token} (h : Balanced ts) (opens : List Token) : scan opens ts = .ok opens := by
  induction h generalizing opens with
  | nil => rfl
  | leaf hopen hclose _ ih => rw [scan_leaf hopen hclose, ih]
  | group hcloses _ _ ihbody ihts =>
    rw [List.cons_append, scan_open (isOpen_of_closes hcloses), scan_append, ihbody]
    dsimp only [Except.bind]
    rw [scan_close hcloses, ihts]

theorem Balanced.scan_append {ts : List Token} (h : Balanced ts) (opens us : List Token) :
    scan opens (ts ++ us) = scan opens us := by
  rw [Element.scan_append, h.scan_eq]
  rfl

theorem exists_of_scan_eq_error {opens ts : List Token} {t : Token} (h : scan opens ts = .error t) :
    t.isClose ∧ ∃ pre post, ts = pre ++ t :: post ∧ scan opens (pre ++ [t]) = .error t := by
  -- the token to blame is the one at which the scan stops, and nothing before it depends on what follows
  fun_induction scan opens ts with
  | case1 => simp at h
  | case2 opens u rest hopen ih =>
    obtain ⟨hclose, pre, post, rfl, hscan⟩ := ih h
    refine ⟨hclose, u :: pre, post, rfl, ?_⟩
    rw [List.cons_append, scan_open hopen, hscan]
  | case3 u rest hopen hclose =>
    obtain rfl : u = t := by simpa using h
    exact ⟨hclose, [], rest, rfl, scan_stop hclose (by simp) []⟩
  | case4 u rest hopen hclose opener outer hcloses ih =>
    obtain ⟨hclose, pre, post, rfl, hscan⟩ := ih h
    refine ⟨hclose, u :: pre, post, rfl, ?_⟩
    rw [List.cons_append, scan_close hcloses, hscan]
  | case5 u rest hopen hclose opener outer hcloses =>
    obtain rfl : u = t := by simpa using h
    exact ⟨hclose, [], rest, rfl, scan_stop hclose (by simpa using hcloses) []⟩
  | case6 opens u rest hopen hclose ih =>
    obtain ⟨hclose', pre, post, rfl, hscan⟩ := ih h
    refine ⟨hclose', u :: pre, post, rfl, ?_⟩
    rw [List.cons_append, scan_leaf (by simpa using hopen) (by simpa using hclose), hscan]

theorem mem_of_scan_eq_ok {opens ts os : List Token} (h : scan opens ts = .ok os) :
    ∀ o ∈ os, o ∈ opens ∨ (o ∈ ts ∧ o.isOpen) := by
  fun_induction scan opens ts with
  | case1 opens =>
    obtain rfl : opens = os := by simpa using h
    exact fun o ho => .inl ho
  | case2 opens t rest hopen ih =>
    intro o ho
    obtain hmem | ⟨hrest, hisOpen⟩ := ih h o ho
    . cases List.mem_cons.1 hmem with
      | inl heq => exact .inr ⟨heq ▸ List.mem_cons_self, heq ▸ hopen⟩
      | inr hopens => exact .inl hopens
    . exact .inr ⟨List.mem_cons_of_mem t hrest, hisOpen⟩
  | case3 | case5 => simp at h
  | case4 t rest _ _ opener outer _ ih =>
    intro o ho
    exact (ih h o ho).imp (List.mem_cons_of_mem opener) fun hrest => ⟨List.mem_cons_of_mem t hrest.1, hrest.2⟩
  | case6 opens t rest _ _ ih =>
    intro o ho
    exact (ih h o ho).imp_right fun hrest => ⟨List.mem_cons_of_mem t hrest.1, hrest.2⟩

theorem fault_cut (opens inner ts : List Token) : (cut opens inner ts).fault = scanFault? (scan opens ts) := by
  fun_induction cut opens inner ts with
  | case1 | case2 => rfl
  | case3 opens inner t rest hopen ih => rw [ih, scan_open hopen]
  | case4 inner t rest _ hclose =>
    rw [scan_stop hclose (by simp)]
    rfl
  | case5 inner t rest _ _ opener outer hcloses hempty ih =>
    rw [List.isEmpty_iff.1 hempty, scan_close hcloses]
    exact ih
  | case6 inner t rest _ _ opener outer hcloses _ ih => rw [ih, scan_close hcloses]
  | case7 inner t rest _ hclose opener outer hcloses =>
    rw [scan_stop hclose (by simpa using hcloses)]
    rfl
  | case8 opens inner t rest hopen hclose hempty ih =>
    rw [List.isEmpty_iff.1 hempty, scan_leaf (Bool.eq_false_iff.2 hopen) (Bool.eq_false_iff.2 hclose)]
    exact ih
  | case9 opens inner t rest hopen hclose _ ih =>
    rw [ih, scan_leaf (Bool.eq_false_iff.2 hopen) (Bool.eq_false_iff.2 hclose)]

end Scan

section Faults

theorem Balanced.arguments_groupTokens_eq_error_iff {opener closer : Token} (h : closes opener closer)
    {body : List Token} (hbody : Balanced body) (f : Fault) :
    arguments (Element.groupTokens opener body) = .error f ↔ arguments body = .error f := by
  rcases (closes_iff opener closer).1 h with ⟨ho, -⟩ | ⟨ho, -⟩
  . rw [groupTokens_round ho, hbody.arguments_rounded]
  . rw [groupTokens_square ho, arguments_leaf root_not_bracket.1 root_not_bracket.2, hbody.arguments_rounded]
    exact Except.map_eq_error_iff

end Faults

section Nameless

/-- In the place of a group's name there is a bracket, and `f` is how this is reported: it is the end of the
group itself, or it begins a group of which the end is then taken for one bracket too many. -/
inductive Nameless (ts : List Token) : Fault → Prop where
  | empty (pre post : List Token) {opener closer : Token} :
    ts = pre ++ (opener :: closer :: post) → opener.text = [0x28] → closer.text = [0x29] → Nameless ts emptyGroup
  | group (pre post : List Token) {body : List Token} {opener first closer : Token} :
    ts = pre ++ (opener :: first :: body ++ closer :: post) → opener.text = [0x28] → closes first closer →
    Balanced body → Nameless ts (mismatched ⟨[0x29], closer.offset⟩)

theorem Nameless.inside {ts : List Token} {f : Fault} (h : Nameless ts f) (pre post : List Token) :
    Nameless (pre ++ (ts ++ post)) f := by
  cases h with
  | empty pre' post' heq ho hc => exact Nameless.empty (pre ++ pre') (post' ++ post) (by simp [heq]) ho hc
  | group pre' post' heq ho hcloses hbody =>
    exact Nameless.group (pre ++ pre') (post' ++ post) (by simp [heq]) ho hcloses hbody

theorem Nameless.cons {ts : List Token} {f : Fault} (h : Nameless ts f) (t : Token) : Nameless (t :: ts) f := by
  simpa using h.inside [t] []

theorem Nameless.append {ts : List Token} {f : Fault} (h : Nameless ts f) (pre : List Token) :
    Nameless (pre ++ ts) f := by
  simpa using h.inside pre []

theorem nameless_group {opener closer : Token} {body : List Token} {f : Fault} (hcloses : closes opener closer)
    (hbody : Balanced body) (hlegible : ∀ t ∈ body, Legible t)
    (ih : ∀ us, us.length ≤ body.length → Balanced us → (∀ t ∈ us, Legible t) → arguments us = .error f →
      Nameless us f)
    (hf : represent (groupTokens opener body) = .error f) : Nameless (opener :: body ++ [closer]) f := by
  have hinside : arguments body = .error f → Nameless (opener :: body ++ [closer]) f := fun herror =>
    (ih body (Nat.le_refl _) hbody hlegible herror).inside [opener] [closer]
  rcases (closes_iff opener closer).1 hcloses with ⟨ho, hc⟩ | ⟨ho, hc⟩
  . cases hbody with
    | nil =>
      rw [groupTokens_round ho, rounded, List.flatMap_nil, represent_nil, Except.error.injEq] at hf
      rw [← hf]
      exact Nameless.empty [] [] rfl ho hc
    | @leaf name body hopen hclose hbody =>
      rw [represent_round ho hopen hclose hbody, Except.map_eq_error_iff] at hf
      apply hinside
      obtain ⟨e, hleaf⟩ := (hlegible name List.mem_cons_self).exists_leaf (by simp [hopen, hclose])
      rw [arguments_leaf hopen hclose, hleaf.leaf_eq, hf]
      rfl
    | @group first last inner after hfirst hinner hafter =>
      -- the first bracket is taken for the name, so that nothing is left for the last one to close
      rw [groupTokens_round ho, rounded_group hfirst, List.cons_append, represent_cons, Except.map_eq_error_iff,
        (Balanced.groupTokens hfirst hinner.rounded).arguments_append_close rfl] at hf
      cases hargs : arguments (groupTokens first inner) with
      | error g =>
        rw [hargs] at hf
        obtain rfl : g = f := by simpa [Except.bind] using hf
        rw [Balanced.arguments_groupTokens_eq_error_iff hfirst hinner] at hargs
        have hlength : inner.length ≤ (first :: inner ++ last :: after).length := by
          simp only [List.length_append, List.length_cons]
          omega
        have hnameless := ih inner hlength hinner (fun t ht => hlegible t (by simp [ht])) hargs
        simpa using hnameless.inside [opener, first] (last :: after ++ [closer])
      | ok es =>
        rw [hargs] at hf
        obtain rfl : mismatched ⟨[0x29], last.offset⟩ = f := by simpa [Except.bind] using hf
        exact Nameless.group [] (after ++ [closer]) (by simp) ho hfirst hinner
  . rw [represent_square ho hbody, Except.map_eq_error_iff] at hf
    exact hinside hf

theorem Balanced.nameless {ts : List Token} (h : Balanced ts) (hts : ∀ t ∈ ts, Legible t) {f : Fault}
    (hf : arguments ts = .error f) : Nameless ts f := by
  match ts, h with
  | _, .nil => simp [arguments_nil] at hf
  | _, @Balanced.leaf t ts hopen hclose hbalanced =>
    obtain ⟨e, hleaf⟩ := (hts t List.mem_cons_self).exists_leaf (by simp [hopen, hclose])
    rw [arguments_leaf hopen hclose, hleaf.leaf_eq] at hf
    have hrest := Except.map_eq_error_iff.1 hf
    exact (hbalanced.nameless (fun u hu => hts u (List.mem_cons_of_mem t hu)) hrest).cons t
  | _, @Balanced.group opener closer body ts hcloses hbody hbalanced =>
    rw [arguments_group hcloses hbody] at hf
    cases Except.bind_cons_eq_error hf with
    | inl hgroup =>
      have hnameless := nameless_group hcloses hbody (fun t ht => hts t (by simp [ht]))
        (fun us hlength hus hlegible herror => hus.nameless hlegible herror) hgroup
      simpa using hnameless.inside [] ts
    | inr hrest =>
      have hnameless := hbalanced.nameless (fun t ht => hts t (by simp [ht])) hrest
      simpa using hnameless.append (opener :: body ++ [closer])
termination_by ts.length
decreasing_by
  all_goals
    simp only [List.length_cons, List.length_append]
    omega

end Nameless

section Diagnosis

theorem Cut.fault_of_arguments {c : Cut} {f : Fault} (hpieces : c.pieces = []) (hf : c.arguments = .error f) :
    c.fault = some f := by
  rw [Cut.arguments, hpieces, List.mapM_nil] at hf
  cases hfault : c.fault with
  | none => simp [hfault, bind, Except.bind, pure, Except.pure] at hf
  | some g => simpa [hfault, bind, Except.bind, pure, Except.pure] using hf

theorem closed_or_pieces_eq_nil (opener : Token) (ts : List Token) :
    (∃ body closer after, ts = body ++ closer :: after ∧ Balanced body ∧ closes opener closer) ∨
      ∀ opens inner, (cut (opener :: opens) inner ts).pieces = [] := by
  match ts with
  | [] => exact .inr fun opens inner => rfl
  | t :: rest =>
    by_cases hopen : t.isOpen
    . -- a bracket that opens here has to be closed first, and the search goes on behind its group
      obtain ⟨body, closer, after, rfl, hbody, hcloses⟩ | hpieces := closed_or_pieces_eq_nil t rest
      . obtain ⟨body', closer', after', rfl, hbody', hcloses'⟩ | hpieces := closed_or_pieces_eq_nil opener after
        . exact .inl ⟨t :: body ++ closer :: body', closer', after', by simp,
            Balanced.group hcloses hbody hbody', hcloses'⟩
        . refine .inr fun opens inner => ?_
          rw [cut_open _ _ hopen, hbody.cut_append, cut_close_inside _ _ opener hcloses]
          exact hpieces opens _
      . refine .inr fun opens inner => ?_
        rw [cut_open _ _ hopen]
        exact hpieces _ _
    . rw [Bool.not_eq_true] at hopen
      by_cases hclose : t.isClose
      . by_cases hcloses : closes opener t
        . exact .inl ⟨[], t, rest, rfl, Balanced.nil, hcloses⟩
        . refine .inr fun opens inner => ?_
          rw [cut.eq_def]
          simp [hopen, hclose, hcloses]
      . rw [Bool.not_eq_true] at hclose
        obtain ⟨body, closer, after, rfl, hbody, hcloses⟩ | hpieces := closed_or_pieces_eq_nil opener rest
        . exact .inl ⟨t :: body, closer, after, rfl, Balanced.leaf hopen hclose hbody, hcloses⟩
        . refine .inr fun opens inner => ?_
          rw [cut_leaf_inside opens inner opener hopen hclose]
          exact hpieces opens _
termination_by ts.length
decreasing_by
  all_goals
    simp_all only [List.length_cons, List.length_append]
    omega

/-- Why some tokens have no arguments: what is wrong with their brackets, or with the names of their groups up to
a place where all brackets are closed. -/
inductive Diagnosis (ts : List Token) (f : Fault) : Prop where
  | brackets : scanFault? (scan [] ts) = some f → Diagnosis ts f
  | name {done rest : List Token} : ts = done ++ rest → Balanced done → Nameless done f → Diagnosis ts f

theorem Balanced.append {ts us : List Token} (hts : Balanced ts) (hus : Balanced us) : Balanced (ts ++ us) := by
  induction hts with
  | nil => exact hus
  | leaf hopen hclose _ ih => exact Balanced.leaf hopen hclose ih
  | group hcloses hbody _ _ ih =>
    rw [List.append_assoc]
    exact Balanced.group hcloses hbody ih

theorem Diagnosis.append {ts us : List Token} {f : Fault} (h : Balanced ts) (hus : Diagnosis us f) :
    Diagnosis (ts ++ us) f := by
  cases hus with
  | brackets hscan =>
    apply Diagnosis.brackets
    rw [h.scan_append, hscan]
  | @name done rest heq hdone hnameless =>
    exact Diagnosis.name (by rw [heq, List.append_assoc]) (h.append hdone) (hnameless.append ts)

theorem diagnosis_of_arguments {ts : List Token} (hts : ∀ t ∈ ts, Legible t) {f : Fault}
    (hf : arguments ts = .error f) : Diagnosis ts f := by
  match ts with
  | [] => simp [arguments_nil] at hf
  | t :: rest =>
    rcases hts t List.mem_cons_self with hopen | hclose | ⟨e, hleaf⟩
    . obtain ⟨body, closer, after, rfl, hbody, hcloses⟩ | hpieces := closed_or_pieces_eq_nil t rest
      . have hgroup : Balanced (t :: body ++ [closer]) := Balanced.group hcloses hbody Balanced.nil
        have hlist : t :: (body ++ closer :: after) = (t :: body ++ [closer]) ++ after := by simp
        rw [← List.cons_append, arguments_group hcloses hbody] at hf
        rw [hlist]
        cases Except.bind_cons_eq_error hf with
        | inl herror =>
          have hlegible : ∀ u ∈ body, Legible u := fun u hu => hts u (by simp [hu])
          have hnameless := nameless_group hcloses hbody hlegible (fun us _ hus hlegible => hus.nameless hlegible)
            herror
          exact Diagnosis.name rfl hgroup hnameless
        | inr herror =>
          have hlegible : ∀ u ∈ after, Legible u := fun u hu => hts u (by simp [hu])
          exact Diagnosis.append hgroup (diagnosis_of_arguments hlegible herror)
      . -- nothing is cut off behind a bracket that stays open, so there is no fault but that of the cut
        apply Diagnosis.brackets
        rw [← fault_cut [] []]
        apply Cut.fault_of_arguments _ hf
        rw [cut_open [] [] hopen]
        exact hpieces [] _
    . rw [arguments_close hclose, Except.error.injEq] at hf
      apply Diagnosis.brackets
      rw [scan, not_isOpen_of_isClose hclose, hclose, ← hf]
      rfl
    . -- a leaf is read without a fault, so that the fault is in what follows
      rw [arguments_leaf hleaf.not_bracket.1 hleaf.not_bracket.2, hleaf.leaf_eq] at hf
      have hrest := Except.map_eq_error_iff.1 hf
      have hdiagnosis := diagnosis_of_arguments (fun u hu => hts u (List.mem_cons_of_mem t hu)) hrest
      exact Diagnosis.append (Balanced.leaf hleaf.not_bracket.1 hleaf.not_bracket.2 Balanced.nil) hdiagnosis
termination_by ts.length
decreasing_by
  all_goals
    simp_all only [List.length_cons, List.length_append]
    omega

end Diagnosis

section Sources

variable {source : Bytes} {ts : List Token} {f : Fault}

theorem diagnosis_of_parse (hread : Token.read source = .ok ts) (hf : parse source = .error f) : Diagnosis ts f := by
  rw [parse_eq_map_arguments hread, Except.map_eq_error_iff] at hf
  exact diagnosis_of_arguments (legible_of_read hread) hf

/-- A source that consists of tokens and has no tree is rejected for one of three reasons. Either a closing
bracket is to blame, whose offset is given. Or no closing bracket is wrong, but some brackets are left open, and
the innermost of them is given. Or a round bracket is closed at once; then no place is given. -/
theorem parse_fault_cases (hread : Token.read source = .ok ts) (hf : parse source = .error f) :
    f.stage = .parse ∧
      ((f.cause.message = Bytes.ofString "mismatched parentheses" ∧ ∃ t ∈ ts, t.isClose ∧ f.offset = t.offset) ∨
        (f.cause.message = Bytes.ofString "unfinished expression" ∧ ∃ opener ∈ ts, ∃ outer,
          scan [] ts = .ok (opener :: outer) ∧ f.offset = opener.offset ∧ f.token = opener.text) ∨
        (f.cause.message = Bytes.ofString "empty group" ∧ f.offset = -1 ∧ ∃ pre opener closer post,
          ts = pre ++ opener :: closer :: post ∧ opener.text = [0x28] ∧ closer.text = [0x29])) := by
  cases diagnosis_of_parse hread hf with
  | brackets hscan =>
    cases hresult : scan [] ts with
    | error t =>
      obtain ⟨hclose, pre, post, rfl, -⟩ := exists_of_scan_eq_error hresult
      obtain rfl : mismatched t = f := by simpa [hresult, scanFault?] using hscan
      exact ⟨rfl, .inl ⟨rfl, t, by simp, hclose, rfl⟩⟩
    | ok opens =>
      cases opens with
      | nil => simp [hresult, scanFault?] at hscan
      | cons opener outer =>
        obtain rfl : unfinished opener = f := by simpa [hresult, scanFault?] using hscan
        obtain hnil | hopener := mem_of_scan_eq_ok hresult opener List.mem_cons_self
        . simp at hnil
        . exact ⟨rfl, .inr (.inl ⟨rfl, opener, hopener.1, outer, rfl, rfl, rfl⟩)⟩
  | @name done rest heq _ hnameless =>
    cases hnameless with
    | @empty pre post opener closer hdone ho hc =>
      exact ⟨rfl, .inr (.inr ⟨rfl, rfl, pre, opener, closer, post ++ rest, by simp [heq, hdone], ho, hc⟩)⟩
    | @group pre post body opener first closer hdone ho hcloses hbody =>
      exact ⟨rfl, .inl ⟨rfl, closer, by simp [heq, hdone], isClose_of_closes hcloses, rfl⟩⟩

def deepTokens : List Token :=
  [⟨[0x28], 0⟩, ⟨Bytes.ofString "a", 1⟩, ⟨[0x28], 3⟩, ⟨[0x5B], 4⟩, ⟨Bytes.ofString "b", 5⟩, ⟨[0x5D], 6⟩,
    ⟨Bytes.ofString "c", 8⟩, ⟨[0x29], 9⟩, ⟨[0x29], 10⟩]

theorem parse_fault_cases_deep :
    let f := mismatched ⟨[0x29], 6⟩
    Token.read "(a ([b] c))" = .ok deepTokens ∧ parse "(a ([b] c))" = .error f ∧ f.stage = .parse ∧
      ((f.cause.message = Bytes.ofString "mismatched parentheses" ∧
          ∃ t ∈ deepTokens, t.isClose ∧ f.offset = t.offset) ∨
        (f.cause.message = Bytes.ofString "unfinished expression" ∧ ∃ opener ∈ deepTokens, ∃ outer,
          scan [] deepTokens = .ok (opener :: outer) ∧ f.offset = opener.offset ∧ f.token = opener.text) ∨
        (f.cause.message = Bytes.ofString "empty group" ∧ f.offset = -1 ∧ ∃ pre opener closer post,
          deepTokens = pre ++ opener :: closer :: post ∧ opener.text = [0x28] ∧ closer.text = [0x29])) := by
  intro f
  have hread : Token.read "(a ([b] c))" = .ok deepTokens := by decide +kernel
  have hf : parse "(a ([b] c))" = .error f := by decide +kernel
  have hcases := parse_fault_cases hread hf
  exact ⟨hread, hf, hcases⟩

theorem eq_of_offset_eq (hread : Token.read source = .ok ts) {t u : Token} (ht : t ∈ ts) (hu : u ∈ ts)
    (h : u.offset = t.offset) : u = t := by
  have hnodup : (ts.map (·.offset)).Nodup :=
    List.pairwise_map.2 ((Token.tiling_of_read hread).pairwise_offset.imp fun hlt => Int.ne_of_lt hlt)
  exact List.inj_on_of_nodup_map hnodup hu ht h

/-- The offset of a fault leads to one token of the source, and the token of the fault is its text; only if it is
a closing square bracket and the brackets up to it are in order, then the fault has a round one instead. -/
theorem parse_fault_token (hread : Token.read source = .ok ts) (hf : parse source = .error f) (ho : 0 ≤ f.offset) :
    ∃ pre t post, ts = pre ++ t :: post ∧ t.offset = f.offset ∧ (∀ u ∈ ts, u.offset = f.offset → u = t) ∧
      f.token = if t.text = [0x5D] ∧ (scan [] (pre ++ [t])).isOk then [0x29] else t.text := by
  have hunique : ∀ t ∈ ts, t.offset = f.offset → ∀ u ∈ ts, u.offset = f.offset → u = t :=
    fun t ht htf u hu huf => eq_of_offset_eq hread ht hu (huf.trans htf.symm)
  cases diagnosis_of_parse hread hf with
  | brackets hscan =>
    cases hresult : scan [] ts with
    | error t =>
      obtain ⟨-, pre, post, rfl, hstop⟩ := exists_of_scan_eq_error hresult
      obtain rfl : mismatched t = f := by simpa [hresult, scanFault?] using hscan
      refine ⟨pre, t, post, rfl, rfl, hunique t (by simp) rfl, ?_⟩
      rw [if_neg (by simp [hstop, Except.isOk, Except.toBool])]
      rfl
    | ok opens =>
      cases opens with
      | nil => simp [hresult, scanFault?] at hscan
      | cons opener outer =>
        obtain rfl : unfinished opener = f := by simpa [hresult, scanFault?] using hscan
        obtain hnil | ⟨hmem, hopen⟩ := mem_of_scan_eq_ok hresult opener List.mem_cons_self
        . simp at hnil
        . obtain ⟨pre, post, rfl⟩ := List.append_of_mem hmem
          refine ⟨pre, opener, post, rfl, rfl, hunique opener hmem rfl, ?_⟩
          have hsquare : opener.text ≠ [0x5D] := by
            rcases (isOpen_iff opener).1 hopen with h | h <;> simp [h]
          rw [if_neg (by simp [hsquare])]
          rfl
  | @name done rest heq hdone hnameless =>
    cases hnameless with
    | empty => exact absurd ho (by decide)
    | @group pre post body opener first closer hgroup hround hcloses hbody =>
      have hlist : ts = (pre ++ opener :: first :: body) ++ closer :: (post ++ rest) := by simp [heq, hgroup]
      have hmem : closer ∈ ts := by simp [hlist]
      refine ⟨_, closer, _, hlist, rfl, hunique closer hmem rfl, ?_⟩
      -- the brackets are in order beyond the closing bracket, hence up to it
      have hscan : (scan [] ((pre ++ opener :: first :: body) ++ [closer])).isOk := by
        have hsplit : done = ((pre ++ opener :: first :: body) ++ [closer]) ++ post := by simp [hgroup]
        have hok := hdone.scan_eq []
        rw [hsplit] at hok
        exact scan_isOk_of_append hok
      rcases (closes_iff first closer).1 hcloses with ⟨-, hc⟩ | ⟨-, hc⟩
      . rw [if_neg (by simp [hc]), hc]
        rfl
      . rw [if_pos ⟨hc, hscan⟩]
        rfl

def innerTokens : List Token :=
  [⟨[0x5B], 0⟩, ⟨Bytes.ofString "x", 1⟩, ⟨[0x28], 3⟩, ⟨[0x28], 4⟩, ⟨Bytes.ofString "a", 5⟩,
    ⟨Bytes.ofString "']'", 7⟩, ⟨[0x29], 10⟩, ⟨Bytes.ofString "b", 12⟩, ⟨[0x29], 13⟩, ⟨[0x5D], 14⟩,
    ⟨Bytes.ofString "c", 16⟩]

theorem parse_fault_token_deep :
    let f := mismatched ⟨[0x29], 10⟩
    Token.read "[x ((a ']') b)] c" = .ok innerTokens ∧ parse "[x ((a ']') b)] c" = .error f ∧ 0 ≤ f.offset ∧
      ∃ pre t post, innerTokens = pre ++ t :: post ∧ t.offset = f.offset ∧
        (∀ u ∈ innerTokens, u.offset = f.offset → u = t) ∧
        f.token = if t.text = [0x5D] ∧ (scan [] (pre ++ [t])).isOk then [0x29] else t.text := by
  intro f
  have hread : Token.read "[x ((a ']') b)] c" = .ok innerTokens := by decide +kernel
  have hf : parse "[x ((a ']') b)] c" = .error f := by decide +kernel
  have ho : 0 ≤ f.offset := by decide
  have htoken := parse_fault_token hread hf ho
  exact ⟨hread, hf, ho, htoken⟩

def squareTokens : List Token := [⟨[0x28], 0⟩, ⟨[0x5B], 1⟩, ⟨[0x5D], 2⟩, ⟨[0x29], 3⟩]

theorem parse_fault_token_square :
    let f := mismatched ⟨[0x29], 2⟩
    Token.read "([])" = .ok squareTokens ∧ parse "([])" = .error f ∧ f.offset = 2 ∧ f.token = [0x29] ∧
      ¬ ∃ t ∈ squareTokens, t.offset = f.offset ∧ f.token = t.text := by
  intro f
  have hread : Token.read "([])" = .ok squareTokens := by decide +kernel
  have hf : parse "([])" = .error f := by decide +kernel
  exact ⟨hread, hf, rfl, rfl, by decide⟩

end Sources

end VerboseExpr.Element
