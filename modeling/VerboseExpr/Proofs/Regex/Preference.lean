import VerboseExpr.Proofs.Regex.Literal

/-!
Which match the search of an automaton prefers. A thread prefers what the first of its followers prefers that
accepts anything at all. That no pair of places is visited twice does not change this: a visited place either
accepts nothing or prefers in more steps than are left. Main statement: the search finds what the first place
that accepts prefers.
-/

namespace VerboseExpr.Regex.Automaton

def Dead (p : Program) (subject : Array Char) (t : Thread) : Prop := ∀ stop, ¬Accepts p subject t stop

/-- After `n` steps, each to the first follower that accepts anything, the thread accepts at the place `stop` of
the subject. -/
inductive PrefersIn (p : Program) (subject : Array Char) : Nat → Thread → Nat → Prop where
  | here {t : Thread} : p[t.pc]? = some .accept → PrefersIn p subject 0 t t.pos
  | next {n stop : Nat} {t u : Thread} {inst : Inst} {before after : List Thread} :
    p[t.pc]? = some inst → follow inst subject t = before ++ u :: after →
    (∀ v ∈ before, Dead p subject v) → PrefersIn p subject n u stop → PrefersIn p subject (n + 1) t stop

/-- What the thread leads to: nothing, or the place where its preferred match ends. -/
def Resolves (p : Program) (subject : Array Char) (t : Thread) : Option Nat → Prop
  | none => Dead p subject t
  | some stop => ∃ n, PrefersIn p subject n t stop

section Preference

variable {p : Program} {subject : Array Char} {t : Thread} {n stop : Nat}

theorem PrefersIn.accepts (h : PrefersIn p subject n t stop) : Accepts p subject t stop := by
  induction h with
  | here hinst => exact ⟨0, AcceptsIn.here hinst⟩
  | @next n stop t u inst before after hinst hfollow _ _ ih =>
    obtain ⟨m, hm⟩ := ih
    exact ⟨m + 1, AcceptsIn.next hinst (by simp [hfollow]) hm⟩

theorem PrefersIn.of_first {u : Thread} {inst : Inst} {after : List Thread} (h : PrefersIn p subject n u stop)
    (hinst : p[t.pc]? = some inst) (hfollow : follow inst subject t = u :: after) :
    PrefersIn p subject (n + 1) t stop := by
  have hfirst : follow inst subject t = [] ++ u :: after := hfollow
  exact PrefersIn.next hinst hfirst (by simp) h

theorem PrefersIn.not_dead (h : PrefersIn p subject n t stop) : ¬Dead p subject t :=
  fun hdead => hdead stop h.accepts

theorem Dead.with_start (h : Dead p subject t) (i : Nat) : Dead p subject { t with start := i } := by
  rintro stop ⟨n, hn⟩
  exact h stop ⟨n, hn.with_start t.start⟩

theorem Dead.of_mem_follow {u : Thread} {inst : Inst} (h : Dead p subject t) (hinst : p[t.pc]? = some inst)
    (hu : u ∈ follow inst subject t) : Dead p subject u := by
  rintro stop ⟨n, hn⟩
  exact h stop ⟨n + 1, AcceptsIn.next hinst hu hn⟩

theorem PrefersIn.with_start (h : PrefersIn p subject n t stop) (i : Nat) :
    PrefersIn p subject n { t with start := i } stop := by
  induction h with
  | @here t hinst => exact PrefersIn.here (t := { t with start := i }) hinst
  | @next n stop t u inst before after hinst hfollow hbefore _ ih =>
    have hmoved := follow_start inst subject t i
    rw [hfollow, List.map_append, List.map_cons] at hmoved
    refine PrefersIn.next hinst hmoved ?_ ih
    rw [List.forall_mem_map]
    exact fun v hv => (hbefore v hv).with_start i

theorem eq_of_append_cons_eq {α : Type} {P : α → Prop} {xs xs' ys ys' : List α} {a b : α}
    (h : xs ++ a :: ys = xs' ++ b :: ys') (hxs : ∀ x ∈ xs, P x) (hxs' : ∀ x ∈ xs', P x) (ha : ¬P a) (hb : ¬P b) :
    a = b := by
  induction xs generalizing xs' with
  | nil =>
    cases xs' with
    | nil => exact (List.cons.inj h).1
    | cons x xs' =>
      obtain ⟨rfl, -⟩ := List.cons.inj h
      exact absurd (hxs' a List.mem_cons_self) ha
  | cons x xs ih =>
    cases xs' with
    | nil =>
      obtain ⟨rfl, -⟩ := List.cons.inj h
      exact absurd (hxs x List.mem_cons_self) hb
    | cons x' xs' =>
      exact ih (List.cons.inj h).2 (List.forall_mem_cons.1 hxs).2 (List.forall_mem_cons.1 hxs').2

theorem PrefersIn.steps_unique (h : PrefersIn p subject n t stop) {m stop' : Nat}
    (h' : PrefersIn p subject m t stop') : m = n := by
  induction h generalizing m stop' with
  | @here t hinst =>
    cases h' with
    | here _ => rfl
    | @next _ _ _ _ inst _ _ hinst' hfollow _ _ =>
      rw [hinst, Option.some.injEq] at hinst'
      subst hinst'
      simp [follow] at hfollow
  | @next n stop t u inst before after hinst hfollow hbefore hu ih =>
    cases h' with
    | here hinst' =>
      rw [hinst, Option.some.injEq] at hinst'
      subst hinst'
      simp [follow] at hfollow
    | @next m _ _ v inst' before' after' hinst' hfollow' hbefore' hv =>
      rw [hinst, Option.some.injEq] at hinst'
      subst hinst'
      rw [hfollow] at hfollow'
      obtain rfl := eq_of_append_cons_eq hfollow' hbefore hbefore' hu.not_dead hv.not_dead
      rw [ih hv]

end Preference

section Resolution

variable {p : Program} {subject : Array Char} {pc next i k : Nat}

theorem resolves_accept (hinst : p[pc]? = some .accept) : Resolves p subject ⟨pc, i, k⟩ (some i) :=
  ⟨0, PrefersIn.here hinst⟩

theorem follow_char (c : Char) (pc next i k : Nat) (subject : Array Char) :
    follow (.one (.single c) next) subject ⟨pc, i, k⟩ =
      if subject[i]? = some c then [⟨next, i + 1, k⟩] else [] := by
  rw [follow]
  cases subject[i]? with
  | none => rfl
  | some d => simp only [contains_single, Option.some.injEq]

theorem resolves_char {c : Char} {o : Option Nat} (hinst : p[pc]? = some (.one (.single c) next))
    (h : subject[i]? = some c → Resolves p subject ⟨next, i + 1, k⟩ o) :
    Resolves p subject ⟨pc, i, k⟩ (if subject[i]? = some c then o else none) := by
  split
  . next hc =>
    cases o with
    | none => exact fun stop haccepts => h hc stop ((accepts_char hinst).1 haccepts).2
    | some stop =>
      obtain ⟨n, hn⟩ := h hc
      have hfollow := follow_char c pc next i k subject
      rw [if_pos hc] at hfollow
      exact ⟨n + 1, hn.of_first hinst hfollow⟩
  . next hc => exact fun stop haccepts => hc ((accepts_char hinst).1 haccepts).1

theorem accepts_split {first second stop : Nat} (hinst : p[pc]? = some (.split first second)) :
    Accepts p subject ⟨pc, i, k⟩ stop ↔
      Accepts p subject ⟨first, i, k⟩ stop ∨ Accepts p subject ⟨second, i, k⟩ stop := by
  constructor
  . rintro ⟨n, hn⟩
    cases hn with
    | here hinst' =>
      rw [hinst] at hinst'
      simp at hinst'
    | @next n _ _ u _ hinst' hu hrest =>
      rw [hinst, Option.some.injEq] at hinst'
      subst hinst'
      simp only [follow, List.mem_cons, List.not_mem_nil, or_false] at hu
      obtain rfl | rfl := hu
      . exact Or.inl ⟨n, hrest⟩
      . exact Or.inr ⟨n, hrest⟩
  . rintro (⟨n, hn⟩ | ⟨n, hn⟩)
    . exact ⟨n + 1, AcceptsIn.next hinst (by simp [follow]) hn⟩
    . exact ⟨n + 1, AcceptsIn.next hinst (by simp [follow]) hn⟩

theorem resolves_split {first second : Nat} {o o' : Option Nat} (hinst : p[pc]? = some (.split first second))
    (h : Resolves p subject ⟨first, i, k⟩ o) (h' : Resolves p subject ⟨second, i, k⟩ o') :
    Resolves p subject ⟨pc, i, k⟩ (o.or o') := by
  cases o with
  | some stop =>
    obtain ⟨n, hn⟩ := h
    exact ⟨n + 1, hn.of_first hinst rfl⟩
  | none =>
    cases o' with
    | some stop =>
      obtain ⟨n, hn⟩ := h'
      have hfollow : follow (.split first second) subject ⟨pc, i, k⟩ = [⟨first, i, k⟩] ++ ⟨second, i, k⟩ :: [] := rfl
      exact ⟨n + 1, PrefersIn.next hinst hfollow (List.forall_mem_singleton.2 h) hn⟩
    | none =>
      intro stop haccepts
      obtain hfirst | hsecond := (accepts_split hinst).1 haccepts
      . exact h stop hfirst
      . exact h' stop hsecond

end Resolution

section Search

variable {p : Program} {subject : Array Char} {visited : Array Bool} {t : Thread} {rest : List Thread}

/-- What has been visited since is dead. -/
def DeadSince (p : Program) (subject : Array Char) (visited visited' : Array Bool) : Prop :=
  ∀ u, u.pos ≤ subject.size → visited'[slot subject u]? = some true →
    visited[slot subject u]? = some true ∨ Dead p subject u

theorem of_visit {u : Thread} (hslot : slot subject t < visited.size) (ht : t.pos ≤ subject.size)
    (hu : u.pos ≤ subject.size) (h : (visited.set (slot subject t) true)[slot subject u]? = some true) :
    visited[slot subject u]? = some true ∨ u = { t with start := u.start } := by
  rw [Array.getElem?_set] at h
  split at h
  . next heq => exact Or.inr (slot_inj ht hu heq)
  . exact Or.inl h

theorem DeadSince.visit {visited' : Array Bool} (hslot : slot subject t < visited.size) (ht : t.pos ≤ subject.size)
    (hdead : Dead p subject t) (h : DeadSince p subject (visited.set (slot subject t) true) visited') :
    DeadSince p subject visited visited' := by
  intro u hu hmark
  obtain hbefore | hdead' := h u hu hmark
  . obtain hold | heq := of_visit hslot ht hu hbefore
    . exact Or.inl hold
    . rw [heq]
      exact Or.inr (hdead.with_start u.start)
  . exact Or.inr hdead'

theorem search_dead (visited : Array Bool) {threads : List Thread} (hpos : ∀ t ∈ threads, t.pos ≤ subject.size)
    (hdead : ∀ t ∈ threads, Dead p subject t) :
    ∃ visited', visited'.size = visited.size ∧ DeadSince p subject visited visited' ∧
      ∀ more, search p subject visited (threads ++ more) = search p subject visited' more := by
  -- a dead thread has dead followers, and its place is marked without anything being found
  fun_induction search p subject visited threads with
  | case1 visited => exact ⟨visited, rfl, fun u _ h => Or.inl h, fun more => rfl⟩
  | case2 visited t rest hslot hv ih =>
    obtain ⟨visited', hsize, hsince, hsearch⟩ :=
      ih (List.forall_mem_cons.1 hpos).2 (List.forall_mem_cons.1 hdead).2
    refine ⟨visited', hsize, hsince, ?_⟩
    intro more
    rw [List.cons_append, search, dif_pos hslot, dif_pos hv, hsearch]
  | case3 visited t rest hslot hv _ hinst ih =>
    obtain ⟨htpos, hrestpos⟩ := List.forall_mem_cons.1 hpos
    obtain ⟨htdead, hrestdead⟩ := List.forall_mem_cons.1 hdead
    obtain ⟨visited', hsize, hsince, hsearch⟩ := ih hrestpos hrestdead
    refine ⟨visited', by rw [hsize, Array.size_set], hsince.visit hslot htpos htdead, ?_⟩
    intro more
    rw [List.cons_append, search, dif_pos hslot, dif_neg hv, hinst]
    exact hsearch more
  | case4 visited t rest hslot hv hinst =>
    exact absurd ⟨0, AcceptsIn.here hinst⟩ ((List.forall_mem_cons.1 hdead).1 t.pos)
  | case5 visited t rest hslot hv _ inst hne hinst ih =>
    obtain ⟨htpos, hrestpos⟩ := List.forall_mem_cons.1 hpos
    obtain ⟨htdead, hrestdead⟩ := List.forall_mem_cons.1 hdead
    have hallpos : ∀ u ∈ follow inst subject t ++ rest, u.pos ≤ subject.size :=
      List.forall_mem_append.2 ⟨fun u hu => (of_mem_follow hu).2.2 htpos, hrestpos⟩
    have halldead : ∀ u ∈ follow inst subject t ++ rest, Dead p subject u :=
      List.forall_mem_append.2 ⟨fun u hu => htdead.of_mem_follow hinst hu, hrestdead⟩
    obtain ⟨visited', hsize, hsince, hsearch⟩ := ih hallpos halldead
    refine ⟨visited', by rw [hsize, Array.size_set], hsince.visit hslot htpos htdead, ?_⟩
    intro more
    rw [List.cons_append, search, dif_pos hslot, dif_neg hv, hinst, ← hsearch, List.append_assoc]
    cases inst with
    | accept => contradiction
    | _ => rfl
  | case6 visited t rest hslot ih =>
    obtain ⟨visited', hsize, hsince, hsearch⟩ :=
      ih (List.forall_mem_cons.1 hpos).2 (List.forall_mem_cons.1 hdead).2
    refine ⟨visited', hsize, hsince, ?_⟩
    intro more
    rw [List.cons_append, search, dif_neg hslot, hsearch]

/-- A visited place is dead or prefers in more than `n` steps. -/
def Beyond (p : Program) (subject : Array Char) (n : Nat) (visited : Array Bool) : Prop :=
  ∀ u, u.pos ≤ subject.size → visited[slot subject u]? = some true →
    Dead p subject u ∨ ∃ m > n, ∃ stop, PrefersIn p subject m u stop

theorem Beyond.since {n : Nat} {visited' : Array Bool} (h : Beyond p subject n visited)
    (hsince : DeadSince p subject visited visited') : Beyond p subject n visited' := by
  intro u hu hmark
  obtain hbefore | hdead := hsince u hu hmark
  . exact h u hu hbefore
  . exact Or.inl hdead

theorem Beyond.visit {n stop : Nat} (h : Beyond p subject (n + 1) visited) (ht : t.pos ≤ subject.size)
    (hslot : slot subject t < visited.size) (hprefers : PrefersIn p subject (n + 1) t stop) :
    Beyond p subject n (visited.set (slot subject t) true) := by
  intro u hu hmark
  obtain hold | heq := of_visit hslot ht hu hmark
  . obtain hdead | ⟨m, hm, hrest⟩ := h u hu hold
    . exact Or.inl hdead
    . exact Or.inr ⟨m, Nat.lt_trans (Nat.lt_succ_self n) hm, hrest⟩
  . rw [heq]
    exact Or.inr ⟨n + 1, Nat.lt_succ_self n, stop, hprefers.with_start u.start⟩

theorem Beyond.not_visited {n stop : Nat} (h : Beyond p subject n visited) (ht : t.pos ≤ subject.size)
    (hslot : slot subject t < visited.size) (hprefers : PrefersIn p subject n t stop) :
    ¬visited[slot subject t] = true := by
  intro hv
  have hmark : visited[slot subject t]? = some true := by rw [Array.getElem?_eq_getElem hslot, hv]
  obtain hdead | ⟨m, hm, stop', hother⟩ := h t ht hmark
  . exact hprefers.not_dead hdead
  . have := hprefers.steps_unique hother
    omega

theorem search_prefers {n stop : Nat} (h : PrefersIn p subject n t stop) (ht : t.pos ≤ subject.size)
    (hsize : visited.size = p.size * (subject.size + 1)) (hbeyond : Beyond p subject n visited) :
    search p subject visited (t :: rest) = some (t.start, stop) := by
  -- along the steps, each of which leaves fewer of them than any visited place has
  induction h generalizing visited rest with
  | @here t hinst =>
    obtain ⟨hpc, -⟩ := Array.getElem?_eq_some_iff.1 hinst
    have hslot : slot subject t < visited.size := hsize ▸ slot_lt hpc ht
    rw [search, dif_pos hslot, dif_neg (hbeyond.not_visited ht hslot (PrefersIn.here hinst)), hinst]
  | @next n stop t u inst before after hinst hfollow hbefore hu ih =>
    have hprefers : PrefersIn p subject (n + 1) t stop := PrefersIn.next hinst hfollow hbefore hu
    obtain ⟨hpc, -⟩ := Array.getElem?_eq_some_iff.1 hinst
    have hslot : slot subject t < visited.size := hsize ▸ slot_lt hpc ht
    have hmem : ∀ v ∈ before ++ u :: after, v.start = t.start ∧ v.pos ≤ subject.size := by
      intro v hv
      rw [← hfollow] at hv
      exact ⟨(of_mem_follow hv).1, (of_mem_follow hv).2.2 ht⟩
    obtain ⟨hbeforepos, hafterpos⟩ := List.forall_mem_append.1 hmem
    obtain ⟨hustart, hupos⟩ := hafterpos u List.mem_cons_self
    obtain ⟨visited', hsize', hsince, hsearch⟩ := search_dead (visited.set (slot subject t) true)
      (fun v hv => (hbeforepos v hv).2) hbefore
    have hstep : search p subject visited (t :: rest) =
        search p subject (visited.set (slot subject t) true) (follow inst subject t ++ rest) := by
      rw [search, dif_pos hslot, dif_neg (hbeyond.not_visited ht hslot hprefers), hinst]
      cases inst with
      | accept => simp [follow] at hfollow
      | _ => rfl
    -- the followers before the preferred one are passed over
    rw [hstep, hfollow, List.append_assoc, hsearch, List.cons_append]
    rw [ih hupos (by rw [hsize', Array.size_set, hsize]) ((hbeyond.visit ht hslot hprefers).since hsince)]
    rw [hustart]

theorem search_resolves {entry : Nat} {f : Nat → Option Nat} {starts : List Nat}
    (h : ∀ i ∈ starts, i ≤ subject.size ∧ Resolves p subject ⟨entry, i, i⟩ (f i))
    (hsize : visited.size = p.size * (subject.size + 1)) (hbeyond : ∀ n, Beyond p subject n visited) :
    search p subject visited (starts.map fun i => ⟨entry, i, i⟩) = starts.findSome? fun i => (f i).map (i, ·) := by
  induction starts generalizing visited with
  | nil =>
    rw [List.map_nil, search]
    rfl
  | cons i starts ih =>
    obtain ⟨⟨hipos, hi⟩, hrest⟩ := List.forall_mem_cons.1 h
    rw [List.map_cons, List.findSome?_cons]
    cases hf : f i with
    | some stop =>
      rw [hf] at hi
      obtain ⟨n, hn⟩ := hi
      rw [search_prefers hn hipos hsize (hbeyond n)]
      rfl
    | none =>
      rw [hf] at hi
      obtain ⟨visited', hsize', hsince, hsearch⟩ :=
        search_dead visited (List.forall_mem_singleton.2 hipos) (List.forall_mem_singleton.2 hi)
      rw [← List.singleton_append, hsearch]
      exact ih hrest (hsize'.trans hsize) fun n => (hbeyond n).since hsince

/-- If it is known what the automaton leads to from every place, then so is what is found. -/
theorem find?_of_resolves {r : Regex} {f : Nat → Option Nat}
    (h : ∀ i, Resolves (automaton r).2 subject ⟨(automaton r).1, i, i⟩ (f i)) :
    find? r subject = (List.range (subject.size + 1)).findSome? fun i => (f i).map (i, ·) := by
  rw [find?_eq]
  apply search_resolves
  . intro i hi
    exact ⟨Nat.le_of_lt_succ (List.mem_range.1 hi), h i⟩
  . exact Array.size_replicate
  . intro n u _ hmark
    simp [Array.getElem?_replicate] at hmark

end Search

end VerboseExpr.Regex.Automaton
