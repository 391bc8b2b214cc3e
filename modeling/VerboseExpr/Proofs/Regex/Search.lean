import VerboseExpr.Regex.Automaton.Search

/-!
What the search of an automaton finds. A thread accepts if following it leads to an accepting instruction.
That no pair of places is visited twice loses nothing: as long as a visited place accepts, one of the threads
that are still to be followed accepts in fewer steps. Main statements: what is found is accepted, and nothing
is accepted from an earlier place; if nothing is found, then nothing is accepted from any place.
-/

namespace VerboseExpr.Regex.Automaton

/-- After `n` steps the thread accepts, at the place `stop` of the subject. -/
inductive AcceptsIn (p : Program) (subject : Array Char) : Nat → Thread → Nat → Prop where
  | here {t : Thread} : p[t.pc]? = some .accept → AcceptsIn p subject 0 t t.pos
  | next {n stop : Nat} {t u : Thread} {inst : Inst} :
    p[t.pc]? = some inst → u ∈ follow inst subject t → AcceptsIn p subject n u stop →
    AcceptsIn p subject (n + 1) t stop

def Accepts (p : Program) (subject : Array Char) (t : Thread) (stop : Nat) : Prop :=
  ∃ n, AcceptsIn p subject n t stop

/-- One of the threads accepts in fewer than `n` steps. -/
def AcceptsBefore (p : Program) (subject : Array Char) (n : Nat) (threads : List Thread) : Prop :=
  ∃ t ∈ threads, ∃ m < n, ∃ stop, AcceptsIn p subject m t stop

/-- Whatever a visited place accepts goes through one of the threads. -/
def Covered (p : Program) (subject : Array Char) (visited : Array Bool) (threads : List Thread) : Prop :=
  ∀ t n stop, t.pos ≤ subject.size → visited[slot subject t]? = some true →
    AcceptsIn p subject n t stop → AcceptsBefore p subject n threads

/-- The automaton of the regular expression leads from one place of the subject to another. -/
def Matches (r : Regex) (subject : Array Char) (start stop : Nat) : Prop :=
  Accepts (automaton r).2 subject ⟨(automaton r).1, start, start⟩ stop

section Follow

variable {subject : Array Char} {inst : Inst} {t u : Thread}

theorem follow_start (inst : Inst) (subject : Array Char) (t : Thread) (i : Nat) :
    follow inst subject { t with start := i } = (follow inst subject t).map ({ · with start := i }) := by
  cases inst with
  | accept | fail => rfl
  | one s next =>
    rw [follow, follow]
    cases subject[t.pos]? with
    | none => rfl
    | some c =>
      dsimp only
      split <;> rfl
  | test a next =>
    rw [follow, follow]
    split <;> rfl
  | split first second => rfl

theorem of_mem_follow (h : u ∈ follow inst subject t) :
    u.start = t.start ∧ t.pos ≤ u.pos ∧ (t.pos ≤ subject.size → u.pos ≤ subject.size) := by
  cases inst with
  | accept | fail => simp [follow] at h
  | one s next =>
    rw [follow] at h
    split at h
    . next c hc =>
      obtain ⟨hlt, -⟩ := Array.getElem?_eq_some_iff.1 hc
      split at h
      . obtain rfl := List.mem_singleton.1 h
        exact ⟨rfl, Nat.le_succ t.pos, fun _ => hlt⟩
      . simp at h
    . simp at h
  | test a next =>
    rw [follow] at h
    split at h
    . obtain rfl := List.mem_singleton.1 h
      exact ⟨rfl, Nat.le_refl t.pos, id⟩
    . simp at h
  | split first second =>
    simp only [follow, List.mem_cons, List.not_mem_nil, or_false] at h
    obtain rfl | rfl := h
    . exact ⟨rfl, Nat.le_refl t.pos, id⟩
    . exact ⟨rfl, Nat.le_refl t.pos, id⟩

theorem slot_inj (ht : t.pos ≤ subject.size) (hu : u.pos ≤ subject.size)
    (h : slot subject t = slot subject u) : u = { t with start := u.start } := by
  have hdiv : ∀ v : Thread, v.pos ≤ subject.size → slot subject v / (subject.size + 1) = v.pc := by
    intro v hv
    rw [slot, Nat.add_comm, Nat.add_mul_div_right _ _ (Nat.succ_pos _), Nat.div_eq_of_lt (by omega),
      Nat.zero_add]
  have hpc : u.pc = t.pc := by rw [← hdiv u hu, ← hdiv t ht, h]
  have hpos : u.pos = t.pos := by
    rw [slot, slot, hpc] at h
    omega
  rw [← hpc, ← hpos]

theorem slot_lt {p : Program} (hpc : t.pc < p.size) (hpos : t.pos ≤ subject.size) :
    slot subject t < p.size * (subject.size + 1) := by
  have hle : (t.pc + 1) * (subject.size + 1) ≤ p.size * (subject.size + 1) :=
    Nat.mul_le_mul_right _ hpc
  rw [Nat.add_mul, Nat.one_mul] at hle
  rw [slot]
  omega

end Follow

section Acceptance

variable {p : Program} {subject : Array Char} {t : Thread} {n stop : Nat}

theorem AcceptsIn.with_start (h : AcceptsIn p subject n t stop) (i : Nat) :
    AcceptsIn p subject n { t with start := i } stop := by
  induction h with
  | @here t hinst => exact AcceptsIn.here (t := { t with start := i }) hinst
  | @next n stop t u inst hinst hu _ ih =>
    have hmem : { u with start := i } ∈ follow inst subject { t with start := i } := by
      rw [follow_start]
      exact List.mem_map_of_mem hu
    exact AcceptsIn.next hinst hmem ih

theorem AcceptsIn.getElem? (h : AcceptsIn p subject n t stop) : ∃ inst, p[t.pc]? = some inst := by
  cases h with
  | here hinst => exact ⟨_, hinst⟩
  | next hinst _ _ => exact ⟨_, hinst⟩

theorem AcceptsIn.acceptsBefore {inst : Inst} (h : AcceptsIn p subject n t stop)
    (hinst : p[t.pc]? = some inst) (hne : inst ≠ .accept) :
    AcceptsBefore p subject n (follow inst subject t) := by
  cases h with
  | here haccept =>
    rw [hinst, Option.some.injEq] at haccept
    contradiction
  | @next n _ _ u _ hinst' hu hrest =>
    rw [hinst, Option.some.injEq] at hinst'
    subst hinst'
    exact ⟨u, hu, n, Nat.lt_succ_self n, stop, hrest⟩

theorem AcceptsBefore.append_left {ts : List Thread} (h : AcceptsBefore p subject n ts) (us : List Thread) :
    AcceptsBefore p subject n (ts ++ us) := by
  obtain ⟨t, ht, hrest⟩ := h
  exact ⟨t, List.mem_append_left us ht, hrest⟩

end Acceptance

section Covering

variable {p : Program} {subject : Array Char} {visited : Array Bool} {t : Thread} {rest : List Thread}

theorem covered_replicate (p : Program) (subject : Array Char) (n : Nat) :
    Covered p subject (Array.replicate n false) [] := by
  intro t m stop _ hvisited
  simp [Array.getElem?_replicate] at hvisited

theorem Covered.acceptsBefore (h : Covered p subject visited (t :: rest)) (hpos : t.pos ≤ subject.size)
    (hvisited : visited[slot subject t]? = some true) {n stop : Nat}
    (haccepts : AcceptsIn p subject n t stop) : AcceptsBefore p subject n rest := by
  -- The induction is on the number of steps: a shorter run may come back to the same place.
  induction n using Nat.strongRecOn generalizing stop with
  | ind n ih =>
    obtain ⟨u, hu, m, hm, stop', hrun⟩ := h t n stop hpos hvisited haccepts
    cases List.mem_cons.1 hu with
    | inl heq =>
      subst heq
      obtain ⟨v, hv, l, hl, hlater⟩ := ih m hm hrun
      exact ⟨v, hv, l, Nat.lt_trans hl hm, hlater⟩
    | inr hmem => exact ⟨u, hmem, m, hm, stop', hrun⟩

theorem AcceptsBefore.replace {n : Nat} (h : AcceptsBefore p subject n (t :: rest)) (us : List Thread)
    (hus : ∀ m stop, AcceptsIn p subject m t stop → AcceptsBefore p subject m (us ++ rest)) :
    AcceptsBefore p subject n (us ++ rest) := by
  obtain ⟨u, hu, m, hm, stop, hrun⟩ := h
  cases List.mem_cons.1 hu with
  | inl heq =>
    subst heq
    obtain ⟨v, hv, l, hl, hlater⟩ := hus m stop hrun
    exact ⟨v, hv, l, Nat.lt_trans hl hm, hlater⟩
  | inr hmem => exact ⟨u, List.mem_append_right us hmem, m, hm, stop, hrun⟩

theorem Covered.skip (h : Covered p subject visited (t :: rest)) (hpos : t.pos ≤ subject.size)
    (hvisited : visited[slot subject t]? = some true) : Covered p subject visited rest := by
  intro u n stop hu hmark haccepts
  have hbefore := h u n stop hu hmark haccepts
  exact hbefore.replace [] fun m stop' => h.acceptsBefore hpos hvisited

theorem Covered.visit (h : Covered p subject visited (t :: rest)) (hpos : t.pos ≤ subject.size)
    (hslot : slot subject t < visited.size) {us : List Thread}
    (hus : ∀ m stop, AcceptsIn p subject m t stop → AcceptsBefore p subject m (us ++ rest)) :
    Covered p subject (visited.set (slot subject t) true) (us ++ rest) := by
  intro u n stop hu hmark haccepts
  rw [Array.getElem?_set] at hmark
  split at hmark
  . next heq =>
    have hsame := slot_inj hu hpos heq.symm
    apply hus n stop
    rw [hsame]
    exact haccepts.with_start t.start
  . exact (h u n stop hu hmark haccepts).replace us hus

end Covering

section Search

/-- The search either finds what one of the threads accepts, or it has followed them all, none accepts, and it
goes on with whatever comes after them. -/
def Searched (p : Program) (subject : Array Char) (visited : Array Bool) (threads : List Thread) : Prop :=
  (∃ t ∈ threads, ∃ stop, Accepts p subject t stop ∧
    ∀ more, search p subject visited (threads ++ more) = some (t.start, stop)) ∨
  (∀ t ∈ threads, ∀ stop, ¬ Accepts p subject t stop) ∧
    ∃ visited', visited'.size = p.size * (subject.size + 1) ∧ Covered p subject visited' [] ∧
      ∀ more, search p subject visited (threads ++ more) = search p subject visited' more

variable {p : Program} {subject : Array Char} {visited visited' : Array Bool} {t : Thread}
  {rest : List Thread}

theorem Searched.step (us : List Thread) (h : Searched p subject visited' (us ++ rest))
    (hsearch : ∀ more, search p subject visited (t :: rest ++ more) =
      search p subject visited' (us ++ rest ++ more))
    (hstart : ∀ u ∈ us, u.start = t.start)
    (hsound : ∀ u ∈ us, ∀ stop, Accepts p subject u stop → Accepts p subject t stop)
    (hcomplete : ∀ n stop, AcceptsIn p subject n t stop → AcceptsBefore p subject n (us ++ rest)) :
    Searched p subject visited (t :: rest) := by
  -- what was found from a follower is found from the thread itself, with the same start
  cases h with
  | inl hfound =>
    obtain ⟨u, hu, stop, haccepts, hresult⟩ := hfound
    refine Or.inl ?_
    cases List.mem_append.1 hu with
    | inl hmem =>
      refine ⟨t, List.mem_cons_self, stop, hsound u hmem stop haccepts, ?_⟩
      intro more
      rw [hsearch, hresult, hstart u hmem]
    | inr hmem =>
      refine ⟨u, List.mem_cons_of_mem t hmem, stop, haccepts, ?_⟩
      intro more
      rw [hsearch, hresult]
  | inr hnone =>
    obtain ⟨hnone, visited'', hsize, hcovered, hresult⟩ := hnone
    refine Or.inr ⟨?_, visited'', hsize, hcovered, ?_⟩
    . intro u hu stop haccepts
      cases List.mem_cons.1 hu with
      | inl heq =>
        subst heq
        obtain ⟨n, hn⟩ := haccepts
        obtain ⟨v, hv, m, -, stop', hm⟩ := hcomplete n stop hn
        exact hnone v hv stop' ⟨m, hm⟩
      | inr hmem => exact hnone u (List.mem_append_right us hmem) stop haccepts
    . intro more
      rw [hsearch, hresult]

theorem searched {threads : List Thread} (hsize : visited.size = p.size * (subject.size + 1))
    (hpos : ∀ t ∈ threads, t.pos ≤ subject.size) (h : Covered p subject visited threads) :
    Searched p subject visited threads := by
  fun_induction search p subject visited threads with
  | case1 visited => exact Or.inr ⟨by simp, visited, hsize, h, fun more => rfl⟩
  | case2 visited t rest hslot hv ih =>
    obtain ⟨htpos, hrestpos⟩ := List.forall_mem_cons.1 hpos
    have hmark : visited[slot subject t]? = some true := by rw [Array.getElem?_eq_getElem hslot, hv]
    apply (ih hsize hrestpos (h.skip htpos hmark)).step []
    . intro more
      rw [List.cons_append, search, dif_pos hslot, dif_pos hv, List.nil_append]
    . simp
    . simp
    . intro n stop haccepts
      exact h.acceptsBefore htpos hmark haccepts
  | case3 visited t rest hslot hv visited' hinst ih =>
    obtain ⟨htpos, hrestpos⟩ := List.forall_mem_cons.1 hpos
    have hnot : ∀ n stop, AcceptsIn p subject n t stop → AcceptsBefore p subject n ([] ++ rest) := by
      intro n stop haccepts
      obtain ⟨inst, hsome⟩ := haccepts.getElem?
      rw [hinst] at hsome
      simp at hsome
    apply (ih (by rw [Array.size_set, hsize]) hrestpos (h.visit htpos hslot hnot)).step []
    . intro more
      rw [List.cons_append, search, dif_pos hslot, dif_neg hv, hinst]
      rfl
    . simp
    . simp
    . exact hnot
  | case4 visited t rest hslot hv hinst =>
    refine Or.inl ⟨t, List.mem_cons_self, t.pos, ⟨0, AcceptsIn.here hinst⟩, ?_⟩
    intro more
    rw [List.cons_append, search, dif_pos hslot, dif_neg hv, hinst]
  | case5 visited t rest hslot hv visited' inst hne hinst ih =>
    obtain ⟨htpos, hrestpos⟩ := List.forall_mem_cons.1 hpos
    have hfollow : ∀ n stop, AcceptsIn p subject n t stop →
        AcceptsBefore p subject n (follow inst subject t ++ rest) := by
      intro n stop haccepts
      exact (haccepts.acceptsBefore hinst hne).append_left rest
    have hallpos : ∀ u ∈ follow inst subject t ++ rest, u.pos ≤ subject.size := by
      intro u hu
      cases List.mem_append.1 hu with
      | inl hmem => exact (of_mem_follow hmem).2.2 htpos
      | inr hmem => exact hrestpos u hmem
    have hrest := ih (by rw [Array.size_set, hsize]) hallpos (h.visit htpos hslot hfollow)
    apply hrest.step (follow inst subject t)
    . intro more
      rw [List.cons_append, search, dif_pos hslot, dif_neg hv, hinst, List.append_assoc]
      cases inst with
      | accept => contradiction
      | _ => rfl
    . intro u hu
      exact (of_mem_follow hu).1
    . rintro u hu stop ⟨n, hn⟩
      exact ⟨n + 1, AcceptsIn.next hinst hu hn⟩
    . exact hfollow
  | case6 visited t rest hslot ih =>
    obtain ⟨htpos, hrestpos⟩ := List.forall_mem_cons.1 hpos
    -- only a place outside of the program has no entry
    have hnot : ∀ n stop, AcceptsIn p subject n t stop → AcceptsBefore p subject n ([] ++ rest) := by
      intro n stop haccepts
      obtain ⟨inst, hsome⟩ := haccepts.getElem?
      obtain ⟨hpc, -⟩ := Array.getElem?_eq_some_iff.1 hsome
      rw [hsize] at hslot
      exact absurd (slot_lt hpc htpos) hslot
    have hcovered : Covered p subject visited rest := by
      intro u n stop hu hmark haccepts
      exact (h u n stop hu hmark haccepts).replace [] hnot
    apply (ih hsize hrestpos hcovered).step []
    . intro more
      rw [List.cons_append, search, dif_neg hslot, List.nil_append]
    . simp
    . simp
    . exact hnot

theorem search_starts (entry : Nat) {starts : List Nat}
    (hsize : visited.size = p.size * (subject.size + 1)) (h : Covered p subject visited [])
    (hpos : ∀ i ∈ starts, i ≤ subject.size) (hsorted : starts.Pairwise (· < ·)) :
    match search p subject visited (starts.map fun i => ⟨entry, i, i⟩) with
    | none => ∀ i ∈ starts, ∀ stop, ¬ Accepts p subject ⟨entry, i, i⟩ stop
    | some (i, stop) => i ∈ starts ∧ Accepts p subject ⟨entry, i, i⟩ stop ∧
        ∀ j ∈ starts, j < i → ∀ stop', ¬ Accepts p subject ⟨entry, j, j⟩ stop' := by
  induction starts generalizing visited with
  | nil =>
    rw [List.map_nil, search]
    simp
  | cons i starts ih =>
    obtain ⟨hipos, hrestpos⟩ := List.forall_mem_cons.1 hpos
    obtain ⟨hless, hsorted⟩ := List.pairwise_cons.1 hsorted
    -- everything that was visited accepts nothing so far, so that the next place can be searched by itself
    have hone : Covered p subject visited [⟨entry, i, i⟩] := by
      intro t n stop ht hmark haccepts
      exact (h t n stop ht hmark haccepts).append_left [⟨entry, i, i⟩]
    rw [List.map_cons, ← List.singleton_append]
    cases searched hsize (by simpa using hipos) hone with
    | inl hfound =>
      obtain ⟨t, ht, stop, haccepts, hresult⟩ := hfound
      obtain rfl := List.mem_singleton.1 ht
      rw [hresult]
      refine ⟨List.mem_cons_self, haccepts, ?_⟩
      intro j hj (hlt : j < i)
      cases List.mem_cons.1 hj with
      | inl heq => omega
      | inr hmem =>
        have := hless j hmem
        omega
    | inr hnone =>
      obtain ⟨hnone, visited', hsize', hcovered, hresult⟩ := hnone
      have hfirst := hnone _ List.mem_cons_self
      have hlater := ih hsize' hcovered hrestpos hsorted
      rw [hresult]
      split
      . next heq =>
        rw [heq] at hlater
        exact List.forall_mem_cons.2 ⟨hfirst, hlater⟩
      . next j stop heq =>
        rw [heq] at hlater
        refine ⟨List.mem_cons_of_mem i hlater.1, hlater.2.1, ?_⟩
        exact List.forall_mem_cons.2 ⟨fun _ => hfirst, hlater.2.2⟩

theorem find?_eq (r : Regex) (subject : Array Char) : find? r subject =
    search (automaton r).2 subject (Array.replicate ((automaton r).2.size * (subject.size + 1)) false)
      ((List.range (subject.size + 1)).map fun i => ⟨(automaton r).1, i, i⟩) := rfl

/-- What is found is a match, and none begins at an earlier place. If nothing is found, there is no match. -/
theorem find?_spec (r : Regex) (subject : Array Char) :
    match find? r subject with
    | none => ∀ i ≤ subject.size, ∀ stop, ¬ Matches r subject i stop
    | some (i, stop) => Matches r subject i stop ∧ ∀ j < i, ∀ stop', ¬ Matches r subject j stop' := by
  have hmem : ∀ i, i ∈ List.range (subject.size + 1) ↔ i ≤ subject.size := by
    intro i
    rw [List.mem_range, Nat.lt_succ_iff]
  have hspec := search_starts (automaton r).1 Array.size_replicate
    (covered_replicate (automaton r).2 subject _) (fun i => (hmem i).1) List.pairwise_lt_range
  rw [find?_eq]
  split
  . next heq =>
    rw [heq] at hspec
    exact fun i hi => hspec i ((hmem i).2 hi)
  . next i stop heq =>
    rw [heq] at hspec
    refine ⟨hspec.2.1, ?_⟩
    intro j hj
    have hi := (hmem i).1 hspec.1
    exact hspec.2.2 j ((hmem j).2 (by omega)) hj

end Search

end VerboseExpr.Regex.Automaton
