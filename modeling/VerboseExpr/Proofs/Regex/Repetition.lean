import VerboseExpr.Proofs.Regex.Flatten
import VerboseExpr.Proofs.Regex.Preference
import VerboseExpr.Proofs.Text.Copies

namespace VerboseExpr.Regex

/-- The number of times in a row that a character stands in a subject from a place on. -/
def runLength (c : Char) (subject : Array Char) (i : Nat) : Nat :=
  ((subject.toList.drop i).takeWhile (· == c)).length

/-- The number of copies, between `least` and `most`, that a greedy repetition takes of those that are there. -/
def taken? (least : Nat) (most : Option Nat) (available : Nat) : Option Nat :=
  if available < least then none else some (most.elim available (min available))

/-- The first place of the subject from which a repetition of the character does not fail, and the place where
it ends. -/
def firstRun? (least : Nat) (most : Option Nat) (c : Char) (subject : Array Char) : Option (Nat × Nat) :=
  (List.range (subject.size + 1)).findSome? fun i =>
    ((taken? least most (runLength c subject i)).map (i + ·)).map (i, ·)

section Runs

variable {c : Char} {subject : Array Char} {i n : Nat}

theorem runLength_of_eq (h : subject[i]? = some c) :
    runLength c subject i = runLength c subject (i + 1) + 1 := by
  obtain ⟨hlt, hc⟩ := Array.getElem?_eq_some_iff.1 h
  have hdrop : subject.toList.drop i = c :: subject.toList.drop (i + 1) := by
    rw [List.drop_eq_getElem_cons (by simpa using hlt), Array.getElem_toList, hc]
  rw [runLength, hdrop, List.takeWhile_cons]
  simp [runLength]

theorem runLength_of_ne (h : subject[i]? ≠ some c) : runLength c subject i = 0 := by
  rw [runLength]
  by_cases hlt : i < subject.size
  . have hne : subject[i] ≠ c := by
      intro heq
      exact h (Array.getElem?_eq_some_iff.2 ⟨hlt, heq⟩)
    rw [List.drop_eq_getElem_cons (by simpa using hlt), Array.getElem_toList, List.takeWhile_cons]
    simp [hne]
  . rw [List.drop_eq_nil_of_le (by simpa using hlt)]
    rfl

theorem replicate_prefix_iff (c : Char) (n : Nat) (subject : Array Char) (i : Nat) :
    List.replicate n c <+: subject.toList.drop i ↔ n ≤ runLength c subject i := by
  induction n generalizing i with
  | zero => simp
  | succ n ih =>
    rw [List.replicate_succ, cons_prefix_drop_iff, ih]
    by_cases h : subject[i]? = some c
    . rw [runLength_of_eq h]
      simp [h]
    . rw [runLength_of_ne h]
      simp [h]

theorem runLength_add (h : n ≤ runLength c subject i) :
    runLength c subject (i + n) = runLength c subject i - n := by
  induction n generalizing i with
  | zero => rfl
  | succ n ih =>
    have hc : subject[i]? = some c := by
      rw [← replicate_prefix_iff, List.replicate_succ, cons_prefix_drop_iff] at h
      exact h.1
    rw [runLength_of_eq hc] at h ⊢
    have hrest := ih (Nat.le_of_succ_le_succ h)
    rw [Nat.add_right_comm, Nat.add_assoc] at hrest
    rw [hrest]
    omega

end Runs

section Taking

theorem taken?_zero (most : Option Nat) (available : Nat) :
    taken? 0 most available = some (most.elim available (min available)) := rfl

theorem taken?_add (n least : Nat) (most : Option Nat) (available : Nat) :
    (if n ≤ available then (taken? least most (available - n)).map (n + ·) else none) =
      taken? (n + least) (most.map (n + ·)) available := by
  rw [taken?, taken?]
  split
  . next hle =>
    by_cases hfew : available - n < least
    . rw [if_pos hfew, if_pos (by omega), Option.map_none]
    . rw [if_neg hfew, if_neg (by omega), Option.map_some, Option.some.injEq]
      cases most with
      | none => exact Nat.add_sub_cancel' hle
      | some m =>
        simp only [Option.map_some, Option.elim]
        omega
  . rw [if_pos (by omega)]

theorem taken?_spec {least : Nat} {most : Option Nat} (hle : ∀ m ∈ most, least ≤ m) (available : Nat) :
    match taken? least most available with
    | none => ∀ n, Between least most n → available < n
    | some n => Between least most n ∧ n ≤ available ∧ ∀ m, Between least most m → m ≤ available → m ≤ n := by
  by_cases hfew : available < least
  . rw [taken?, if_pos hfew]
    intro n hn
    exact Nat.lt_of_lt_of_le hfew hn.1
  . rw [taken?, if_neg hfew]
    cases most with
    | none =>
      refine ⟨⟨Nat.le_of_not_lt hfew, by simp⟩, Nat.le_refl _, ?_⟩
      exact fun m _ hm => hm
    | some m =>
      have hm := hle m rfl
      refine ⟨⟨Nat.le_min.2 ⟨Nat.le_of_not_lt hfew, hm⟩, ?_⟩, Nat.min_le_left _ _, ?_⟩
      . rintro m' ⟨⟩
        exact Nat.min_le_right _ _
      . intro n hn havailable
        exact Nat.le_min.2 ⟨havailable, hn.2 m rfl⟩

theorem firstRun?_spec {least : Nat} {most : Option Nat} (hle : ∀ m ∈ most, least ≤ m) (c : Char)
    (subject : Array Char) : LocatesCopies [c] subject.toList least most (firstRun? least most c subject) := by
  have hspec := fun i => taken?_spec hle (runLength c subject i)
  -- a repetition fails at a place exactly if fewer copies stand there than it needs
  cases hrun : firstRun? least most c subject with
  | none =>
    rw [firstRun?, List.findSome?_eq_none_iff] at hrun
    intro n hn hoccurs
    obtain ⟨i, hi, hhere⟩ := exists_drop_of_isInfix hoccurs
    rw [copies_singleton, replicate_prefix_iff] at hhere
    have hnone := hrun i (List.mem_range.2 (Nat.lt_succ_of_le hi))
    rw [Option.map_eq_none_iff, Option.map_eq_none_iff] at hnone
    have hi := hspec i
    rw [hnone] at hi
    exact absurd (hi n hn) (Nat.not_lt.2 hhere)
  | some span =>
    obtain ⟨i, hi, hbefore⟩ := Backtracking.exists_of_findSome?_range hrun
    cases htaken : taken? least most (runLength c subject i) with
    | none => simp [htaken] at hi
    | some n =>
      rw [htaken, Option.map_some, Option.map_some, Option.some.injEq] at hi
      have hn := hspec i
      rw [htaken] at hn
      obtain ⟨hbetween, havailable, hlongest⟩ := hn
      rw [← hi]
      refine ⟨n, ⟨hbetween, ?_, ?_, ?_⟩, ?_⟩
      . rwa [copies_singleton, replicate_prefix_iff]
      . intro m hm hhere
        rw [copies_singleton, replicate_prefix_iff] at hhere
        exact hlongest m hm hhere
      . intro m hm j hj hhere
        have hnone := hbefore j hj
        rw [Option.map_eq_none_iff, Option.map_eq_none_iff] at hnone
        have hj := hspec j
        rw [hnone] at hj
        rw [copies_singleton, replicate_prefix_iff] at hhere
        exact absurd (hj m hm) (Nat.not_lt.2 hhere)
      . rw [copies_singleton, List.length_replicate]

end Taking

namespace Automaton

/-- Every instruction of the first program stands in the second at the same place. -/
def Within (p q : Program) : Prop := ∀ (j : Nat) inst, p[j]? = some inst → q[j]? = some inst

/-- Before the end of a pattern the expression takes as many copies of the character as it can, of which it needs
`least` and may have `most`. -/
def Takes (r : Regex) (c : Char) (least : Nat) (most : Option Nat) : Prop :=
  ∀ (subject : Array Char) (q : Program) (k : Nat), Within (assemble r 0 #[.accept]).2 q → ∀ i,
    Resolves q subject ⟨(assemble r 0 #[.accept]).1, i, k⟩ ((taken? least most (runLength c subject i)).map (i + ·))

section Programs

variable {p q : Program} {inst : Inst}

theorem Within.trans {o : Program} (h : Within o p) (h' : Within p q) : Within o q :=
  fun j inst hj => h' j inst (h j inst hj)

theorem within_push (p : Program) (inst : Inst) : Within p (p.push inst) := by
  intro j inst' hj
  obtain ⟨hlt, -⟩ := Array.getElem?_eq_some_iff.1 hj
  rw [Array.getElem?_push, if_neg (by omega), hj]

theorem Within.of_push (h : Within (p.push inst) q) : Within p q := (within_push p inst).trans h

theorem Within.getElem?_size (h : Within (p.push inst) q) : q[p.size]? = some inst :=
  h _ _ Array.getElem?_push_size

theorem Within.set (h : Within (p.push .fail) q) (inst : Inst) : Within p (q.setIfInBounds p.size inst) := by
  intro j inst' hj
  obtain ⟨hlt, -⟩ := Array.getElem?_eq_some_iff.1 hj
  rw [Array.getElem?_setIfInBounds, if_neg (by omega)]
  exact h.of_push j inst' hj

theorem within_assemble (r : Regex) (next : Nat) (p : Program) : Within p (assemble r next p).2 := by
  induction r generalizing next p with
  | empty => exact fun j inst hj => hj
  | char | set | anchor | reference => exact within_push p _
  | group _ body ih => exact ih next p
  | cat r s ihr ihs => exact (ihs next p).trans (ihr _ _)
  | alt r s ihr ihs => exact ((ihr next p).trans (ihs next _)).trans (within_push _ _)
  | rep min max greedy body ih =>
    cases max with
    | some _ => exact (ih next p).trans (within_push _ _)
    | none =>
      have hset := (ih p.size (p.push .fail)).set
      rw [assemble]
      dsimp only
      split
      . split
        . exact (hset _).trans (within_push _ _)
        . exact hset _
      . exact hset _

end Programs

section Copies

variable {p q : Program} {subject : Array Char} {next k : Nat}

theorem resolves_assemble_text {cs : List Char} {f : Nat → Option Nat} (hq : Within (assemble (text cs) next p).2 q)
    (hnext : ∀ i, Resolves q subject ⟨next, i, k⟩ (f i)) (i : Nat) :
    Resolves q subject ⟨(assemble (text cs) next p).1, i, k⟩
      (if cs <+: subject.toList.drop i then f (i + cs.length) else none) := by
  induction cs generalizing i with
  | nil => simpa [text, concat, assemble] using hnext i
  | cons c cs ih =>
    rw [assemble_text_cons] at hq ⊢
    have hstep := resolves_char hq.getElem?_size (i := i) fun _ => ih hq.of_push (i + 1)
    rw [Nat.add_right_comm, Nat.add_assoc] at hstep
    simp only [cons_prefix_drop_iff, List.length_cons]
    by_cases hc : subject[i]? = some c
    . rw [if_pos hc] at hstep
      simpa only [hc, true_and] using hstep
    . rw [if_neg hc] at hstep
      rwa [if_neg fun h => hc h.1]

theorem assemble_copies (c : Char) (n : Nat) (r : Regex) (next : Nat) (p : Program) :
    assemble (concat (copies (.char c) n ++ [r])) next p =
      assemble (text (List.replicate n c)) (assemble r next p).1 (assemble r next p).2 := by
  induction n with
  | zero => rfl
  | succ n ih =>
    rw [copies, List.cons_append, concat_cons (by simp), List.replicate_succ, assemble_text_cons, ← ih]
    rfl

theorem concat_copies_char (c : Char) (n : Nat) : concat (copies (.char c) n) = text (List.replicate n c) := by
  have hcopies : copies (.char c) n = (List.replicate n c).map .char := by
    induction n with
    | zero => rfl
    | succ n ih => rw [copies, ih, List.replicate_succ, List.map_cons]
  rw [hcopies, text]

theorem Takes.copies {r : Regex} {c : Char} {least : Nat} {most : Option Nat} (h : Takes r c least most) (n : Nat) :
    Takes (concat (copies (.char c) n ++ [r])) c (n + least) (most.map (n + ·)) := by
  intro subject q k hq i
  rw [assemble_copies] at hq ⊢
  have hrest := h subject q k ((within_assemble _ _ _).trans hq)
  have hall := resolves_assemble_text hq hrest i
  rw [← taken?_add]
  simp only [replicate_prefix_iff, List.length_replicate] at hall
  split
  . next hle =>
    rw [if_pos hle, runLength_add hle] at hall
    rw [Option.map_map]
    have hsum : (i + n + ·) = (i + ·) ∘ (n + ·) := funext fun m => Nat.add_assoc i n m
    rwa [hsum] at hall
  . next hlt => rwa [if_neg hlt] at hall

end Copies

theorem Takes.of_assemble_eq {r s : Regex} {c : Char} {least : Nat} {most : Option Nat} (h : Takes r c least most)
    (heq : assemble s 0 #[.accept] = assemble r 0 #[.accept]) : Takes s c least most := by
  rw [Takes, heq]
  exact h

section Tails

theorem takes_empty (c : Char) : Takes .empty c 0 (some 0) := by
  intro subject q k hq i
  have haccept : Resolves q subject ⟨0, i, k⟩ (some i) := resolves_accept (hq 0 _ rfl)
  simpa [taken?, assemble] using haccept

theorem assemble_upTo_succ (c : Char) (n next : Nat) (p : Program) :
    assemble (upTo true (.char c) (n + 1)) next p =
      let (entry, p) := assemble (upTo true (.char c) n) next p
      (p.size + 1, (p.push (.one (.single c) entry)).push (.split p.size next)) := by
  cases n with
  | zero => simp [upTo, loop, assemble, branch]
  | succ n => simp [upTo, loop, assemble, branch]

theorem takes_upTo (c : Char) (n : Nat) : Takes (upTo true (.char c) n) c 0 (some n) := by
  induction n with
  | zero => exact takes_empty c
  | succ n ih =>
    intro subject q k hq i
    rw [assemble_upTo_succ] at hq ⊢
    dsimp only at hq ⊢
    have hinst := hq.of_push.getElem?_size
    have hsplit := hq.getElem?_size
    rw [Array.size_push] at hsplit
    have hchar := resolves_char hinst (i := i) fun _ => ih subject q k hq.of_push.of_push (i + 1)
    have haccept : Resolves q subject ⟨0, i, k⟩ (some i) :=
      resolves_accept (((within_assemble _ _ _).trans hq.of_push.of_push) 0 _ rfl)
    have hboth := resolves_split hsplit hchar haccept
    by_cases hc : subject[i]? = some c
    . have hmin : i + 1 + min (runLength c subject (i + 1)) n = i + min (runLength c subject i) (n + 1) := by
        rw [runLength_of_eq hc]
        omega
      rw [if_pos hc, taken?_zero, Option.map_some, Option.some_or, Option.elim, hmin] at hboth
      exact hboth
    . rw [if_neg hc, Option.none_or] at hboth
      rw [runLength_of_ne hc]
      exact hboth

/-- The instructions of a loop over a character at the very end. -/
def loopProgram (c : Char) : Program := #[.accept, .split 2 0, .one (.single c) 1]

theorem resolves_star {q : Program} {c : Char} (hq : Within (loopProgram c) q) (subject : Array Char) (k i : Nat) :
    Resolves q subject ⟨1, i, k⟩ (some (i + runLength c subject i)) := by
  have haccept : ∀ i, Resolves q subject ⟨0, i, k⟩ (some i) := fun i => resolves_accept (hq 0 _ rfl)
  have hsplit : q[1]? = some (Inst.split 2 0) := hq 1 _ rfl
  have hinst : q[2]? = some (Inst.one (.single c) 1) := hq 2 _ rfl
  generalize hn : runLength c subject i = n
  induction n generalizing i with
  | zero =>
    have hne : subject[i]? ≠ some c := by
      intro hc
      rw [runLength_of_eq hc] at hn
      omega
    have hchar : Resolves q subject ⟨2, i, k⟩ (if subject[i]? = some c then none else none) :=
      resolves_char hinst fun hc => absurd hc hne
    rw [if_neg hne] at hchar
    exact resolves_split hsplit hchar (haccept i)
  | succ n ih =>
    have hc : subject[i]? = some c := by
      have hone : 1 ≤ runLength c subject i := by omega
      rw [← replicate_prefix_iff, List.replicate_succ, cons_prefix_drop_iff] at hone
      exact hone.1
    rw [runLength_of_eq hc, Nat.succ.injEq] at hn
    have hchar := resolves_char hinst (i := i) fun _ => ih (i + 1) hn
    rw [if_pos hc, Nat.add_right_comm, Nat.add_assoc] at hchar
    exact resolves_split hsplit hchar (haccept i)

theorem takes_star (c : Char) : Takes (.rep 0 none true (.char c)) c 0 none := by
  intro subject q k hq i
  exact resolves_star hq subject k i

theorem takes_plus (c : Char) : Takes (.rep 1 none true (.char c)) c 1 none := by
  intro subject q k hq i
  have hq : Within (loopProgram c) q := hq
  have hinst : q[2]? = some (Inst.one (.single c) 1) := hq 2 _ rfl
  have hchar := resolves_char hinst (i := i) fun _ => resolves_star hq subject k (i + 1)
  show Resolves q subject ⟨2, i, k⟩ _
  by_cases hc : subject[i]? = some c
  . rw [if_pos hc, Nat.add_right_comm, Nat.add_assoc] at hchar
    rw [runLength_of_eq hc, taken?, if_neg (by omega)]
    exact hchar
  . rw [if_neg hc] at hchar
    rw [runLength_of_ne hc]
    exact hchar

end Tails

section Whole

theorem loop_char (least : Nat) (most : Option Nat) (c : Char) :
    loop least most true (.char c) = .rep least most true (.char c) := rfl

theorem takes_unroll {least : Nat} {most : Option Nat} (c : Char) (hle : ∀ m ∈ most, least ≤ m) :
    Takes (unroll least most true (.char c)) c least most := by
  rw [unroll.eq_def]
  split
  . -- no copies at all
    have hzero : least = 0 := Nat.le_zero.1 (hle 0 rfl)
    rw [hzero]
    exact takes_empty c
  . split
    . next hone =>
      rw [loop_char]
      obtain rfl | rfl : least = 0 ∨ least = 1 := by omega
      . exact takes_star c
      . exact takes_plus c
    . -- the last of the copies that are needed is the first of a loop
      have hplus := (takes_plus c).copies (least - 1)
      rw [Nat.sub_add_cancel (by omega)] at hplus
      exact hplus
  . next m _ =>
    split
    . next heq =>
      have hexact := (takes_empty c).copies least
      rw [Option.map_some, Nat.add_zero] at hexact
      rw [← heq]
      exact hexact.of_assemble_eq (by rw [assemble_copies, concat_copies_char, assemble])
    . next hne =>
      have hupTo := (takes_upTo c (m - least)).copies least
      have hm := hle m rfl
      rw [Option.map_some, Nat.add_zero, Nat.add_sub_cancel' hm] at hupTo
      exact hupTo

theorem find?_rep {least : Nat} {most : Option Nat} (c : Char) (subject : Array Char)
    (hle : ∀ m ∈ most, least ≤ m) :
    find? (.rep least most true (.char c)) subject = firstRun? least most c subject := by
  apply find?_of_resolves
  intro i
  exact takes_unroll c hle subject _ i (fun j inst hj => hj) i

end Whole

end Automaton

namespace Backtracking

theorem map_taken?_step {least n : Nat} {most : Option Nat} (available i : Nat) (hmost : ∀ m ∈ most, n < m) :
    (taken? (least - (n + 1)) (most.map (· - (n + 1))) available).map (i + 1 + ·) =
      (taken? (least - n) (most.map (· - n)) (available + 1)).map (i + ·) := by
  rw [taken?, taken?]
  by_cases hfew : available < least - (n + 1)
  . rw [if_pos hfew, if_pos (by omega)]
    rfl
  . rw [if_neg hfew, if_neg (by omega), Option.map_some, Option.map_some, Option.some.injEq]
    cases most with
    | none =>
      simp only [Option.map_none, Option.elim]
      omega
    | some m =>
      have := hmost m rfl
      simp only [Option.map_some, Option.elim]
      omega

theorem iterate_char {least : Nat} {most : Option Nat} (c : Char) (subject : Array Char)
    (hle : ∀ m ∈ most, least ≤ m) {fuel n mark pos : Nat} (caps : Captures) (hfuel : subject.size - pos < fuel)
    (hmark : 0 < n → pos ≠ mark) :
    iterate (fun p cs k => run subject (.char c) p cs k) least most true (fun e _ => some e) fuel n mark pos caps =
      (taken? (least - n) (most.map (· - n)) (runLength c subject pos)).map (pos + ·) := by
  -- every copy takes a character, so that the fuel lasts and the guard against empty copies never applies
  induction fuel generalizing n mark pos with
  | zero => omega
  | succ fuel ih =>
    have hnot : ¬(least ≤ n ∧ 0 < n ∧ pos = mark) := fun h => hmark h.2.1 h.2.2
    by_cases hfull : ∃ m ∈ most, m ≤ n
    . obtain ⟨m, rfl, hm⟩ := hfull
      have hleast := hle m rfl
      have hzero : least - n = 0 := by omega
      have hm' : m - n = 0 := by omega
      rw [iterate, if_pos (by simpa using hm), hzero, taken?_zero]
      simp [hm']
    . have hroom : ∀ m ∈ most, n < m := fun m hmem => Nat.lt_of_not_le fun h => hfull ⟨m, hmem, h⟩
      have hany : ¬most.any (· ≤ n) = true := by
        cases most with
        | none => simp
        | some m => simpa using hroom m rfl
      have hstep : (run subject (.char c) pos caps fun q cs => iterate (fun p cs k => run subject (.char c) p cs k)
          least most true (fun e _ => some e) fuel (n + 1) pos q cs) =
            if subject[pos]? = some c then
              (taken? (least - n) (most.map (· - n)) (runLength c subject pos)).map (pos + ·)
            else none := by
        rw [run]
        split
        . next hc =>
          obtain ⟨hlt, -⟩ := Array.getElem?_eq_some_iff.1 hc
          rw [ih (by omega) (by omega), map_taken?_step _ _ hroom, runLength_of_eq hc]
        . rfl
      rw [iterate, if_neg hany, if_neg hnot, hstep]
      by_cases hfew : n < least
      . rw [if_pos hfew]
        split
        . rfl
        . next hc => rw [runLength_of_ne hc, taken?, if_pos (by omega), Option.map_none]
      . have hzero : least - n = 0 := by omega
        rw [if_neg hfew, if_pos rfl, hzero, taken?_zero, Option.map_some]
        split
        . rfl
        . next hc =>
          rw [runLength_of_ne hc]
          cases most <;> simp [orElse]

theorem find?_rep {least : Nat} {most : Option Nat} (c : Char) (subject : Array Char)
    (hle : ∀ m ∈ most, least ≤ m) (hleast : least < maxNumber) :
    find? (.rep least most true (.char c)) subject = firstRun? least most c subject := by
  have hrun : ∀ i, run subject (.rep least most true (.char c)) i [] (fun e _ => some e) =
      (taken? least most (runLength c subject i)).map (i + ·) := by
    intro i
    rw [run, if_neg (by omega), iterate_char c subject hle [] (by omega) (by omega)]
    cases most <;> rfl
  rw [find?, firstRun?]
  simp only [hrun]

end Backtracking

end VerboseExpr.Regex
