import VerboseExpr.Config.Yaml.Token.Scalar
import VerboseExpr.Config.Yaml.Writer
import VerboseExpr.Proofs.Config.Yaml.Cursor

namespace VerboseExpr.Yaml

theorem chunk_induction (f : Char → Bool) {P : List Char → Prop} (last : ∀ w, (∀ c ∈ w, f c) → P w)
    (more : ∀ w g u, (∀ c ∈ w, f c) → g ≠ [] → (∀ c ∈ g, f c = false) → (∀ c ∈ u.head?, f c) → P u → P (w ++ (g ++ u)))
    (cs : List Char) : P cs := by
  induction hn : cs.length using Nat.strongRecOn generalizing cs with
  | ind n ih =>
    subst hn
    have hw : ∀ c ∈ cs.takeWhile f, f c := fun c hc => List.all_eq_true.mp List.all_takeWhile c hc
    have hsplit : cs = cs.takeWhile f ++ cs.dropWhile f := List.takeWhile_append_dropWhile.symm
    cases hrest : cs.dropWhile f with
    | nil =>
      rw [hrest, List.append_nil] at hsplit
      rw [hsplit]
      exact last _ hw
    | cons d rest =>
      have hd : f d = false := by
        have h := List.head?_dropWhile_not f cs
        rw [hrest] at h
        simpa using h
      have hg : ∀ c ∈ (d :: rest).takeWhile (! f ·), f c = false := fun c hc => by
        simpa using List.all_eq_true.mp List.all_takeWhile c hc
      have hsplit' : d :: rest = (d :: rest).takeWhile (! f ·) ++ (d :: rest).dropWhile (! f ·) :=
        List.takeWhile_append_dropWhile.symm
      have hu : ∀ c ∈ ((d :: rest).dropWhile (! f ·)).head?, f c := by
        intro c hc
        have h := List.head?_dropWhile_not (! f ·) (d :: rest)
        rw [Option.mem_def.mp hc] at h
        simpa using h
      have hne : (d :: rest).takeWhile (! f ·) ≠ [] := by simp [hd]
      -- there are others between the chunks, so that what is left has become shorter
      have hshort : ((d :: rest).dropWhile (! f ·)).length < cs.length := by
        have h := congrArg List.length hsplit
        have h' := congrArg List.length hsplit'
        have h'' := List.length_pos_iff.mpr hne
        rw [hrest] at h
        simp only [List.length_append] at h h'
        omega
      rw [hsplit, hrest, hsplit']
      exact more _ _ _ hw hne hg hu (ih _ hshort _ rfl)

theorem eq_spaces {g : List Char} (hne : g ≠ []) (hg : ∀ c ∈ g, c = ' ') : ∃ m, g = spaces (m + 1) := by
  refine ⟨g.length - 1, ?_⟩
  rw [Nat.sub_add_cancel (List.length_pos_iff.mpr hne)]
  exact List.eq_replicate_of_mem hg

def isSolid (c : Char) : Bool := !isBlank c && !isBreak c

namespace Runs

variable {p : Place} {k : List Char} {g : Gap} {indent : Nat}

theorem gap_solid (hk : isSolid (k.headD endMark)) (fuel : Nat) :
    Runs (Scan.gap indent g (fuel + 1)) ⟨k, 1, p⟩ g ⟨k, 1, p⟩ := by
  simp only [isSolid, Bool.and_eq_true, Bool.not_eq_true'] at hk
  refine Runs.bind (peekHead k 0) ?_
  rw [hk.1, hk.2]
  exact Runs.pure g _

theorem gap_space {fuel : Nat} {g' : Gap} {q : Spot}
    (h : Runs (Scan.gap indent (if g.broken then g else { g with blanks := g.blanks ++ [' '] }) fuel) ⟨k, 1, p.skips 1⟩
      g' q) :
    Runs (Scan.gap indent g (fuel + 1)) ⟨' ' :: k, 1, p⟩ g' q := by
  refine Runs.bind (peekHead _ 0) ?_
  rw [List.headD_cons, if_pos (by decide)]
  refine Runs.get fun c hc => ?_
  simp only [(by decide : ¬(' ' = '\t')), decide_false, Bool.and_false, Bool.false_and, Bool.false_eq_true, if_false]
  exact Runs.bind (skip ' ' k 0) (Runs.bind (need k 0 1) h)

theorem gap_blanks {m fuel : Nat} (hg : g.broken = false) (hk : isSolid (k.headD endMark)) (hfuel : m < fuel) :
    Runs (Scan.gap indent g fuel) ⟨spaces m ++ k, 1, p⟩ { g with blanks := g.blanks ++ spaces m }
      ⟨k, 1, p.skips m⟩ := by
  induction m generalizing g fuel p with
  | zero =>
    obtain ⟨fuel, rfl⟩ : ∃ n, fuel = n + 1 := ⟨fuel - 1, by omega⟩
    simpa [spaces] using gap_solid hk fuel
  | succ m ih =>
    obtain ⟨fuel, rfl⟩ : ∃ n, fuel = n + 1 := ⟨fuel - 1, by omega⟩
    refine gap_space ?_
    have h := ih (p := p.skips 1) (g := { g with blanks := g.blanks ++ [' '] }) hg (by omega : _ < fuel)
    rw [if_neg (by simp [hg])]
    simpa [spaces, List.replicate_succ, Nat.add_comm] using h

theorem gap_indentation {m fuel : Nat} (hg : g.broken) (hk : isSolid (k.headD endMark)) (hfuel : m < fuel) :
    Runs (Scan.gap indent g fuel) ⟨spaces m ++ k, 1, p⟩ g ⟨k, 1, p.skips m⟩ := by
  induction m generalizing fuel p with
  | zero =>
    obtain ⟨fuel, rfl⟩ : ∃ n, fuel = n + 1 := ⟨fuel - 1, by omega⟩
    simpa [spaces] using gap_solid hk fuel
  | succ m ih =>
    obtain ⟨fuel, rfl⟩ : ∃ n, fuel = n + 1 := ⟨fuel - 1, by omega⟩
    refine gap_space ?_
    rw [if_pos hg]
    simpa [spaces, Nat.add_comm] using ih (p := p.skips 1) (by omega : _ < fuel)

theorem gap_break {d : Char} (hd : isBreak d) {fuel : Nat} {g' : Gap} {q : Spot}
    (h : Runs (Scan.gap indent (g.push [d]) fuel) ⟨k, 1, p.skipLine⟩ g' q) :
    Runs (Scan.gap indent g (fuel + 1)) ⟨d :: k, 1, p⟩ g' q := by
  have hblank : isBlank d = false := by
    cases hblank : isBlank d with
    | false => rfl
    | true =>
      simp only [isBlank, Bool.or_eq_true, decide_eq_true_eq] at hblank
      obtain rfl | rfl := hblank <;> exact absurd hd (by decide)
  refine Runs.bind (peekHead _ 0) ?_
  rw [List.headD_cons, hblank, if_neg (by decide), if_pos hd]
  exact Runs.bind (takeLine hd k 1) (Runs.bind (need k 1 1) h)

variable (indent) in
theorem gap_breaks {bs : List Char} {m fuel : Nat} (hbs : ∀ d ∈ bs, isBreak d) (hg : g.broken)
    (hk : isSolid (k.headD endMark)) (hfuel : bs.length + m < fuel) :
    ∃ q : Place, q.size = p.size ∧ (p.column = 0 → q.column = m) ∧
      Runs (Scan.gap indent g fuel) ⟨bs ++ (spaces m ++ k), 1, p⟩ { g with more := g.more ++ bs } ⟨k, 1, q⟩ := by
  induction bs generalizing g fuel p with
  | nil =>
    refine ⟨p.skips m, rfl, fun hcolumn => by simp [hcolumn], ?_⟩
    simpa using gap_indentation hg hk (by simpa using hfuel)
  | cons d bs ih =>
    obtain ⟨fuel, rfl⟩ : ∃ n, fuel = n + 1 := ⟨fuel - 1, by omega⟩
    have hpush : g.push [d] = { g with more := g.more ++ [d] } := by rw [Gap.push, if_pos hg]
    obtain ⟨q, hsize, hcolumn, h⟩ := ih (g := g.push [d]) (p := p.skipLine) (fun d hd => hbs d (by simp [hd]))
      (by rw [hpush]; exact hg) (by simp at hfuel; omega : _ < fuel)
    refine ⟨q, hsize, fun _ => hcolumn rfl, gap_break (hbs d (by simp)) ?_⟩
    rw [hpush] at h ⊢
    simpa using h

end Runs

end VerboseExpr.Yaml
