import VerboseExpr.Config.Yaml.Token.Reader
import VerboseExpr.Proofs.Config.Yaml.Block
import VerboseExpr.Proofs.Config.Yaml.Plain
import VerboseExpr.Proofs.Config.Yaml.Quoted

namespace VerboseExpr.Yaml

namespace ReadM

section Combinators

variable {α β : Type} {x : ReadM α} {f : α → ReadM β} {a : α} {r r' : Reading}

theorem bind_eq (h : x r = some (a, r')) : (x >>= f) r = f a r' := by
  change (x r).bind (fun s => f s.1 s.2) = _
  rw [h]
  rfl

theorem get_bind (f : Reading → ReadM β) : (get >>= f) r = f r r := rfl

theorem modify_bind (g : Reading → Reading) (f : PUnit → ReadM β) : (modify g >>= f) r = f () (g r) := rfl

theorem allowKey_bind (b : Bool) (f : Unit → ReadM β) : (allowKey b >>= f) r = f () { r with keyAllowed := b } := rfl

theorem exists_scan_eq {y : Scan α} {p q : Spot} (h : Runs y p a q) (hr : r.cursor.At p) :
    ∃ c, scan y r = some (a, { r with cursor := c }) ∧ c.At q := by
  obtain ⟨c, hy, hc⟩ := h r.cursor hr
  refine ⟨c, ?_, hc⟩
  unfold scan
  rw [hy]
  rfl

end Combinators

section Space

variable {r : Reading} {p : Place} {k : List Char} {m n : Nat}

def isTokenStart (c : Char) : Bool := isSolid c && c ≠ '#'

theorem exists_skipSpace_eq (fuel : Nat) (hr : r.cursor.At ⟨spaces m ++ k, n, p⟩)
    (hk : isBlank (k.headD endMark) = false ∧ k.headD endMark ≠ '#') (hsize : m < p.size) :
    ∃ c, c.At ⟨k, 1, p.skips m⟩ ∧ skipSpace (fuel + 1) r =
      (if isBreak (k.headD endMark) then (do
        scan Scan.skipLine
        if !r.inFlow then allowKey true
        skipSpace fuel) else pure () : ReadM Unit) { r with cursor := c } := by
  obtain ⟨c₁, hneed, hc₁⟩ := exists_scan_eq (Runs.need _ n 1) hr
  -- tabs may be blanks too, but the character behind the spaces is neither
  have hblanks : Runs (Scan.skipWhile fun c => c = ' ' || (c = '\t' && (r.inFlow || !r.keyAllowed)))
      ⟨spaces m ++ k, 1, p⟩ () ⟨k, 1, p.skips m⟩ := by
    have h := Runs.skipWhile (p := p) (w := spaces m) (u := k)
      (f := fun c => c = ' ' || (c = '\t' && (r.inFlow || !r.keyAllowed)))
      (fun d hd => by simp [List.eq_of_mem_replicate hd]) (by
        have hblank := hk.1
        simp only [isBlank, Bool.or_eq_false_iff] at hblank
        rw [hblank.1, hblank.2]
        rfl) (by simpa [spaces] using hsize) 1
    simpa [spaces] using h
  obtain ⟨c₂, hskip, hc₂⟩ := exists_scan_eq (r := { r with cursor := c₁ }) hblanks hc₁
  have hfront : c₁.source.front ≠ byteOrderMark := hc₁.shows_rest.front
  have hhead : c₂.peek 0 = k.headD endMark := hc₂.peek_head (Nat.succ_pos 0)
  refine ⟨c₂, hc₂, ?_⟩
  rw [skipSpace, bind_eq hneed, get_bind]
  dsimp only
  rw [if_neg (by simp [hfront])]
  refine (bind_eq hskip).trans ?_
  rw [get_bind]
  dsimp only
  rw [hhead, if_neg hk.2, get_bind]
  dsimp only
  rw [hhead]
  rfl

theorem exists_skipSpace_spaces (fuel : Nat) (hr : r.cursor.At ⟨spaces m ++ k, n, p⟩)
    (hk : isTokenStart (k.headD endMark)) (hsize : m < p.size) :
    ∃ c, skipSpace (fuel + 1) r = some ((), { r with cursor := c }) ∧ c.At ⟨k, 1, p.skips m⟩ := by
  simp only [isTokenStart, isSolid, Bool.and_eq_true, Bool.not_eq_true', decide_eq_true_eq] at hk
  obtain ⟨c, hc, heq⟩ := exists_skipSpace_eq fuel hr ⟨hk.1.1, hk.2⟩ hsize
  refine ⟨c, ?_, hc⟩
  rw [heq, hk.1.2]
  rfl

theorem exists_skipSpace_break (fuel : Nat) (hr : r.cursor.At ⟨'\n' :: (spaces m ++ k), n, p⟩)
    (hk : isTokenStart (k.headD endMark)) (hsize : m < p.size) (houter : r.outer = []) :
    ∃ c, skipSpace (fuel + 2) r = some ((), { r with cursor := c, keyAllowed := true }) ∧
      c.At ⟨k, 1, p.skipLine.skips m⟩ := by
  obtain ⟨c₁, hc₁, heq⟩ := exists_skipSpace_eq (fuel + 1) (m := 0) (k := '\n' :: (spaces m ++ k)) hr
    ⟨rfl, (by decide : '\n' ≠ '#')⟩ (by omega)
  obtain ⟨c₂, hline, hc₂⟩ := exists_scan_eq (r := { r with cursor := c₁ }) (Runs.skipLine (by decide) _ 1) hc₁
  obtain ⟨c₃, hskip, hc₃⟩ := exists_skipSpace_spaces fuel
    (r := { r with cursor := c₂, keyAllowed := true }) hc₂ hk hsize
  have hflow : r.inFlow = false := by simp [Reading.inFlow, houter]
  refine ⟨c₃, ?_, hc₃⟩
  rw [heq, List.headD_cons, if_pos (by decide), bind_eq hline, hflow]
  exact hskip

/-- The way to the next token. -/
def arrive : ReadM Unit := do
  scan (Scan.need 1)
  skipSpace (← get).cursor.size

theorem exists_arrive_spaces (hr : r.cursor.At ⟨spaces m ++ k, n, p⟩) (hk : isTokenStart (k.headD endMark))
    (hsize : m < p.size) :
    ∃ c, arrive r = some ((), { r with cursor := c }) ∧ c.At ⟨k, 1, p.skips m⟩ := by
  obtain ⟨c₁, hneed, hc₁⟩ := exists_scan_eq (Runs.need _ n 1) hr
  obtain ⟨fuel, hfuel⟩ : ∃ fuel, c₁.size = fuel + 1 := ⟨c₁.size - 1, by rw [hc₁.size_eq]; dsimp only; omega⟩
  obtain ⟨c₂, hskip, hc₂⟩ := exists_skipSpace_spaces fuel (r := { r with cursor := c₁ }) hc₁ hk hsize
  refine ⟨c₂, ?_, hc₂⟩
  unfold arrive
  rw [bind_eq hneed, get_bind]
  dsimp only
  rw [hfuel, hskip]

/-- The reader stands before a token at the column `j`, with which `k` begins: on it, where a key may begin, or at the
end of the line before. -/
def Before (r : Reading) (j : Nat) (k : List Char) : Prop :=
  ∃ n p, r.cursor.At ⟨k, n, p⟩ ∧ p.column = j ∧ r.keyAllowed ∨ r.cursor.At ⟨'\n' :: (spaces j ++ k), n, p⟩

theorem exists_arrive_before {j : Nat} (hr : Before r j k) (hk : isTokenStart (k.headD endMark))
    (hsize : j + 2 ≤ r.cursor.size) (houter : r.outer = []) :
    ∃ c q, arrive r = some ((), { r with cursor := c, keyAllowed := true }) ∧ c.At ⟨k, 1, q⟩ ∧ q.column = j ∧
      q.size = r.cursor.size := by
  obtain ⟨n, p, ⟨hr, hcolumn, hkey⟩ | hr⟩ := hr
  . have hsize' : r.cursor.size = p.size := hr.size_eq
    obtain ⟨c, harrive, hc⟩ := exists_arrive_spaces (m := 0) hr hk (by omega)
    exact ⟨c, p, by rw [harrive, ← hkey], hc, hcolumn, hsize'.symm⟩
  . obtain ⟨c₁, hneed, hc₁⟩ := exists_scan_eq (Runs.need _ n 1) hr
    obtain ⟨fuel, hfuel⟩ : ∃ fuel, c₁.size = fuel + 2 := ⟨c₁.size - 2, by rw [hc₁.size_eq, ← hr.size_eq]; omega⟩
    obtain ⟨c₂, hskip, hc₂⟩ := exists_skipSpace_break fuel (r := { r with cursor := c₁ }) hc₁ hk
      (by rw [← hr.size_eq]; omega) houter
    refine ⟨c₂, p.skipLine.skips j, ?_, hc₂, by simp, hr.size_eq.symm⟩
    unfold arrive
    rw [bind_eq hneed, get_bind]
    dsimp only
    rw [hfuel, hskip]

end Space

section Next

variable {r r₁ : Reading} {q : Place} {k : List Char} {n : Nat}

/-- The token that `next` reads where the document goes on, and a look for a comment behind it. -/
def contentLine (c d : Char) : ReadM Unit := do
  contentToken c d
  if (← get).queue.getLast? ≠ some .blockEntry then scan Scan.lineComment

theorem next_eq_arrive : next = (do
    arrive
    modify fun r => r.closeBlocks (r.cursor.column < ·)
    scan (Scan.need 4)
    let c := (← get).cursor
    if c.peek 0 = endMark then streamEnd
    else if c.column = 0 && c.peek 0 = '%' then directive
    else if c.atMark '-' then documentMark .documentStart
    else if c.atMark '.' then documentMark .documentEnd
    else contentLine (c.peek 0) (c.peek 1)) := by
  unfold next arrive contentLine
  simp only [bind_assoc]

theorem cursor_closeBlocks (r : Reading) (f : Nat → Bool) : (r.closeBlocks f).cursor = r.cursor := by
  unfold Reading.closeBlocks
  split <;> rfl

theorem closeBlocks_eq_self {column : Nat} (h : ∀ b ∈ r.blocks.head?, b ≤ column) :
    r.closeBlocks (column < ·) = r := by
  have hclosed : r.blocks.takeWhile (decide <| column < ·) = [] := by
    cases hblocks : r.blocks with
    | nil => rfl
    | cons b outer =>
      have hb := h b (by rw [hblocks]; rfl)
      exact List.takeWhile_cons_of_neg (by simpa using hb)
  unfold Reading.closeBlocks
  split
  . rfl
  . simp [hclosed]

theorem exists_next_eq (h : arrive r = some ((), r₁)) (hr₁ : r₁.cursor.At ⟨k, 1, q⟩) (hk : k ≠ [])
    (hmark : q.column ≠ 0 ∨ k.headD endMark ≠ '%' ∧ k.headD endMark ≠ '-' ∧ k.headD endMark ≠ '.') :
    ∃ c, c.At ⟨k, 4, q⟩ ∧ next r = contentLine (k.headD endMark) (k.getD 1 endMark)
      { r₁.closeBlocks (q.column < ·) with cursor := c } := by
  have hclosed : (r₁.closeBlocks (r₁.cursor.column < ·)).cursor.At ⟨k, 1, q⟩ := by rwa [cursor_closeBlocks]
  obtain ⟨c, hneed, hc⟩ := exists_scan_eq (Runs.need _ 1 4) hclosed
  have hhead : c.peek 0 = k.headD endMark := hc.peek_head (Nat.succ_pos 3)
  have hsecond : c.peek 1 = k.getD 1 endMark := hc.peek_eq (Nat.succ_lt_succ (Nat.succ_pos 2))
  refine ⟨c, hc, ?_⟩
  rw [next_eq_arrive, bind_eq h, modify_bind, bind_eq hneed, get_bind]
  dsimp only
  rw [hhead, if_neg (hc.headD_ne hk), hc.column_eq, if_neg,
    hc.atMark_eq_false (hmark.imp id fun h => ⟨Nat.succ_pos 3, h.2.1⟩), if_neg (by decide),
    hc.atMark_eq_false (hmark.imp id fun h => ⟨Nat.succ_pos 3, h.2.2⟩), if_neg (by decide), hsecond, hr₁.column_eq]
  simp only [Bool.and_eq_true, decide_eq_true_eq]
  rintro ⟨hcolumn, hpercent⟩
  obtain hmark | hmark := hmark
  . exact hmark hcolumn
  . exact hmark.1 hpercent

theorem exists_contentLine_eq {c d : Char} {m : Nat} (h : contentToken c d r = some ((), r₁))
    (hr₁ : r₁.cursor.At ⟨spaces m ++ k, n, q⟩)
    (hk : isBlank (k.headD endMark) = false ∧ k.headD endMark ≠ '#') :
    ∃ c', contentLine c d r = some ((), { r₁ with cursor := c' }) ∧ c'.At ⟨spaces m ++ k, 0, q⟩ := by
  have hcomment := Runs.lineComment (p := q) (w := spaces m) (u := k)
    (fun d hd => by rw [List.eq_of_mem_replicate hd]; rfl) hk n
  unfold contentLine
  rw [bind_eq h, get_bind]
  split
  . obtain ⟨c', hscan, hc'⟩ := exists_scan_eq hcomment hr₁
    exact ⟨c', hscan, hc'⟩
  . exact ⟨r₁.cursor, rfl, hr₁.mono (Nat.zero_le n)⟩

theorem exists_contentLine_before {c d : Char} {j : Nat} (h : contentToken c d r = some ((), r₁)) (hr₁ : Before r₁ j k)
    (hk : isTokenStart (k.headD endMark)) :
    ∃ c', contentLine c d r = some ((), { r₁ with cursor := c' }) ∧ Before { r₁ with cursor := c' } j k ∧
      c'.size = r₁.cursor.size := by
  simp only [isTokenStart, isSolid, Bool.and_eq_true, Bool.not_eq_true', decide_eq_true_eq] at hk
  obtain ⟨n, p, ⟨hr₁, hcolumn, hkey⟩ | hr₁⟩ := hr₁
  . obtain ⟨c', hline, hc'⟩ := exists_contentLine_eq (m := 0) h hr₁ ⟨hk.1.1, hk.2⟩
    exact ⟨c', hline, ⟨0, p, .inl ⟨hc', hcolumn, hkey⟩⟩, hc'.size_eq.trans hr₁.size_eq.symm⟩
  . obtain ⟨c', hline, hc'⟩ := exists_contentLine_eq (m := 0) (k := '\n' :: (spaces j ++ k)) h hr₁
      ⟨rfl, (by decide : '\n' ≠ '#')⟩
    exact ⟨c', hline, ⟨0, p, .inr hc'⟩, hc'.size_eq.trans hr₁.size_eq.symm⟩

end Next

end ReadM

end VerboseExpr.Yaml
