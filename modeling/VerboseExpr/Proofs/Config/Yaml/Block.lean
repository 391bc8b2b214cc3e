import VerboseExpr.Proofs.Config.Yaml.Gap

namespace VerboseExpr.Yaml

/-- The lines of a block as they are written behind the indentation of the first one, and the text that they stand for,
with the line breaks at its end apart. A text without one gets one. -/
inductive IsBlock (indent : Nat) : List Char → List Char → List Char → Prop where
  | last {w g : List Char} : w ≠ [] → (∀ c ∈ w, isLineEnd c = false) → (∀ d ∈ g, isBreak d) →
    IsBlock indent (w ++ g.headD '\n' :: g.tail) w g
  | more {w v x g bs : List Char} {b : Char} : w ≠ [] → (∀ c ∈ w, isLineEnd c = false) → (∀ d ∈ b :: bs, isBreak d) →
    IsBlock indent v x g → IsBlock indent (w ++ b :: (bs ++ (spaces indent ++ v))) (w ++ b :: (bs ++ x)) g

theorem IsBlock.exists_cons {indent : Nat} {v x g : List Char} (h : IsBlock indent v x g) :
    ∃ c y z, v = c :: y ∧ x = c :: z ∧ isBreak c = false := by
  have hfirst : ∀ {w : List Char}, w ≠ [] → (∀ c ∈ w, isLineEnd c = false) →
      ∃ c w', w = c :: w' ∧ isBreak c = false := by
    intro w hne hw
    obtain ⟨c, w', rfl⟩ := List.exists_cons_of_ne_nil hne
    exact ⟨c, w', rfl, (Bool.or_eq_false_iff.mp (hw c (by simp))).1⟩
  cases h with
  | last hne hw =>
    obtain ⟨c, w, rfl, hc⟩ := hfirst hne hw
    exact ⟨c, _, _, rfl, rfl, hc⟩
  | more hne hw =>
    obtain ⟨c, w, rfl, hc⟩ := hfirst hne hw
    exact ⟨c, _, _, rfl, rfl, hc⟩

namespace Runs

variable {p : Place} {k : List Char} {indent j fuel : Nat}

theorem skipIndent (hle : indent = 0 ∨ p.column + j ≤ indent)
    (hstop : indent ≠ 0 ∧ p.column + j = indent ∨ k.headD endMark ≠ ' ') (hfuel : j < fuel) :
    Runs (Scan.skipIndent indent fuel) ⟨spaces j ++ k, 1, p⟩ () ⟨k, 1, p.skips j⟩ := by
  -- the reader stops at the column that it was told, or at the first character that is no blank
  induction j generalizing fuel p with
  | zero =>
    obtain ⟨fuel, rfl⟩ : ∃ n, fuel = n + 1 := ⟨fuel - 1, by omega⟩
    refine Runs.get fun c hc => ?_
    rw [hc.column_eq, hc.peek_head (Nat.succ_pos 0), if_neg]
    . exact Runs.pure () _
    . simp only [Bool.and_eq_true, Bool.or_eq_true, decide_eq_true_eq]
      rintro ⟨hcolumn, hblank⟩
      obtain hstop | hstop := hstop
      . simp only [Nat.add_zero] at hstop
        omega
      . exact hstop hblank
  | succ j ih =>
    obtain ⟨fuel, rfl⟩ : ∃ n, fuel = n + 1 := ⟨fuel - 1, by omega⟩
    refine Runs.get fun c hc => ?_
    have hmore := ih (p := p.skips 1) (by simp; omega) (by simpa [Nat.add_assoc, Nat.add_comm 1] using hstop)
      (by omega : _ < fuel)
    rw [hc.column_eq, hc.peek_head (Nat.succ_pos 0), if_pos]
    . refine Runs.bind (skip ' ' (spaces j ++ k) 0) (Runs.bind (need _ 0 1) ?_)
      simpa [Nat.add_comm] using hmore
    . have hcolumn : indent = 0 ∨ p.column < indent := by omega
      simpa using ⟨hcolumn, rfl⟩

variable (indent) in
theorem blockIndentation {bs : List Char} (hbs : ∀ d ∈ bs, isBreak d) (hp : p.column = 0)
    (hle : indent = 0 ∨ j ≤ indent) (hstop : indent ≠ 0 ∧ j = indent ∨ isBlank (k.headD endMark) = false)
    (hk : isBreak (k.headD endMark) = false) (hfuel : bs.length + j + 1 < fuel) (breaks : List Char) (widest n : Nat) :
    ∃ q : Place, q.size = p.size ∧ q.column = j ∧
      Runs (Scan.blockIndentation indent breaks widest fuel) ⟨bs ++ (spaces j ++ k), n, p⟩ (breaks ++ bs, max widest j)
        ⟨k, 1, q⟩ := by
  -- an empty line is a round of the same loop, which then begins at the start of the next line
  induction bs generalizing fuel p breaks widest n with
  | nil =>
    obtain ⟨fuel, rfl⟩ : ∃ n, fuel = n + 1 := ⟨fuel - 1, by omega⟩
    have hindent := skipIndent (p := p) (k := k) (by omega : indent = 0 ∨ p.column + j ≤ indent) (by
      refine hstop.imp (fun h => ⟨h.1, by omega⟩) ?_
      rintro hsolid heq
      rw [heq] at hsolid
      exact absurd hsolid (by decide)) (by simp at hfuel; omega : _ < fuel)
    refine ⟨p.skips j, rfl, by simp [hp], Runs.bind (need _ n 1) (Runs.bind hindent (Runs.get fun c hc => ?_))⟩
    have htab : ¬((indent = 0 ∨ j < indent) ∧ k.headD endMark = '\t') := by
      rintro ⟨hcolumn, htab⟩
      obtain hstop | hstop := hstop
      . omega
      . rw [htab] at hstop
        exact absurd hstop (by decide)
    rw [hc.column_eq, hc.peek_head (Nat.succ_pos 0)]
    simp only [Place.column_skips, hp, Nat.zero_add, hk]
    rw [if_neg (by simpa using htab), if_neg (by decide)]
    simpa using Runs.pure (α := List Char × Nat) _ _
  | cons b bs ih =>
    obtain ⟨fuel, rfl⟩ : ∃ n, fuel = n + 1 := ⟨fuel - 1, by omega⟩
    have hb := hbs b (by simp)
    have hindent := skipIndent (p := p) (k := b :: (bs ++ (spaces j ++ k)))
      (by omega : indent = 0 ∨ p.column + 0 ≤ indent) (.inr (by rintro rfl; exact absurd hb (by decide)))
      (by simp at hfuel; omega : _ < fuel)
    obtain ⟨q, hsize, hcolumn, hmore⟩ := ih (fun d hd => hbs d (by simp [hd])) (p := p.skipLine) rfl
      (by simp at hfuel; omega : _ < fuel) (breaks ++ [b]) (max widest 0) 1
    refine ⟨q, hsize, hcolumn, Runs.bind (need _ n 1) (Runs.bind hindent (Runs.get fun c hc => ?_))⟩
    rw [hc.column_eq, hc.peek_head (Nat.succ_pos 0)]
    simp only [Place.column_skips, hp, List.headD_cons, hb]
    rw [if_neg, if_pos trivial]
    . refine Runs.bind (takeLine hb _ 1) ?_
      simpa using hmore
    . simp only [Bool.and_eq_true]
      rintro ⟨-, htab⟩
      obtain rfl := of_decide_eq_true htab
      exact absurd hb (by decide)

theorem blockLines_line {w : List Char} {b : Char} (hw : ∀ c ∈ w, isLineEnd c = false) (hb : isBreak b)
    (hp : p.column = indent) (hsize : w.length < p.size) {ending breaks read : List Char} {wasBlank : Bool}
    {more : List Char} {widest : Nat} {k₁ : List Char} {q₁ : Place} {a : List Char × List Char × List Char} {q : Spot}
    (hindentation : Runs (Scan.blockIndentation indent [] 0 fuel) ⟨k, 1, (p.skips w.length).skipLine⟩ (more, widest)
      ⟨k₁, 1, q₁⟩)
    (hmore : Runs (Scan.blockLines false indent [b] more (isBlank ((w ++ b :: k).headD endMark))
      (w.reverse ++ breaks.reverse ++ ending.reverse ++ read) fuel) ⟨k₁, 1, q₁⟩ a q) :
    Runs (Scan.blockLines false indent ending breaks wasBlank read (fuel + 1)) ⟨w ++ b :: k, 1, p⟩ a q := by
  have hend : isLineEnd b := by rw [isLineEnd, hb, Bool.true_or]
  have hline := takeWhile (p := p) (f := (!isLineEnd ·)) (w := w) (u := b :: k) (fun c hc => by simp [hw c hc])
    (by simp [hend]) hsize 1
  refine Runs.get fun c hc => ?_
  have hhead := hc.headD_ne (by simp)
  rw [hc.column_eq, hc.peek_head (Nat.succ_pos 0), if_neg (by simp [hp]; simpa using hhead)]
  refine Runs.bind hline (Runs.bind (takeLine hb k 1) (Runs.bind hindentation ?_))
  exact hmore

variable (fuel) in
theorem blockLines_over (hp : p.column ≠ indent) (ending breaks : List Char) (wasBlank : Bool) (read : List Char) :
    Runs (Scan.blockLines false indent ending breaks wasBlank read (fuel + 1)) ⟨k, 1, p⟩ (read.reverse, ending, breaks)
      ⟨k, 1, p⟩ := by
  refine Runs.get fun c hc => ?_
  rw [hc.column_eq, if_pos (by simp [hp])]
  exact Runs.pure _ _

theorem blockLines {v x g : List Char} (h : IsBlock indent v x g) (hp : p.column = indent) (hj : j < indent)
    (hk : isSolid (k.headD endMark)) (hfuel : v.length + indent + 2 < fuel) (hsize : v.length < p.size)
    (ending breaks : List Char) (wasBlank : Bool) (read : List Char) :
    ∃ q : Place, q.size = p.size ∧ q.column = j ∧
      Runs (Scan.blockLines false indent ending breaks wasBlank read fuel) ⟨v ++ (spaces j ++ k), 1, p⟩
        (read.reverse ++ ending ++ breaks ++ x, [g.headD '\n'], g.tail) ⟨k, 1, q⟩ := by
  simp only [isSolid, Bool.and_eq_true, Bool.not_eq_true'] at hk
  -- the lines are read in their order, and the breaks between them are held back until more follows
  induction h generalizing fuel p ending breaks wasBlank read with
  | last hne hw hg =>
    rename_i w g
    obtain ⟨fuel, rfl⟩ : ∃ n, fuel = n + 2 := ⟨fuel - 2, by omega⟩
    simp only [List.length_append, List.length_cons] at hfuel hsize
    have hbreak : isBreak (g.headD '\n') := by
      cases g with
      | nil => rfl
      | cons d g => exact hg d (by simp)
    obtain ⟨q, hq, hcolumn, hindentation⟩ := blockIndentation indent (p := (p.skips w.length).skipLine) (k := k)
      (j := j) (fun d hd => hg d (List.mem_of_mem_tail hd) : ∀ d ∈ g.tail, isBreak d) rfl
      (.inr (Nat.le_of_lt hj)) (.inr hk.1) hk.2 (by omega : _ < fuel + 1) [] 0 1
    refine ⟨q, hq, hcolumn, ?_⟩
    rw [List.append_assoc, List.cons_append]
    refine blockLines_line hw hbreak hp (by omega) hindentation ?_
    have hover := blockLines_over (p := q) (k := k) fuel (by omega : q.column ≠ indent) [g.headD '\n'] g.tail
      (isBlank ((w ++ g.headD '\n' :: (g.tail ++ (spaces j ++ k))).headD endMark))
      (w.reverse ++ breaks.reverse ++ ending.reverse ++ read)
    simpa using hover
  | more hne hw hb hblock ih =>
    rename_i w v x g bs b
    obtain ⟨fuel, rfl⟩ : ∃ n, fuel = n + 1 := ⟨fuel - 1, by omega⟩
    simp only [List.length_append, List.length_cons, spaces, List.length_replicate] at hfuel hsize
    obtain ⟨c, y, z, hcons, -, hc⟩ := hblock.exists_cons
    obtain ⟨q₁, hq₁, hcolumn₁, hindentation⟩ := blockIndentation indent (p := (p.skips w.length).skipLine)
      (k := v ++ (spaces j ++ k)) (j := indent) (fun d hd => hb d (by simp [hd]) : ∀ d ∈ bs, isBreak d) rfl
      (.inr (Nat.le_refl _)) (.inl ⟨by omega, rfl⟩) (by rw [hcons]; exact hc) (by omega : _ < fuel) [] 0 1
    obtain ⟨q, hq, hcolumn, hmore⟩ := ih (p := q₁) hcolumn₁ (by omega : _ < fuel) (by rw [hq₁]; simp; omega) [b] bs
      (isBlank ((w ++ b :: (bs ++ (spaces indent ++ (v ++ (spaces j ++ k))))).headD endMark))
      (w.reverse ++ breaks.reverse ++ ending.reverse ++ read)
    refine ⟨q, hq.trans hq₁, hcolumn, ?_⟩
    rw [List.append_assoc, List.cons_append, List.append_assoc, List.append_assoc]
    refine blockLines_line hw (hb b (by simp)) hp (by omega) hindentation ?_
    simpa using hmore

section Header

def sign : Scan.Chomp → List Char
  | .clip => []
  | .strip => ['-']
  | .keep => ['+']

def signed? : Scan.Chomp → Option Scan.Chomp
  | .clip => none
  | c => some c

theorem chomp (c : Scan.Chomp) (hk : k.headD endMark ≠ '+' ∧ k.headD endMark ≠ '-') (n : Nat) :
    Runs Scan.chomp ⟨sign c ++ k, n, p⟩ (signed? c) ⟨k, 0, p.skips (sign c).length⟩ := by
  refine Runs.bind (need _ n 1) (Runs.bind (peekHead _ 0) ?_)
  cases c with
  | clip =>
    rw [sign, List.nil_append]
    split
    . next heq => exact absurd heq hk.1
    . next heq => exact absurd heq hk.2
    . exact (Runs.pure none ⟨k, 1, p⟩).mono (Nat.zero_le 1)
  | strip => exact Runs.bind (skip '-' k 0) (Runs.pure _ _)
  | keep => exact Runs.bind (skip '+' k 0) (Runs.pure _ _)

theorem blockHeader (c : Scan.Chomp) (hinted : Bool) (hsize : 0 < p.size) (n : Nat) :
    ∃ q : Place, q.size = p.size ∧ q.column = 0 ∧
      Runs Scan.blockHeader ⟨(if hinted then ['4'] else []) ++ (sign c ++ '\n' :: k), n, p⟩
        (c, if hinted then 4 else 0) ⟨k, 1, q⟩ := by
  have hline : ∀ p : Place, 0 < p.size → ∀ (a b : Option Scan.Chomp) (width : Nat), (a.or b).getD .clip = c →
      Runs (do
        Scan.skipWhile isBlank
        if (← Scan.peek 0) = '#' then
          Scan.lineComment
          Scan.skipWhile (!isLineEnd ·)
        if !isLineEnd (← Scan.peek 0) then failure
        if isBreak (← Scan.peek 0) then Scan.skipLine
        return ((a.or b).getD .clip, width)) ⟨'\n' :: k, 0, p⟩ (c, width) ⟨k, 1, p.skipLine⟩ := by
    intro p hsize a b width hc
    refine Runs.bind (skipWhile (w := []) (by simp) rfl hsize 0) (Runs.bind (peekHead _ 0) ?_)
    rw [List.headD_cons, if_neg (by decide)]
    refine Runs.bind (peekHead _ 0) (Runs.bind (peekHead _ 0) ?_)
    rw [List.headD_cons]
    refine Runs.bind (skipLine (by decide) k 1) ?_
    rw [hc]
    exact Runs.pure (c, width) _
  -- the sign may stand before the width or after it, and nothing is taken for both
  have hsigned : ((signed? c).or none).getD .clip = c ∧ (none.or (signed? c)).getD .clip = c := by
    cases c <;> exact ⟨rfl, rfl⟩
  have hother : ∀ {b d : Char} (k : List Char), d ≠ b → (b :: k).headD endMark ≠ d := fun _ h heq => h heq.symm
  have hwidth : ∀ p : Place, Runs Scan.blockWidth ⟨'\n' :: k, 0, p⟩ none ⟨'\n' :: k, 0, p⟩ := fun p =>
    Runs.bind (need _ 0 1) (Runs.bind (peekHead _ 0) ((Runs.pure none ⟨'\n' :: k, 1, p⟩).mono (Nat.zero_le 1)))
  cases hinted with
  | false =>
    refine ⟨(p.skips (sign c).length).skipLine, rfl, rfl, ?_⟩
    refine Runs.bind (chomp c ⟨hother k (by decide), hother k (by decide)⟩ n) (Runs.bind (hwidth _) ?_)
    rw [if_neg (by simp)]
    exact Runs.bind (Runs.pure none _) (hline (p.skips (sign c).length) hsize _ none 0 hsigned.1)
  | true =>
    have hfour : Runs Scan.blockWidth ⟨'4' :: (sign c ++ '\n' :: k), 0, p⟩ (some 4)
        ⟨sign c ++ '\n' :: k, 0, p.skips 1⟩ :=
      Runs.bind (need _ 0 1) (Runs.bind (peekHead _ 0) (Runs.bind (skip '4' _ 0) (Runs.pure _ _)))
    refine ⟨((p.skips 1).skips (sign c).length).skipLine, rfl, rfl, ?_⟩
    refine Runs.bind (chomp .clip (k := '4' :: (sign c ++ '\n' :: k)) ⟨hother _ (by decide), hother _ (by decide)⟩ n)
      (Runs.bind hfour ?_)
    refine Runs.bind (chomp c ⟨hother k (by decide), hother k (by decide)⟩ 0) ?_
    exact hline ((p.skips 1).skips (sign c).length) hsize none _ 4 hsigned.2

end Header

/-- A block is read with as many line breaks at its end as the header says. -/
theorem block {column : Nat} {v x g : List Char} (h : IsBlock column v x g) (c : Scan.Chomp) {hinted : Bool}
    (hcolumn : if hinted then indent - 1 + 4 = column else indent ≤ column ∧ isBlank (v.headD endMark) = false)
    (hj : j < column) (hk : isSolid (k.headD endMark)) (hfuel : v.length + column + 2 < fuel)
    (hsize : v.length < p.size)
    (n : Nat) :
    ∃ q : Place, q.size = p.size ∧ q.column = j ∧
      Runs (Scan.block false indent fuel)
        ⟨(if hinted then ['4'] else []) ++ (sign c ++ '\n' :: (spaces column ++ (v ++ (spaces j ++ k)))), n, p⟩
        (x ++ (if c = .strip then [] else [g.headD '\n']) ++ if c = .keep then g.tail else []) ⟨k, 1, q⟩ := by
  obtain ⟨d, y, z, hd, -, hbreak⟩ := h.exists_cons
  -- The column of the block, if the header tells it, or else zero.
  obtain ⟨known, hknown, hle, hstop, hwhere⟩ : ∃ known,
      (if (if hinted then 4 else 0) = 0 then 0 else indent - 1 + if hinted then 4 else 0) = known ∧
      (known = 0 ∨ column ≤ known) ∧ (known ≠ 0 ∧ column = known ∨ isBlank d = false) ∧
      (if known = 0 then max (max (max 0 column) indent) 1 else known) = column := by
    cases hinted with
    | true =>
      rw [if_pos rfl] at hcolumn
      refine ⟨column, hcolumn, .inr (Nat.le_refl _), .inl ⟨by omega, rfl⟩, if_neg (by omega)⟩
    | false =>
      rw [if_neg (by decide), hd] at hcolumn
      exact ⟨0, rfl, .inl rfl, .inr hcolumn.2, by rw [if_pos rfl]; omega⟩
  obtain ⟨q₁, hsize₁, hcolumn₁, hheader⟩ := blockHeader (k := spaces column ++ (v ++ (spaces j ++ k))) c hinted
    (p := p) (by omega) n
  obtain ⟨q₂, hsize₂, hcolumn₂, hindentation⟩ := blockIndentation known (p := q₁) (k := v ++ (spaces j ++ k))
    (j := column) (by simp : ∀ d ∈ [], isBreak d) hcolumn₁ hle (by rw [hd]; exact hstop)
    (by rw [hd]; exact hbreak) (by simp; omega : _ < fuel) [] 0 1
  obtain ⟨q₃, hsize₃, hcolumn₃, hlines⟩ := blockLines (p := q₂) h hcolumn₂ hj hk hfuel
    (by rw [hsize₂, hsize₁]; exact hsize) [] [] false []
  refine ⟨q₃, by rw [hsize₃, hsize₂, hsize₁], hcolumn₃, ?_⟩
  refine Runs.bind hheader ?_
  simp only [hknown]
  refine Runs.bind hindentation ?_
  simp only [hwhere]
  refine Runs.bind (need _ 1 1) (Runs.bind hlines ?_)
  exact Runs.pure _ _

end Runs

section Written

variable {indent : Nat} {v x g : List Char}

theorem IsBlock.exists_getLast? (h : IsBlock indent v x g) : ∃ c, x.getLast? = some c ∧ isBreak c = false := by
  induction h with
  | last hne hw _ =>
    rename_i w g _
    exact ⟨w.getLast hne, List.getLast?_eq_some_getLast hne, (Bool.or_eq_false_iff.mp (hw _ (List.getLast_mem hne))).1⟩
  | more hne hw hb hblock ih =>
    obtain ⟨c, hc, hbreak⟩ := ih
    refine ⟨c, ?_, hbreak⟩
    rw [List.getLast?_append, List.getLast?_cons, List.getLast?_append, hc]
    rfl

theorem IsBlock.isBreak (h : IsBlock indent v x g) : ∀ d ∈ g, isBreak d := by
  induction h with
  | last _ _ hg => exact hg
  | more _ _ _ _ ih => exact ih

variable (indent) in
theorem blockBody_word {w : List Char} (hw : ∀ c ∈ w, isBreak c = false) (r : List Char) :
    blockBody indent false false (w ++ r) = w ++ blockBody indent false false r := by
  induction w with
  | nil => rfl
  | cons c w ih =>
    rw [List.cons_append, blockBody, hw c (by simp), ih fun d hd => hw d (by simp [hd])]
    simp

theorem blockBody_breaks {bs : List Char} (hbs : ∀ d ∈ bs, isBreak d) (r : List Char) :
    blockBody indent true false (bs ++ r) = bs ++ blockBody indent true false r := by
  induction bs with
  | nil => rfl
  | cons d bs ih =>
    rw [List.cons_append, blockBody, if_pos (hbs d (by simp)), ih fun d hd => hbs d (by simp [hd]), List.cons_append]

theorem blockBody_fresh {c : Char} (hc : isBreak c = false) (u : List Char) (isOpen : Bool) :
    blockBody indent true isOpen (c :: u) =
      (if isOpen then ['\n'] else []) ++ (spaces indent ++ blockBody indent false false (c :: u)) := by
  rw [blockBody, blockBody, hc]
  simp

variable (indent) in
theorem exists_isBlock {cs : List Char} (hne : cs ≠ []) (hhead : ∀ c ∈ cs.head?, isBreak c = false)
    (hmark : endMark ∉ cs) :
    ∃ v x g, IsBlock indent v x g ∧ cs = x ++ g ∧
      blockBody indent false false cs ++ (if cs.getLast?.any isBreak then [] else ['\n']) = v := by
  have hchunk : ∀ {w r : List Char}, endMark ∉ w ++ r → (∀ c ∈ w, (!isBreak c) = true) →
      (∀ c ∈ w, isBreak c = false) ∧ ∀ c ∈ w, isLineEnd c = false := by
    intro w r hmark hw
    refine ⟨fun c hc => by simpa using hw c hc, fun c hc => ?_⟩
    have hne : c ≠ endMark := by
      rintro rfl
      exact hmark (by simp [hc])
    simpa [isLineEnd, hne] using hw c hc
  -- the text is taken as a line, the breaks behind it, and the lines that follow
  induction cs using chunk_induction (!isBreak ·) with
  | last w hw =>
    obtain ⟨hbreak, hline⟩ := hchunk (r := []) (by simpa using hmark) hw
    have hbody := blockBody_word indent hbreak []
    rw [List.append_nil, blockBody, List.append_nil] at hbody
    have hlast : w.getLast?.any isBreak = false := by
      cases h : w.getLast? with
      | none => rfl
      | some c => exact hbreak c (List.mem_of_getLast? h)
    exact ⟨_, w, [], .last hne hline (by simp), by simp, by rw [hbody, hlast]; rfl⟩
  | more w g u hw hg hbs hu ih =>
    obtain ⟨hbreak, hline⟩ := hchunk hmark hw
    obtain ⟨b, bs, rfl⟩ := List.exists_cons_of_ne_nil hg
    simp only [Bool.not_eq_false'] at hbs
    have hne' : w ≠ [] := by
      rintro rfl
      have := hhead b rfl
      rw [hbs b (by simp)] at this
      cases this
    have hbody : blockBody indent false false (w ++ (b :: bs ++ u)) =
        w ++ b :: (bs ++ blockBody indent true false u) := by
      rw [blockBody_word indent hbreak, List.cons_append, blockBody, if_pos (hbs b (by simp)),
        blockBody_breaks fun d hd => hbs d (by simp [hd])]
    cases u with
    | nil =>
      have hlast : (w ++ (b :: bs ++ [])).getLast?.any isBreak := by
        rw [List.append_nil, List.getLast?_append, List.getLast?_eq_some_getLast (List.cons_ne_nil b bs)]
        exact hbs _ (List.getLast_mem _)
      refine ⟨_, w, b :: bs, .last hne' hline hbs, by simp, ?_⟩
      rw [hlast, if_pos rfl, hbody, blockBody]
      simp
    | cons c u =>
      have hc : isBreak c = false := by simpa using hu c rfl
      obtain ⟨v, x, g, hblock, hsplit, hv⟩ := ih (by simp) (by simpa using hc) (by
        intro hmem
        exact hmark (by simp [hmem]))
      refine ⟨_, _, g, .more hne' hline hbs hblock, ?_, ?_⟩
      . rw [hsplit]
        simp
      . rw [hbody, blockBody_fresh hc, ← hv]
        rw [List.getLast?_append, List.getLast?_append, List.getLast?_eq_some_getLast (List.cons_ne_nil c u)]
        simp
        rfl

theorem exists_blockHeader_eq {c : Char} (hlast : x.getLast? = some c) (hc : isBreak c = false)
    (hg : ∀ d ∈ g, isBreak d) :
    ∃ chomp, blockHeader (x ++ g) =
        '|' :: ((if (x ++ g).head?.any fun c => c = ' ' || isBreak c then ['4'] else []) ++ Runs.sign chomp) ∧
      x ++ (if chomp = .strip then [] else [g.headD '\n']) ++ (if chomp = .keep then g.tail else []) = x ++ g := by
  obtain ⟨y, rfl⟩ : ∃ y, x = y ++ [c] := List.getLast?_eq_some_iff.mp hlast
  unfold blockHeader
  dsimp only
  -- no break at the end is stripped, one is clipped, and more than one are kept
  cases g with
  | nil =>
    refine ⟨.strip, ?_, by simp⟩
    rw [List.append_nil, List.reverse_append]
    cases y.reverse with
    | nil => simp [hc, Runs.sign]
    | cons d z => simp [hc, Runs.sign]
  | cons d ds =>
    have hd := hg d (by simp)
    obtain rfl | ⟨ds, e, rfl⟩ := List.eq_nil_or_concat ds
    . refine ⟨.clip, ?_, by simp⟩
      simp [hc, hd, Runs.sign]
    . have he := hg e (by simp)
      refine ⟨.keep, ?_, by simp⟩
      obtain rfl | ⟨ds, f, rfl⟩ := List.eq_nil_or_concat ds
      . simp [hd, he, Runs.sign]
      . simp [he, hg f (by simp), Runs.sign]

end Written

end VerboseExpr.Yaml
