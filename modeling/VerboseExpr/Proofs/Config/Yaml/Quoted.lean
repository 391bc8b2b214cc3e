import VerboseExpr.Proofs.Config.Yaml.Gap
import VerboseExpr.Proofs.Text.Quoted

namespace VerboseExpr.Yaml

namespace Runs

section Escapes

variable {p : Place} {k : List Char}

theorem hexNumber {ds : List Char} {value n : Nat}
    (h : ds.foldlM (fun n d => (Scan.hexValue? d).map (16 * n + ·)) value = some n) (m : Nat) :
    Runs (Scan.hexNumber value ds.length) ⟨ds ++ k, ds.length + m, p⟩ n ⟨k, m, p.skips ds.length⟩ := by
  induction ds generalizing value p with
  | nil =>
    cases h
    exact fun c hc => ⟨c, rfl, by simpa using hc⟩
  | cons d ds ih =>
    rw [List.foldlM_cons] at h
    cases hd : Scan.hexValue? d with
    | none => simp [hd] at h
    | some v =>
      simp only [hd, Option.map_some, Option.bind_eq_bind, Option.bind_some] at h
      rw [List.length_cons, Nat.add_right_comm, List.cons_append]
      refine Runs.bind (take d _ _) ?_
      rw [hd]
      refine Runs.bind (Runs.lift v _) ?_
      simpa [Nat.add_comm] using ih h (p := p.skips 1)

end Escapes

end Runs

theorem foldlM_hexChars (width n start : Nat) :
    (hexChars width n).foldlM (fun n d => (Scan.hexValue? d).map (16 * n + ·)) start =
      some (start * 16 ^ width + n % 16 ^ width) := by
  rw [← Quoted.foldlM_hex]
  induction width generalizing start with
  | zero => rfl
  | succ width ih =>
    have hall : ∀ m < 16, Scan.hexValue? ((fun b : UInt8 => Char.ofNat b.toNat)
        ((fun b => if 0x61 ≤ b ∧ b ≤ 0x66 then b - 0x20 else b) (Bytes.hexDigit m))) =
        VerboseExpr.Quoted.hexValue? (Bytes.hexDigit m) := by
      decide
    have hdigit := hall (n / 16 ^ width % 16) (by omega)
    have hcons : hexChars (width + 1) n = (fun b : UInt8 => Char.ofNat b.toNat)
        ((fun b => if 0x61 ≤ b ∧ b ≤ 0x66 then b - 0x20 else b) (Bytes.hexDigit (n / 16 ^ width % 16))) ::
          hexChars width n := rfl
    rw [hcons, Quoted.hex_succ, List.foldlM_cons, List.foldlM_cons, hdigit]
    cases VerboseExpr.Quoted.hexValue? (Bytes.hexDigit (n / 16 ^ width % 16)) with
    | none => rfl
    | some v => exact ih _

theorem length_hexChars (width n : Nat) : (hexChars width n).length = width := by
  unfold hexChars Bytes.hexUpper
  rw [List.length_map, List.length_map, Quoted.length_hex]

/-- How an escape names a character: by a letter, or by its number behind a letter that says how long that is. -/
inductive IsEscape (c : Char) : List Char → Prop where
  | letter {e : Char} : Scan.escapeWidth e = 0 → Scan.escaped? e = some c → isBreak e = false → IsEscape c ['\\', e]
  | number {e : Char} : Scan.escapeWidth e ≠ 0 → c.toNat < 16 ^ Scan.escapeWidth e → isBreak e = false →
    IsEscape c ('\\' :: e :: hexChars (Scan.escapeWidth e) c.toNat)

theorem IsEscape.exists_eq {c : Char} {w : List Char} (h : IsEscape c w) :
    ∃ e ds, w = '\\' :: e :: ds ∧ isBreak e = false := by
  cases h with
  | letter _ _ hbreak => exact ⟨_, _, rfl, hbreak⟩
  | number _ _ hbreak => exact ⟨_, _, rfl, hbreak⟩

theorem isEscape_escape (c : Char) : IsEscape c (escape c) := by
  have hletter : ∀ {n : Nat} {e : Char}, c.toNat = n →
      (Scan.escapeWidth e = 0 ∧ Scan.escaped? e = some (Char.ofNat n) ∧ isBreak e = false) → IsEscape c ['\\', e] := by
    rintro n e rfl ⟨hwidth, hescaped, hbreak⟩
    rw [Char.ofNat_toNat] at hescaped
    exact .letter hwidth hescaped hbreak
  unfold escape
  dsimp only
  split
  case h_16 =>
    split
    . next hn => exact .number (e := 'x') (by decide) (Nat.lt_of_le_of_lt hn (by decide)) (by decide)
    . split
      . next hn => exact .number (e := 'u') (by decide) (Nat.lt_of_le_of_lt hn (by decide)) (by decide)
      . have hlt : c.toNat < 0x110000 := by
          have hvalid : c.toNat < 0xD800 ∨ 0xDFFF < c.toNat ∧ c.toNat < 0x110000 := c.valid
          omega
        exact .number (e := 'U') (by decide) (Nat.lt_trans hlt (by decide)) (by decide)
  all_goals
    next hn => exact hletter hn (by decide)

theorem Runs.escape {c : Char} {e : Char} {ds : List Char} (h : IsEscape c ('\\' :: e :: ds)) (p : Place)
    (k : List Char) : Runs (Scan.escape e) ⟨'\\' :: e :: (ds ++ k), 2, p⟩ c ⟨k, 0, p.skips (ds.length + 2)⟩ := by
  cases h with
  | letter hwidth hescaped =>
    unfold Scan.escape
    simp only [hwidth, if_pos, hescaped]
    refine Runs.bind (Runs.lift c _) (Runs.bind (skips ['\\', e] k 0) (Runs.pure c _))
  | number hwidth hsmall =>
    have hdigits := foldlM_hexChars (Scan.escapeWidth e) c.toNat 0
    have hlength := length_hexChars (Scan.escapeWidth e) c.toNat
    generalize hexChars (Scan.escapeWidth e) c.toNat = ds at hdigits hlength
    rw [Nat.zero_mul, Nat.zero_add, Nat.mod_eq_of_lt hsmall] at hdigits
    unfold Scan.escape
    rw [if_neg hwidth, ← hlength]
    refine Runs.bind (skips ['\\', e] (ds ++ k) 0) (Runs.bind (need _ 0 ds.length)
      (Runs.bind (hexNumber hdigits 0) ?_))
    rw [if_pos (Quoted.Spells.isScalar_toNat c), Char.ofNat_toNat]
    simpa [Nat.add_comm] using Runs.pure c _

/-- Between quotes the character `c` is written as `w`: as it is, as two single quotes for one, or as an escape. -/
inductive IsPiece : Char → List Char → Char → Prop where
  | plain {quote c : Char} : isGap c = false → c ≠ quote → (quote = '"' → c ≠ '\\') → IsPiece quote [c] c
  | doubled : IsPiece '\'' ['\'', '\''] '\''
  | escape {c : Char} {w : List Char} : IsEscape c w → IsPiece '"' w c

/-- Characters between quotes without white space, as they are written and as they are read. -/
inductive IsQuotedWord (quote : Char) : List Char → List Char → Prop where
  | nil : IsQuotedWord quote [] []
  | cons {w v t : List Char} {c : Char} : IsPiece quote w c → IsQuotedWord quote v t →
    IsQuotedWord quote (w ++ v) (c :: t)

/-- A text between quotes, as it is written and as it is read: words, with blanks or indented lines between them. -/
inductive IsQuoted (quote : Char) : List Char → List Char → Prop where
  | word {w t : List Char} : IsQuotedWord quote w t → IsQuoted quote w t
  | blanks {w t v u : List Char} (m : Nat) : IsQuotedWord quote w t → IsQuoted quote v u →
    (∀ c ∈ v.head?, isSolid c) → IsQuoted quote (w ++ (spaces (m + 1) ++ v)) (t ++ (spaces (m + 1) ++ u))
  | breaks {w t v u bs : List Char} {b : Char} (m : Nat) : IsQuotedWord quote w t → (∀ d ∈ b :: bs, isBreak d) →
    b ≠ '\n' → IsQuoted quote v u → (∀ c ∈ v.head?, isSolid c) → (m = 0 → v = []) →
    IsQuoted quote (w ++ (b :: bs ++ (spaces m ++ v))) (t ++ (b :: bs ++ u))

theorem IsEscape.length_pos {c : Char} {w : List Char} (h : IsEscape c w) : 0 < w.length := by
  cases h <;> simp

theorem IsPiece.length_pos {quote c : Char} {w : List Char} (h : IsPiece quote w c) : 0 < w.length := by
  cases h with
  | plain => exact Nat.succ_pos 0
  | doubled => exact Nat.succ_pos 1
  | escape h => exact h.length_pos

theorem IsQuotedWord.length_le {quote : Char} {w t : List Char} (h : IsQuotedWord quote w t) : t.length ≤ w.length := by
  induction h with
  | nil => exact Nat.le_refl _
  | cons hpiece _ ih =>
    have hpos := hpiece.length_pos
    rw [List.length_cons, List.length_append]
    omega

namespace Runs

section Quotes

variable {p : Place} {k : List Char} {quote : Char} {fuel : Nat}

theorem quotedWord_piece {w : List Char} {c : Char} (h : IsPiece quote w c) {read : List Char} {a : List Char × Bool}
    {q : Spot} (hmore : Runs (Scan.quotedWord quote (c :: read) fuel) ⟨k, 2, p.skips w.length⟩ a q) :
    Runs (Scan.quotedWord quote read (fuel + 1)) ⟨w ++ k, 2, p⟩ a q := by
  cases h with
  | plain hgap hquote hslash =>
    refine Runs.bind (peekHead _ 1) (Runs.bind (peek (by decide)) ?_)
    have hdoubled : ¬(c = '\'' ∧ quote = '\'') := by
      rintro ⟨rfl, rfl⟩
      exact hquote rfl
    have hescape : ¬(c = '\\' ∧ quote = '"') := fun ⟨hc, hq⟩ => hslash hq hc
    rw [List.singleton_append, List.headD_cons, if_neg (by simp [hgap]),
      if_neg (by simp only [Bool.and_eq_true, decide_eq_true_eq]; exact fun h => hdoubled h.1), if_neg hquote,
      if_neg (by simpa using hescape)]
    exact Runs.bind (skip c k 1) (Runs.bind (need k 1 2) hmore)
  | doubled =>
    refine Runs.bind (peekHead _ 1) (Runs.bind (peek (by decide)) ?_)
    exact Runs.bind (skips ['\'', '\''] k 0) (Runs.bind (need k 0 2) hmore)
  | escape h =>
    obtain ⟨e, ds, rfl, hbreak⟩ := h.exists_eq
    refine Runs.bind (peekHead _ 1) (Runs.bind (peek (by decide)) ?_)
    change Runs (if isBreak e then _ else _) _ _ _
    rw [hbreak, if_neg (by decide)]
    exact Runs.bind (Runs.escape h p k) (Runs.bind (need k 0 2) hmore)

theorem quotedWord {w t : List Char} (h : IsQuotedWord quote w t)
    (hk : isGap (k.headD endMark) ∨ ∃ k', k = quote :: k' ∧ k'.headD endMark ≠ quote) (hfuel : t.length < fuel)
    (read : List Char) :
    Runs (Scan.quotedWord quote read fuel) ⟨w ++ k, 2, p⟩ (t.reverse ++ read, false) ⟨k, 2, p.skips w.length⟩ := by
  -- a word ends at a gap or at the quote, unless the quote is doubled
  induction h generalizing read fuel p with
  | nil =>
    obtain ⟨fuel, rfl⟩ : ∃ n, fuel = n + 1 := ⟨fuel - 1, by simp at hfuel; omega⟩
    refine Runs.bind (peekHead _ 1) (Runs.bind (peek (by decide)) ?_)
    rw [List.nil_append]
    split
    . exact Runs.pure _ _
    . next hgap =>
      obtain ⟨k', rfl, hk'⟩ := hk.resolve_left hgap
      have hsecond : (quote :: k').getD 1 endMark = k'.headD endMark := by cases k' <;> rfl
      rw [hsecond, if_neg, if_pos (by rfl)]
      . exact Runs.pure _ _
      . simp only [List.headD_cons, Bool.and_eq_true, decide_eq_true_eq]
        rintro ⟨⟨-, rfl⟩, heq⟩
        exact hk' heq
  | cons hpiece hword ih =>
    rename_i w v t c
    obtain ⟨fuel, rfl⟩ : ∃ n, fuel = n + 1 := ⟨fuel - 1, by omega⟩
    rw [List.append_assoc]
    refine quotedWord_piece hpiece ?_
    have hmore := ih (p := p.skips w.length) (by simp at hfuel; omega : _ < fuel) (c :: read)
    simpa using hmore

theorem headD_append_cons {v : List Char} {f : Char → Bool} (hv : ∀ c ∈ v.head?, f c) (hquote : f quote) :
    f ((v ++ quote :: k).headD endMark) := by
  cases v with
  | nil => exact hquote
  | cons c v => exact hv c rfl

theorem isOver_eq_false {cs : List Char} {c : Cursor} (hc : c.At ⟨cs, 4, p⟩) (hcs : cs ≠ [])
    (hp : p.column ≠ 0 ∨ cs.headD endMark ≠ '-' ∧ cs.headD endMark ≠ '.') :
    (c.atDocumentMark || decide (c.peek 0 = endMark)) = false := by
  have hend : c.peek 0 ≠ endMark := by
    rw [hc.peek_head (Nat.succ_pos 3)]
    exact hc.headD_ne hcs
  unfold Cursor.atDocumentMark
  rw [hc.atMark_eq_false (hp.imp id fun h => ⟨Nat.succ_pos 3, h.1⟩),
    hc.atMark_eq_false (hp.imp id fun h => ⟨Nat.succ_pos 3, h.2⟩), decide_eq_false hend]
  rfl

theorem quoted_word {w t : List Char} (h : IsQuotedWord quote w t) (hquote : quote = '\'' ∨ quote = '"')
    (hk : k.headD endMark ≠ quote) (hp : p.column ≠ 0 ∨ w = []) (hfuel : t.length < fuel) (read : List Char) (n : Nat) :
    Runs (Scan.quoted quote read (fuel + 1)) ⟨w ++ quote :: k, n, p⟩ (read.reverse ++ t)
      ⟨k, 0, p.skips (w.length + 1)⟩ := by
  refine Runs.bind (need _ n 4) (Runs.get fun c hc => ?_)
  rw [isOver_eq_false hc (by simp), if_neg (by decide)]
  . have hword := quotedWord (p := p) h (.inr ⟨k, rfl, hk⟩) hfuel read
    refine Runs.bind (hword.of_le (by decide)) (Runs.bind (need _ 2 1) (Runs.bind (peekHead _ 0) ?_))
    rw [List.headD_cons, if_pos rfl]
    refine Runs.bind (skip quote k 0) ?_
    simpa using Runs.pure (α := List Char) _ _
  . refine hp.imp id ?_
    rintro rfl
    rw [List.nil_append, List.headD_cons]
    obtain rfl | rfl := hquote <;> decide

theorem quoted_gap {w t : List Char} (h : IsQuotedWord quote w t) (hquote : quote = '\'' ∨ quote = '"')
    (hk : isGap (k.headD endMark)) (hp : p.column ≠ 0) (hfuel : t.length < fuel) {read : List Char} {n : Nat} {g : Gap}
    {k₁ : List Char} {q₁ : Place} {a : List Char} {q : Spot}
    (hgap : Runs (Scan.gap 0 {} fuel) ⟨k, 1, p.skips w.length⟩ g ⟨k₁, 1, q₁⟩)
    (hmore : Runs (Scan.quoted quote (g.text.reverse ++ (t.reverse ++ read)) fuel) ⟨k₁, 1, q₁⟩ a q) (hne : k ≠ []) :
    Runs (Scan.quoted quote read (fuel + 1)) ⟨w ++ k, n, p⟩ a q := by
  have hother : k.headD endMark ≠ quote := by
    rintro heq
    rw [heq] at hk
    obtain rfl | rfl := hquote <;> exact absurd hk (by decide)
  refine Runs.bind (need _ n 4) (Runs.get fun c hc => ?_)
  rw [isOver_eq_false hc (by simp [hne]) (.inl hp), if_neg (by decide)]
  have hword := quotedWord (p := p) h (.inl hk) hfuel read
  refine Runs.bind (hword.of_le (by decide)) (Runs.bind (need _ 2 1) (Runs.bind (peekHead _ 0) ?_))
  rw [if_neg hother]
  exact Runs.bind hgap hmore

theorem quoted {w t : List Char} (h : IsQuoted quote w t) (hquote : quote = '\'' ∨ quote = '"')
    (hk : k.headD endMark ≠ quote) (hp : p.column ≠ 0 ∨ w = []) (hfuel : w.length + 2 < fuel)
    (read : List Char) (n : Nat) :
    ∃ q : Place, q.size = p.size ∧
      Runs (Scan.quoted quote read fuel) ⟨w ++ quote :: k, n, p⟩ (read.reverse ++ t) ⟨k, 0, q⟩ := by
  have hsolid : isSolid quote := by obtain rfl | rfl := hquote <;> decide
  -- each gap is read with the word before it, and the rest of the text follows by induction
  induction h generalizing read fuel p n with
  | word hword =>
    rename_i w t
    have hlength := hword.length_le
    obtain ⟨fuel, rfl⟩ : ∃ n, fuel = n + 1 := ⟨fuel - 1, by omega⟩
    exact ⟨p.skips (w.length + 1), rfl, quoted_word hword hquote hk hp (by omega) read n⟩
  | blanks m hword hv hhead ih =>
    rename_i w t v u
    have hlength := hword.length_le
    obtain ⟨fuel, rfl⟩ : ∃ n, fuel = n + 1 := ⟨fuel - 1, by omega⟩
    simp only [List.length_append, spaces, List.length_replicate] at hfuel
    have hcolumn : p.column ≠ 0 := hp.resolve_right (by simp [spaces])
    have hgap : Runs (Scan.gap 0 {} fuel) ⟨spaces (m + 1) ++ (v ++ quote :: k), 1, p.skips w.length⟩ _ _ :=
      gap_blanks rfl (headD_append_cons hhead hsolid) (by omega)
    obtain ⟨q, hsize, hmore⟩ := ih (p := (p.skips w.length).skips (m + 1)) (.inl (by simp)) (by omega : _ < fuel)
      ((spaces (m + 1)).reverse ++ (t.reverse ++ read)) 1
    rw [List.append_assoc, List.append_assoc]
    refine ⟨q, hsize, quoted_gap hword hquote rfl hcolumn (by omega) hgap ?_ (by simp [spaces])⟩
    simpa [Gap.text] using hmore
  | breaks m hword hbs hb hv hhead hm ih =>
    rename_i w t v u bs b
    have hlength := hword.length_le
    obtain ⟨fuel, rfl⟩ : ∃ n, fuel = n + 2 := ⟨fuel - 2, by omega⟩
    simp only [List.length_append, List.length_cons, spaces, List.length_replicate] at hfuel
    have hcolumn : p.column ≠ 0 := hp.resolve_right (by simp)
    obtain ⟨q₁, hsize₁, hcolumn₁, hbreaks⟩ := gap_breaks 0 (p := (p.skips w.length).skipLine)
      (g := ({} : Gap).push [b]) (k := v ++ quote :: k) (fun d hd => hbs d (by simp [hd]) : ∀ d ∈ bs, isBreak d) rfl
      (headD_append_cons hhead hsolid) (by omega : _ + m < fuel)
    have hgap := gap_break (p := p.skips w.length) (g := {}) (hbs b (by simp)) hbreaks
    obtain ⟨q, hsize, hmore⟩ := ih (p := q₁)
      (by rw [hcolumn₁ rfl]; exact (Nat.eq_zero_or_pos m).symm.imp Nat.ne_of_gt hm) (by omega : _ < fuel + 1)
      ((b :: bs).reverse ++ (t.reverse ++ read)) 1
    rw [List.append_assoc, List.append_assoc, List.append_assoc]
    refine ⟨q, hsize.trans hsize₁, quoted_gap hword hquote ?_ hcolumn (by omega) hgap ?_ (by simp)⟩
    . rw [List.cons_append, List.headD_cons, isGap, isLineEnd, hbs b (by simp)]
      simp
    . simpa [Gap.text, Gap.push, hb] using hmore

end Quotes

end Runs

section Single

/-- Do the characters between single quotes stand for themselves, and is a line broken at no blank? -/
structure IsSingleRest (cs : List Char) : Prop where
  kept : ∀ c ∈ cs, c ≠ '\t' ∧ c ≠ '\n' ∧ c ≠ endMark
  break_blank : hasPair isBreak (· = ' ') cs = false
  blank_break : hasPair (· = ' ') isBreak cs = false

theorem hasPair_cons (f g : Char → Bool) (c d : Char) (cs : List Char) :
    hasPair f g (c :: d :: cs) = (f c && g d || hasPair f g (d :: cs)) := by
  simp [hasPair]

theorem hasPair_of_append {f g : Char → Bool} {x cs : List Char} (h : hasPair f g (x ++ cs) = false) :
    hasPair f g cs = false := by
  induction x with
  | nil => exact h
  | cons c x ih =>
    refine ih ?_
    cases hrest : x ++ cs with
    | nil => rfl
    | cons d rest =>
      rw [List.cons_append, hrest, hasPair_cons] at h
      exact (Bool.or_eq_false_iff.mp h).2

theorem IsSingleRest.of_append {x cs : List Char} (h : IsSingleRest (x ++ cs)) : IsSingleRest cs where
  kept := fun c hc => h.kept c (by simp [hc])
  break_blank := hasPair_of_append h.break_blank
  blank_break := hasPair_of_append h.blank_break

theorem IsSingleRest.uniform {g cs : List Char} (h : IsSingleRest (g ++ cs)) (hg : ∀ c ∈ g, c = ' ' ∨ isBreak c) :
    (∀ c ∈ g, c = ' ') ∨ ∀ c ∈ g, isBreak c := by
  induction g with
  | nil => exact .inl (by simp)
  | cons c g ih =>
    have hmore := ih (h.of_append (x := [c])) fun d hd => hg d (by simp [hd])
    cases g with
    | nil => simpa using hg c (by simp)
    | cons d g =>
      have hbreak := h.break_blank
      have hblank := h.blank_break
      rw [List.cons_append, List.cons_append, hasPair_cons, Bool.or_eq_false_iff] at hbreak hblank
      simp only [Bool.and_eq_false_iff, decide_eq_false_iff_not] at hbreak hblank
      simp only [List.mem_cons, forall_eq_or_imp] at hg hmore ⊢
      obtain hmore | hmore := hmore
      . refine .inl ⟨hg.1.resolve_right fun hc => ?_, hmore⟩
        exact hbreak.1.elim (fun hc' => by simp [hc] at hc') fun hd => hd hmore.1
      . refine .inr ⟨hg.1.resolve_left fun hc => ?_, hmore⟩
        exact hblank.1.elim (fun hc' => hc' hc) fun hd => by simp [hmore.1] at hd

def doubled (c : Char) : List Char := if c = '\'' then ['\'', '\''] else [c]

def isSingleWord (c : Char) : Bool := c ≠ ' ' && !isBreak c

variable {indent : Nat}

variable (indent) in
theorem singleBody_word {w : List Char} (hw : ∀ c ∈ w, isSingleWord c) (r : List Char) :
    singleBody indent false (w ++ r) = w.flatMap doubled ++ singleBody indent false r := by
  induction w with
  | nil => rfl
  | cons c w ih =>
    have hc := hw c (by simp)
    simp only [isSingleWord, Bool.and_eq_true, decide_eq_true_eq, Bool.not_eq_true'] at hc
    rw [List.cons_append, singleBody, hc.2, if_neg (by decide), if_neg hc.1, ih fun d hd => hw d (by simp [hd])]
    simp [doubled]

theorem singleBody_spaces (afterBreak : Bool) (m : Nat) (r : List Char) :
    singleBody indent afterBreak (spaces m ++ r) = spaces m ++ singleBody indent afterBreak r := by
  induction m with
  | zero => rfl
  | succ m ih =>
    have hcons : spaces (m + 1) = ' ' :: spaces m := rfl
    rw [hcons, List.cons_append, singleBody, if_neg (by decide), if_pos rfl, ih, List.cons_append]

theorem singleBody_breaks {bs : List Char} (hbs : ∀ d ∈ bs, isBreak d) (r : List Char) :
    singleBody indent true (bs ++ r) = bs ++ singleBody indent true r := by
  induction bs with
  | nil => rfl
  | cons d bs ih =>
    rw [List.cons_append, singleBody, if_pos (hbs d (by simp)), ih fun d hd => hbs d (by simp [hd]), List.cons_append]

theorem singleBody_indent {u : List Char} (hu : ∀ c ∈ u.head?, isSingleWord c) :
    singleBody indent true u = spaces (if u = [] then 0 else indent) ++ singleBody indent false u := by
  cases u with
  | nil => rfl
  | cons c u =>
    have hc := hu c rfl
    simp only [isSingleWord, Bool.and_eq_true, decide_eq_true_eq, Bool.not_eq_true'] at hc
    simp [singleBody, hc.1, hc.2]

theorem isQuotedWord_flatMap_doubled {w : List Char} (hw : ∀ c ∈ w, isGap c = false) :
    IsQuotedWord '\'' (w.flatMap doubled) w := by
  induction w with
  | nil => exact .nil
  | cons c w ih =>
    rw [List.flatMap_cons]
    refine .cons ?_ (ih fun d hd => hw d (by simp [hd]))
    unfold doubled
    split
    . next hc =>
      subst hc
      exact .doubled
    . next hc => exact .plain (hw c (by simp)) hc fun heq => absurd heq (by decide)

variable (indent) in
theorem headD_singleBody {u : List Char} (hu : ∀ c ∈ u.head?, isSingleWord c ∧ c ≠ '\t') :
    ∀ c ∈ (singleBody indent false u).head?, isSolid c := by
  cases u with
  | nil => simp [singleBody]
  | cons c u =>
    have hc := hu c rfl
    have hbody := singleBody_word indent (w := [c]) (by simpa using hc.1) u
    rw [List.singleton_append] at hbody
    simp only [isSingleWord, Bool.and_eq_true, decide_eq_true_eq, Bool.not_eq_true'] at hc
    rw [hbody, List.flatMap_cons, List.flatMap_nil, List.append_nil, doubled]
    split
    . intro d hd
      obtain rfl : '\'' = d := by simpa using hd
      decide
    . intro d hd
      obtain rfl : c = d := by simpa using hd
      simp [isSolid, isBlank, hc.1.1, hc.1.2, hc.2]

theorem IsSingleRest.isQuoted {cs : List Char} (h : IsSingleRest cs) (hindent : 0 < indent) :
    IsQuoted '\'' (singleBody indent false cs) cs := by
  have hgap : ∀ {w r : List Char}, IsSingleRest (w ++ r) → (∀ c ∈ w, isSingleWord c) → ∀ c ∈ w, isGap c = false := by
    intro w r h hw c hc
    have hword := hw c hc
    have hkept := h.kept c (by simp [hc])
    simp only [isSingleWord, Bool.and_eq_true, decide_eq_true_eq, Bool.not_eq_true'] at hword
    simp [isGap, isBlank, isLineEnd, hword.1, hword.2, hkept.1, hkept.2.2]
  induction cs using chunk_induction isSingleWord with
  | last w hw =>
    have hbody := singleBody_word indent hw []
    rw [List.append_nil, singleBody, List.append_nil] at hbody
    rw [hbody]
    exact .word (isQuotedWord_flatMap_doubled (hgap (r := []) (by simpa using h) hw))
  | more w g u hw hne hg hu ih =>
    have hword := isQuotedWord_flatMap_doubled (hgap h hw)
    have hrest := h.of_append.of_append
    have hhead := headD_singleBody indent fun c hc => ⟨hu c hc, by
      have hmem : c ∈ u := List.mem_of_mem_head? hc
      exact (hrest.kept c hmem).1⟩
    have hspace : ∀ c ∈ g, c = ' ' ∨ isBreak c := by
      intro c hc
      have hother := hg c hc
      simp only [isSingleWord, Bool.and_eq_false_iff, decide_eq_false_iff_not, Decidable.not_not,
        Bool.not_eq_false'] at hother
      exact hother
    rw [singleBody_word indent hw]
    -- a gap is all blanks or all breaks, since a blank beside a break is not kept by this style
    obtain hblanks | hbreaks := h.of_append.uniform hspace
    . obtain ⟨m, rfl⟩ := eq_spaces hne hblanks
      rw [singleBody_spaces]
      exact .blanks m hword (ih hrest) hhead
    . obtain ⟨b, bs, rfl⟩ := List.exists_cons_of_ne_nil hne
      have hb := hbreaks b (by simp)
      rw [List.cons_append, singleBody, if_pos hb, singleBody_breaks fun d hd => hbreaks d (by simp [hd]),
        singleBody_indent hu]
      refine .breaks _ hword hbreaks (h.of_append.kept b (by simp)).2.1 (ih hrest) hhead ?_
      intro hzero
      split at hzero
      . next hu =>
        rw [hu]
        rfl
      . omega

theorem isSingleRest_of_singleAllowed {cs : List Char} (h : singleAllowed cs) (hline : '\n' ∉ cs) :
    IsSingleRest cs := by
  simp only [singleAllowed, Bool.and_eq_true, Bool.not_eq_true'] at h
  obtain ⟨⟨⟨hbreak, hblank⟩, htab⟩, hspecial⟩ := h
  refine ⟨fun c hc => ⟨?_, ?_, ?_⟩, hbreak, hblank⟩
  . simpa using List.any_eq_false.mp htab c hc
  . rintro rfl
    exact hline hc
  . rintro rfl
    exact List.any_eq_false.mp hspecial _ hc (by decide)

end Single

section Double

/-- Does a character belong to a word between double quotes, if those for which `f` holds are escaped? -/
def isDoubleWord (f : Char → Bool) (c : Char) : Bool := f c || c ≠ ' '

def escapedIf (f : Char → Bool) (c : Char) : List Char := if f c then escape c else [c]

variable {f : Char → Bool}

/-- Characters that are not escaped have to stand for themselves. -/
def IsDoublePlain (f : Char → Bool) : Prop :=
  ∀ c, f c = false → isPrintable c ∧ isBreak c = false ∧ c ≠ '"' ∧ c ≠ '\\'

theorem IsDoublePlain.solid (hf : IsDoublePlain f) {c : Char} (hc : isDoubleWord f c) (h : f c = false) :
    isGap c = false ∧ isSolid c := by
  obtain ⟨hprintable, hbreak, -, -⟩ := hf c h
  have hblank : c ≠ ' ' := by
    rintro rfl
    simp [isDoubleWord, h] at hc
  have htab : c ≠ '\t' := by
    rintro rfl
    exact absurd hprintable (by decide)
  have hmark : c ≠ endMark := by
    rintro rfl
    exact absurd hprintable (by decide)
  simp [isGap, isSolid, isBlank, isLineEnd, hblank, htab, hbreak, hmark]

theorem IsDoublePlain.isQuotedWord (hf : IsDoublePlain f) {w : List Char} (hw : ∀ c ∈ w, isDoubleWord f c) :
    IsQuotedWord '"' (w.flatMap (escapedIf f)) w := by
  induction w with
  | nil => exact .nil
  | cons c w ih =>
    rw [List.flatMap_cons]
    refine .cons ?_ (ih fun d hd => hw d (by simp [hd]))
    unfold escapedIf
    split
    . exact .escape (isEscape_escape c)
    . next hc =>
      rw [Bool.not_eq_true] at hc
      have hplain := hf c hc
      exact .plain (hf.solid (hw c (by simp)) hc).1 hplain.2.2.1 fun _ => hplain.2.2.2

theorem IsDoublePlain.headD_flatMap (hf : IsDoublePlain f) {u : List Char} (hu : ∀ c ∈ u.head?, isDoubleWord f c) :
    ∀ c ∈ (u.flatMap (escapedIf f)).head?, isSolid c := by
  cases u with
  | nil => simp
  | cons c u =>
    intro d hd
    rw [List.flatMap_cons, escapedIf] at hd
    split at hd
    . obtain ⟨e, ds, heq, -⟩ := (isEscape_escape c).exists_eq
      rw [heq] at hd
      obtain rfl : '\\' = d := by simpa using hd
      decide
    . next hc =>
      obtain rfl : c = d := by simpa using hd
      exact (hf.solid (hu c rfl) (by simpa using hc)).2

theorem IsDoublePlain.isQuoted (hf : IsDoublePlain f) (cs : List Char) :
    IsQuoted '"' (cs.flatMap (escapedIf f)) cs := by
  induction cs using chunk_induction (isDoubleWord f) with
  | last w hw => exact .word (hf.isQuotedWord hw)
  | more w g u hw hne hg hu ih =>
    have hblanks : ∀ c ∈ g, c = ' ' ∧ escapedIf f c = [c] := by
      intro c hc
      have hother := hg c hc
      simp only [isDoubleWord, Bool.or_eq_false_iff, decide_eq_false_iff_not, Decidable.not_not] at hother
      exact ⟨hother.2, by simp [escapedIf, hother.1]⟩
    have hkept : g.flatMap (escapedIf f) = g := by
      rw [List.flatMap_congr fun c hc => (hblanks c hc).2, List.flatMap_singleton']
    obtain ⟨m, rfl⟩ := eq_spaces hne fun c hc => (hblanks c hc).1
    rw [List.flatMap_append, List.flatMap_append, hkept]
    exact .blanks m (hf.isQuotedWord hw) ih (hf.headD_flatMap hu)

theorem isQuoted_doubleBody (cs : List Char) : IsQuoted '"' (doubleBody cs) cs := by
  refine IsDoublePlain.isQuoted ?_ cs
  intro c hc
  simp only [Bool.or_eq_false_iff, decide_eq_false_iff_not, Bool.not_eq_false'] at hc
  exact ⟨hc.1.1.1.2, hc.1.1.2, hc.1.2, hc.2⟩

end Double

end VerboseExpr.Yaml
