import VerboseExpr.Proofs.Config.Yaml.Gap

namespace VerboseExpr.Yaml

/-- Characters without white space that neither begin a comment nor end as a key. -/
structure IsPlainWord (w : List Char) : Prop where
  ne_nil : w ≠ []
  not_gap : ∀ c ∈ w, isGap c = false
  head_ne : w.head? ≠ some '#'
  last_ne : w.getLast? ≠ some ':'

/-- Words with blanks between them. -/
inductive IsPlainText : List Char → Prop where
  | word {w : List Char} : IsPlainWord w → IsPlainText w
  | blanks {w u : List Char} (m : Nat) : IsPlainWord w → IsPlainText u → IsPlainText (w ++ (spaces (m + 1) ++ u))

theorem IsPlainText.exists_cons {cs : List Char} (h : IsPlainText cs) :
    ∃ c rest, cs = c :: rest ∧ isGap c = false ∧ c ≠ '#' := by
  have hword : ∀ {w : List Char} (u : List Char), IsPlainWord w →
      ∃ c rest, w ++ u = c :: rest ∧ isGap c = false ∧ c ≠ '#' := by
    intro w u hw
    obtain ⟨c, rest, rfl⟩ := List.exists_cons_of_ne_nil hw.ne_nil
    exact ⟨c, rest ++ u, rfl, hw.not_gap c (by simp), fun heq => hw.head_ne (by simp [heq])⟩
  cases h with
  | word hw => simpa using hword [] hw
  | blanks m hw => exact hword _ hw

theorem isSolid_of_isGap_eq_false {c : Char} (h : isGap c = false) : isSolid c := by
  simp only [isGap, isLineEnd, Bool.or_eq_false_iff] at h
  simp [isSolid, h.1, h.2.1]

section Allowed

theorem hasIndicator_of_append {x cs : List Char} (h : hasIndicator (x ++ cs) = false) : hasIndicator cs = false := by
  induction x with
  | nil => exact h
  | cons c x ih =>
    refine ih ?_
    cases hrest : x ++ cs with
    | nil => rfl
    | cons d rest =>
      rw [List.cons_append, hrest, hasIndicator] at h
      exact (Bool.or_eq_false_iff.mp h).2

theorem not_syntax_of_hasIndicator {x y : List Char} {c d : Char} (h : hasIndicator (x ++ c :: d :: y) = false) :
    ¬(d = ':' ∧ y.head?.all isBlank) ∧ ¬(d = '#' ∧ isBlank c) := by
  have hpair := hasIndicator_of_append h
  rw [hasIndicator] at hpair
  simp only [Bool.or_eq_false_iff, Bool.and_eq_false_iff] at hpair
  constructor
  . rintro ⟨rfl, hy⟩
    simp [hy] at hpair
  . rintro ⟨rfl, hc⟩
    simp [hc] at hpair

/-- What is left of a text that may be written plain, from the beginning of a word on. -/
structure IsPlainRest (cs : List Char) : Prop where
  ne_nil : cs ≠ []
  solid : ∀ c ∈ cs, c = ' ' ∨ isGap c = false
  head_ne : cs.head? ≠ some ' ' ∧ cs.head? ≠ some '#'
  colon : ∀ y, cs = ':' :: y → y.head?.all isBlank = false
  last_ne : cs.getLast? ≠ some ' '
  hasIndicator_eq : hasIndicator cs = false

theorem IsPlainRest.isPlainWord {w r : List Char} (h : IsPlainRest (w ++ r)) (hw : ∀ c ∈ w, c ≠ ' ')
    (hr : r.head?.all isBlank) (hne : w ≠ []) : IsPlainWord w where
  ne_nil := hne
  not_gap := fun c hc => (h.solid c (by simp [hc])).resolve_left (hw c hc)
  head_ne := by
    obtain ⟨c, rest, rfl⟩ := List.exists_cons_of_ne_nil hne
    exact h.head_ne.2
  last_ne := by
    intro hlast
    obtain ⟨x, rfl⟩ : ∃ x, w = x ++ [':'] := List.getLast?_eq_some_iff.mp hlast
    obtain rfl | ⟨x, c, rfl⟩ := List.eq_nil_or_concat x
    . exact absurd hr (by simp [h.colon r rfl])
    . have hindicator := h.hasIndicator_eq
      rw [show x.concat c ++ [':'] ++ r = x ++ c :: ':' :: r by simp] at hindicator
      exact (not_syntax_of_hasIndicator hindicator).1 ⟨rfl, hr⟩

theorem IsPlainRest.isPlainText {cs : List Char} (h : IsPlainRest cs) : IsPlainText cs := by
  -- words and blanks take turns, and what no word may hold cannot stand at the edge of one either
  induction cs using chunk_induction (· ≠ ' ') with
  | last w hw =>
    have hword : IsPlainRest (w ++ []) := by rwa [List.append_nil]
    exact .word (hword.isPlainWord (by simpa using hw) rfl h.ne_nil)
  | more w g u hw hne hg hu ih =>
    obtain ⟨m, rfl⟩ := eq_spaces hne (by simpa using hg)
    have hw' : w ≠ [] := by
      rintro rfl
      exact h.head_ne.1 rfl
    have hu' : u ≠ [] := by
      rintro rfl
      refine h.last_ne ?_
      rw [List.append_nil, List.getLast?_append, spaces, List.getLast?_replicate]
      rfl
    obtain ⟨d, y, rfl⟩ := List.exists_cons_of_ne_nil hu'
    have hpair : w ++ (spaces (m + 1) ++ d :: y) = w ++ spaces m ++ ' ' :: d :: y := by
      simp [spaces, List.replicate_succ']
    have hsyntax := h.hasIndicator_eq
    rw [hpair] at hsyntax
    refine .blanks m (h.isPlainWord (by simpa using hw) rfl hw') (ih ⟨hu', ?_, ⟨?_, ?_⟩, ?_, ?_, ?_⟩)
    . exact fun c hc => h.solid c (by simp [hc])
    . simpa using hu
    . intro hd
      exact (not_syntax_of_hasIndicator hsyntax).2 ⟨by simpa using hd, by decide⟩
    . intro y' hy'
      obtain ⟨rfl, rfl⟩ := List.cons.inj hy'
      exact Bool.eq_false_iff.mpr fun hblank => (not_syntax_of_hasIndicator hsyntax).1 ⟨rfl, hblank⟩
    . intro hlast
      exact h.last_ne (by rw [List.getLast?_append, List.getLast?_append, hlast]; rfl)
    . exact hasIndicator_of_append (x := w ++ spaces m ++ [' ']) (by simpa using hsyntax)

theorem isPlainRest_of_plainAllowed {cs : List Char} (hne : cs ≠ []) (h : plainAllowed cs) : IsPlainRest cs := by
  simp only [plainAllowed, Bool.and_eq_true, Bool.not_eq_true'] at h
  obtain ⟨⟨⟨⟨⟨⟨⟨hhead, hlast⟩, hbreak⟩, htab⟩, hspecial⟩, -⟩, hbegins⟩, hindicator⟩ := h
  obtain ⟨c, rest, rfl⟩ := List.exists_cons_of_ne_nil hne
  simp only [beginsIndicator, Bool.or_eq_false_iff, Bool.and_eq_false_iff] at hbegins
  refine ⟨hne, ?_, ⟨?_, ?_⟩, ?_, ?_, hindicator⟩
  . intro d hd
    have hbreak := List.any_eq_false.mp hbreak d hd
    have htab := List.any_eq_false.mp htab d hd
    have hspecial := List.any_eq_false.mp hspecial d hd
    have hmark : d ≠ endMark := by
      rintro rfl
      exact hspecial (by decide)
    by_cases hblank : d = ' '
    . exact .inl hblank
    . exact .inr (by simp_all [isGap, isBlank, isLineEnd])
  . simpa using hhead
  . rintro heq
    obtain rfl : c = '#' := by simpa using heq
    exact absurd hbegins.1 (by decide)
  . rintro y heq
    cases heq
    simpa using hbegins.2
  . intro heq
    rw [heq] at hlast
    simp at hlast

end Allowed

structure IsKey (key : List Char) : Prop where
  ne_nil : key ≠ []
  letters : ∀ c ∈ key, c.isAlpha || c = '_'

theorem IsKey.ne {key : List Char} (h : IsKey key) {c e : Char} (hc : c ∈ key) (he : (e.isAlpha || e = '_') = false) :
    c ≠ e := by
  rintro rfl
  rw [h.letters c hc] at he
  cases he

theorem IsKey.not_gap {key : List Char} (h : IsKey key) {c : Char} (hc : c ∈ key) : isGap c = false := by
  have hne : ∀ n : Nat, ((Char.ofNat n).isAlpha || Char.ofNat n = '_') = false → c.toNat ≠ n := by
    rintro n hn rfl
    rw [Char.ofNat_toNat] at hn
    exact h.ne hc hn rfl
  simp [isGap, isBlank, isLineEnd, isBreak, h.ne hc (e := ' ') rfl, h.ne hc (e := '\t') rfl,
    h.ne hc (e := '\n') rfl, h.ne hc (e := '\r') rfl, h.ne hc (e := endMark) rfl, hne 0x85 rfl, hne 0x2028 rfl,
    hne 0x2029 rfl]

namespace Runs

variable {p : Place} {k : List Char} {fuel : Nat}

theorem plainWord {w : List Char} (hw : ∀ c ∈ w, isGap c = false) (hlast : w.getLast? ≠ some ':')
    (hk : isGap (k.headD endMark) || Scan.endsPlain false (k.headD endMark) (k.getD 1 endMark))
    (hfuel : w.length < fuel) (read : List Char) :
    Runs (Scan.plainWord false read fuel) ⟨w ++ k, 2, p⟩ (read.reverse ++ w) ⟨k, 2, p.skips w.length⟩ := by
  induction w generalizing read fuel p with
  | nil =>
    obtain ⟨fuel, rfl⟩ : ∃ n, fuel = n + 1 := ⟨fuel - 1, by simp at hfuel; omega⟩
    refine Runs.bind (peekHead _ 1) (Runs.bind (peek (by decide)) ?_)
    rw [List.nil_append, if_pos hk]
    simpa using Runs.pure (α := List Char) _ _
  | cons c w ih =>
    obtain ⟨fuel, rfl⟩ : ∃ n, fuel = n + 1 := ⟨fuel - 1, by omega⟩
    have hends : Scan.endsPlain false c ((c :: (w ++ k)).getD 1 endMark) = false := by
      unfold Scan.endsPlain
      cases w with
      | nil => simp_all
      | cons d w => simp [hw d (by simp)]
    have hmore := ih (fun d hd => hw d (by simp [hd])) (by cases w <;> simp_all) (p := p.skips 1)
      (by simp at hfuel; omega : _ < fuel) (c :: read)
    refine Runs.bind (peekHead _ 1) (Runs.bind (peek (by decide)) ?_)
    rw [List.cons_append, List.headD_cons, hends, hw c (by simp), Bool.or_false, if_neg (by decide)]
    refine Runs.bind (skip c _ 1) (Runs.bind (need _ 1 2) ?_)
    simpa [Nat.add_comm] using hmore

theorem plain_word {w : List Char} (hw : IsPlainWord w) {indent : Nat} (hp : p.column ≠ 0)
    (hk : isGap (k.headD endMark) ∧ isSolid (k.headD endMark) = false) (hfuel : w.length < fuel) {g g₁ : Gap}
    {read : List Char} {n : Nat} {k₁ : List Char} {n₁ : Nat} {q₁ : Place} {a : List Char × Bool} {q : Spot}
    (hgap : Runs (Scan.gap indent {} fuel) ⟨k, 1, p.skips w.length⟩ g₁ ⟨k₁, n₁, q₁⟩)
    (hover : q₁.column < indent → a = (read.reverse ++ g.text ++ w, g₁.broken) ∧ q = ⟨k₁, n₁, q₁⟩)
    (hmore : indent ≤ q₁.column →
      Runs (Scan.plain false indent g₁ (w.reverse ++ g.text.reverse ++ read) fuel) ⟨k₁, n₁, q₁⟩ a q) :
    Runs (Scan.plain false indent g read (fuel + 1)) ⟨w ++ k, n, p⟩ a q := by
  have hhead : (w ++ k).headD endMark ≠ '#' := by
    obtain ⟨c, rest, rfl⟩ := List.exists_cons_of_ne_nil hw.ne_nil
    exact fun heq => hw.head_ne (congrArg some heq)
  have hword : Runs (Scan.plainWord false [] fuel) ⟨w ++ k, 4, p⟩ w ⟨k, 2, p.skips w.length⟩ :=
    (plainWord hw.not_gap hw.last_ne (by rw [hk.1, Bool.true_or]) hfuel []).of_le (by decide)
  have hempty : w.isEmpty = false := by simp [hw.ne_nil]
  refine Runs.bind (need _ n 4) (Runs.get fun c hc => ?_)
  -- a document mark stands at the beginning of a line, where no plain text goes on
  have hmark : c.atDocumentMark = false := by
    unfold Cursor.atDocumentMark
    rw [hc.atMark_eq_false (.inl hp), hc.atMark_eq_false (.inl hp)]
    rfl
  have hfirst : c.peek 0 = (w ++ k).headD endMark := hc.peek_head (Nat.succ_pos 3)
  rw [hmark, hfirst, decide_eq_false hhead, Bool.or_false, if_neg (by decide)]
  refine Runs.bind hword (Runs.bind (peekHead _ 1) ?_)
  simp only [isSolid, Bool.and_eq_false_iff, Bool.not_eq_false'] at hk
  rw [if_pos (by simpa using hk.2), hempty]
  refine Runs.bind (need _ 2 1) (Runs.bind hgap (Runs.get fun c hc => ?_))
  rw [hc.column_eq]
  split
  . next hcolumn =>
    obtain ⟨rfl, rfl⟩ := hover (by simpa using hcolumn)
    simpa using Runs.pure (α := List Char × Bool) _ _
  . next hcolumn => exact hmore (by simpa using hcolumn)

/-- A plain text is read up to the end of its line and the indentation of the next one, which is smaller. -/
theorem plain {cs : List Char} (h : IsPlainText cs) {indent j : Nat} (hp : indent ≤ p.column) (hj : j < indent)
    (hk : isSolid (k.headD endMark)) (hfuel : cs.length + j + 2 < fuel) {g : Gap} (read : List Char) (n : Nat) :
    Runs (Scan.plain false indent g read fuel) ⟨cs ++ '\n' :: (spaces j ++ k), n, p⟩
      (read.reverse ++ g.text ++ cs, true)
      ⟨k, 1, ((p.skips cs.length).skipLine).skips j⟩ := by
  -- behind the last word the gap leads to a column to the left, and that ends the text
  induction h generalizing g read fuel p n with
  | word hw =>
    rename_i w
    obtain ⟨fuel, rfl⟩ : ∃ n, fuel = n + 2 := ⟨fuel - 2, by omega⟩
    have hgap : Runs (Scan.gap indent {} (fuel + 1)) ⟨'\n' :: (spaces j ++ k), 1, p.skips w.length⟩
        (({} : Gap).push ['\n']) ⟨k, 1, ((p.skips w.length).skipLine).skips j⟩ :=
      gap_break (by decide) (gap_indentation rfl hk (by omega))
    refine plain_word hw (by omega) ⟨rfl, rfl⟩ (by omega) hgap (fun _ => ⟨rfl, rfl⟩) fun hcolumn => ?_
    exact absurd hcolumn (by simpa using hj)
  | blanks m hw hu ih =>
    rename_i w u
    obtain ⟨fuel, rfl⟩ : ∃ n, fuel = n + 1 := ⟨fuel - 1, by omega⟩
    obtain ⟨c, rest, hcons, hc, -⟩ := hu.exists_cons
    simp only [List.length_append, spaces, List.length_replicate] at hfuel
    have hgap : Runs (Scan.gap indent {} fuel) ⟨spaces (m + 1) ++ (u ++ '\n' :: (spaces j ++ k)), 1, p.skips w.length⟩
        { blanks := spaces (m + 1) } ⟨u ++ '\n' :: (spaces j ++ k), 1, (p.skips w.length).skips (m + 1)⟩ :=
      gap_blanks (g := {}) rfl (by rw [hcons]; exact isSolid_of_isGap_eq_false hc) (by omega)
    have hmore := ih (p := (p.skips w.length).skips (m + 1)) (by simp; omega) (by omega : _ < fuel)
      (g := { blanks := spaces (m + 1) }) (w.reverse ++ g.text.reverse ++ read) 1
    rw [List.append_assoc, List.append_assoc]
    refine plain_word hw (by omega) ⟨rfl, rfl⟩ (by omega) hgap (fun hcolumn => ?_) fun _ => ?_
    . simp at hcolumn
      omega
    . simpa [Gap.text, spaces, Nat.add_assoc] using hmore

theorem plainKey {key : List Char} (h : IsKey key) (hk : isGap (k.headD endMark)) (indent : Nat)
    (hfuel : key.length + 1 < fuel) (n : Nat) :
    Runs (Scan.plain false indent {} [] fuel) ⟨key ++ ':' :: k, n, p⟩ (key, false)
      ⟨':' :: k, 2, p.skips key.length⟩ := by
  obtain ⟨fuel, rfl⟩ : ∃ n, fuel = n + 1 := ⟨fuel - 1, by omega⟩
  have hword : Runs (Scan.plainWord false [] fuel) ⟨key ++ ':' :: k, 4, p⟩ key
      ⟨':' :: k, 2, p.skips key.length⟩ := by
    -- the colon ends the word because of the gap that follows it
    refine (plainWord (fun c hc => h.not_gap hc) ?_ ?_ (by omega) []).of_le (by decide)
    . intro hlast
      exact h.ne (List.mem_of_getLast? hlast) (by decide) rfl
    . cases k with
      | nil => rfl
      | cons d k =>
        rw [List.headD_cons] at hk
        simp [Scan.endsPlain, hk]
  obtain ⟨c, rest, rfl⟩ := List.exists_cons_of_ne_nil h.ne_nil
  refine Runs.bind (need _ n 4) (Runs.get fun c' hc' => ?_)
  have hmark : c'.atDocumentMark = false := by
    unfold Cursor.atDocumentMark
    rw [hc'.atMark_eq_false (.inr ⟨Nat.succ_pos 3, h.ne (by simp) (by decide)⟩),
      hc'.atMark_eq_false (.inr ⟨Nat.succ_pos 3, h.ne (by simp) (by decide)⟩)]
    rfl
  have hfirst : c'.peek 0 = c := hc'.peek_head (Nat.succ_pos 3)
  rw [hmark, hfirst, decide_eq_false (h.ne (by simp) (by decide)), Bool.or_false, if_neg (by decide)]
  refine Runs.bind hword (Runs.bind (peekHead _ 1) ?_)
  rw [List.headD_cons, if_neg (by decide)]
  simpa [Gap.text] using Runs.pure (α := List Char × Bool) _ _

end Runs

end VerboseExpr.Yaml
