import VerboseExpr.Config.Yaml.Source
import VerboseExpr.Proofs.Pattern.Escape

namespace VerboseExpr.Yaml

/-- May the character stand in a document? Line breaks that are not kept as they are and the mark of the byte order are
left out. -/
def isClean (c : Char) : Bool := isAllowed c && c ≠ '\r' && c.toNat ≠ 0x85 && c ≠ byteOrderMark

theorem isAllowed_of_isClean {cs : List Char} (h : cs.all isClean) : cs.all isAllowed := by
  refine List.all_eq_true.mpr fun c hc => ?_
  have hclean := List.all_eq_true.mp h c hc
  simp only [isClean, Bool.and_eq_true] at hclean
  exact hclean.1.1.1

namespace Encoding

theorem utf8Width_ofChar {c : Char} {b : UInt8} {more : Bytes} (h : Bytes.ofChar c = b :: more) :
    utf8Width b = more.length + 1 ∧ more.length < 4 := by
  obtain ⟨b', more', heq, hreads⟩ := Utf8.exists_reads_ofChar c []
  obtain ⟨rfl, rfl⟩ : b = b' ∧ more = more' := by simpa [h] using heq
  generalize hu : (⟨c, Bytes.ofChar c, true⟩ : Utf8.Unit) = u at hreads
  have hbytes : b :: more = u.bytes := by rw [← hu, ← h]
  unfold utf8Width
  -- the width follows from the first byte, whose bounds come with each length
  cases hreads with
  | one hb => simp_all
  | two hb hb' =>
    cases hbytes
    dsimp only
    rw [if_neg (by omega), if_neg (by omega), if_pos (by omega)]
    simp
  | three hb hb' =>
    cases hbytes
    dsimp only
    rw [if_neg (by omega), if_neg (by omega), if_neg (by omega), if_pos (by omega)]
    simp
  | four hb hb' =>
    cases hbytes
    dsimp only
    rw [if_neg (by omega), if_neg (by omega), if_neg (by omega), if_neg (by omega), if_pos (by omega)]
    simp

theorem utf8Piece_ofChar {c : Char} {b : UInt8} {more : Bytes} (h : Bytes.ofChar c = b :: more) (k : Bytes) :
    utf8Piece b (more ++ k) = .character c (more.length + 1) := by
  obtain ⟨b', more', heq, hreads⟩ := Utf8.exists_reads_ofChar c k
  obtain ⟨rfl, rfl⟩ : b = b' ∧ more ++ k = more' := by simpa [h] using heq
  unfold utf8Piece
  rw [(utf8Width_ofChar h).1, hreads.first_eq]
  simp

theorem utf8Piece_incomplete {c : Char} {b : UInt8} {more part : Bytes} (h : Bytes.ofChar c = b :: (more ++ part))
    (hpart : part ≠ []) : utf8Piece b more = .incomplete := by
  have hlength := List.length_pos_iff.mpr hpart
  unfold utf8Piece
  simp only [(utf8Width_ofChar h).1, List.length_append]
  rw [if_neg (by omega), if_pos (by omega)]

theorem exists_cons_ofChar (c : Char) : ∃ b more, Bytes.ofChar c = b :: more := by
  obtain ⟨b, more, heq, -⟩ := Utf8.exists_reads_ofChar c []
  exact ⟨b, more, by simpa using heq⟩

theorem exists_characters?_eq {cs : List Char} (hcs : cs.all isAllowed) {raw tail : Bytes}
    (h : raw ++ tail = Bytes.ofChars cs) {more : Bool} (hmore : more ∨ tail = []) :
    ∃ now later left, utf8.characters? more raw = some (now, left) ∧ cs = now ++ later ∧
      left ++ tail = Bytes.ofChars later ∧ left.length < 4 ∧ (tail = [] → later = []) := by
  induction cs generalizing raw with
  | nil =>
    obtain ⟨rfl, rfl⟩ : raw = [] ∧ tail = [] := by simpa using h
    exact ⟨[], [], [], by rw [characters?], rfl, rfl, by simp, fun _ => rfl⟩
  | cons c cs ih =>
    rw [List.all_cons, Bool.and_eq_true] at hcs
    obtain ⟨b, ds, hchar⟩ := exists_cons_ofChar c
    rw [Bytes.ofChars_cons, hchar, List.cons_append] at h
    cases raw with
    | nil =>
      refine ⟨[], c :: cs, [], by rw [characters?], rfl, ?_, by simp, ?_⟩
      . rw [Bytes.ofChars_cons, hchar]
        exact h
      . rintro rfl
        cases h
    | cons b' raw =>
      obtain ⟨rfl, hsplit⟩ : b' = b ∧ raw ++ tail = ds ++ Bytes.ofChars cs := by simpa using h
      obtain ⟨part, hraw, htail⟩ | ⟨rest, hraw, htail⟩ := List.append_eq_append_iff.mp hsplit
      . -- The portion ends inside the character, or right after it.
        cases part with
        | nil =>
          obtain ⟨now, later, left, hread, hnow, hlater, hshort, hend⟩ := ih hcs.2
            (by simpa using htail : [] ++ tail = Bytes.ofChars cs)
          obtain rfl : raw = ds := by simpa using hraw.symm
          have hpiece := utf8Piece_ofChar hchar []
          rw [List.append_nil] at hpiece
          refine ⟨c :: now, later, left, ?_, by rw [hnow, List.cons_append], hlater, hshort, hend⟩
          rw [characters?, piece, hpiece]
          simp [hcs.1, hread]
        | cons d part =>
          subst hraw
          obtain rfl : more = true := by
            obtain rfl | rfl := hmore
            . rfl
            . cases htail
          have hpiece := utf8Piece_incomplete hchar (by simp)
          have hwidth := (utf8Width_ofChar hchar).2
          refine ⟨[], c :: cs, b' :: raw, ?_, rfl, ?_, ?_, ?_⟩
          . rw [characters?, piece, hpiece]
            rfl
          . rw [Bytes.ofChars_cons, hchar, htail]
            simp
          . simp only [List.length_append, List.length_cons] at hwidth ⊢
            omega
          . rintro rfl
            cases htail
      . subst hraw
        obtain ⟨now, later, left, hread, hnow, hlater, hshort, hend⟩ := ih hcs.2 htail.symm
        refine ⟨c :: now, later, left, ?_, by rw [hnow, List.cons_append], hlater, hshort, hend⟩
        rw [characters?, piece, utf8Piece_ofChar hchar]
        simp [hcs.1, hread]

end Encoding

namespace Source

theorem hasLength_iff {α : Type} {n : Nat} {xs : List α} : hasLength n xs ↔ n ≤ xs.length := by
  induction n generalizing xs with
  | zero => simp [hasLength]
  | succ n ih => cases xs <;> simp [hasLength, ih]

/-- The characters that a source still has to give, which it has begun to read as UTF-8. Behind the last one it may have
marks of the end. -/
structure Gives (s : Source) (cs : List Char) : Prop where
  clean : cs.all isClean
  front : s.front ≠ byteOrderMark
  encoding : s.encoding = some .utf8
  parts : if s.exhausted then s.raw = [] ∧ ∃ n, s.window = cs ++ List.replicate n endMark
    else ∃ rest, cs = s.window ++ rest ∧ s.raw ++ s.pending = Bytes.ofChars rest

variable {s : Source} {cs : List Char} {n : Nat}

theorem Gives.load (h : s.Gives cs) (hraw : s.pending = [] → s.raw = []) : s.load.Gives cs := by
  have hparts := h.parts
  unfold Source.load
  split
  . exact h
  . next hexhausted =>
    rw [if_neg hexhausted] at hparts
    obtain ⟨rest, hwindow, hbytes⟩ := hparts
    split
    . next hpending =>
      rw [List.isEmpty_iff] at hpending
      obtain rfl : rest = [] := by
        cases rest with
        | nil => rfl
        | cons c rest =>
          obtain ⟨b, ds, hchar⟩ := Encoding.exists_cons_ofChar c
          simp [hpending, hraw hpending, Bytes.ofChars_cons, hchar] at hbytes
      refine ⟨h.clean, h.front, h.encoding, ?_⟩
      dsimp only
      rw [if_pos rfl]
      exact ⟨hraw hpending, 0, by simp [hwindow]⟩
    . refine ⟨h.clean, h.front, h.encoding, ?_⟩
      dsimp only
      rw [if_neg hexhausted]
      exact ⟨rest, hwindow, by rw [List.append_assoc, List.take_append_drop, hbytes]⟩

theorem load_progress (hraw : s.raw.length < portion) :
    s.load.exhausted ∨ s.load.exhausted = s.exhausted ∧ s.load.pending.length < s.pending.length := by
  unfold Source.load
  split
  . next hexhausted => exact .inl hexhausted
  . split
    . exact .inl rfl
    . next hpending =>
      have hpos : 0 < s.pending.length := List.length_pos_iff.mpr (by simpa using hpending)
      refine .inr ⟨rfl, ?_⟩
      dsimp only
      rw [List.length_drop]
      omega

theorem length_pending_load : s.load.pending.length ≤ s.pending.length := by
  unfold Source.load
  split
  . exact Nat.le_refl _
  . split
    . exact Nat.le_refl _
    . simp

/-- The source gives some characters, the first `n` of which can be looked at. -/
structure Shows (s : Source) (cs : List Char) (n : Nat) : Prop extends Gives s cs where
  seen : s.exhausted ∨ n ≤ s.window.length

theorem Shows.peek_eq (h : s.Shows cs n) {k : Nat} (hk : k < n) : s.peek k = cs.getD k endMark := by
  have hparts := h.parts
  unfold peek
  split at hparts
  . obtain ⟨-, m, hwindow⟩ := hparts
    rw [hwindow, List.getD_eq_getElem?_getD, List.getD_eq_getElem?_getD, List.getElem?_append]
    split
    . rfl
    . next hbeyond =>
      rw [List.getElem?_eq_none (Nat.le_of_not_lt hbeyond), List.getElem?_replicate]
      split <;> rfl
  . next hexhausted =>
    obtain ⟨rest, hcs, -⟩ := hparts
    have hseen := h.seen.resolve_left hexhausted
    rw [hcs, List.getD_eq_getElem?_getD, List.getD_eq_getElem?_getD, List.getElem?_append_left (by omega)]

theorem Shows.mono (h : s.Shows cs n) {m : Nat} (hm : m ≤ n) : s.Shows cs m :=
  ⟨h.toGives, h.seen.imp_right (Nat.le_trans hm)⟩

theorem Shows.drop {c : Char} (h : s.Shows (c :: cs) (n + 1)) : (s.drop 1).Shows cs n := by
  have hparts := h.parts
  have hclean := h.clean
  rw [List.all_cons, Bool.and_eq_true] at hclean
  unfold Source.drop
  split at hparts
  . next hexhausted =>
    obtain ⟨hraw, m, hwindow⟩ := hparts
    refine ⟨⟨hclean.2, h.front, h.encoding, ?_⟩, .inl hexhausted⟩
    dsimp only
    rw [if_pos hexhausted, hwindow]
    exact ⟨hraw, m, rfl⟩
  . next hexhausted =>
    obtain ⟨rest, hcs, hbytes⟩ := hparts
    have hseen := h.seen.resolve_left hexhausted
    obtain ⟨d, w, hwindow⟩ := List.exists_cons_of_length_pos (Nat.lt_of_lt_of_le (Nat.succ_pos n) hseen)
    rw [hwindow] at hcs hseen
    refine ⟨⟨hclean.2, h.front, h.encoding, ?_⟩, .inr ?_⟩
    . dsimp only
      rw [if_neg hexhausted, hwindow]
      exact ⟨rest, by simpa using (List.cons.inj hcs).2, hbytes⟩
    . simpa [hwindow] using hseen

def withRead (s : Source) (now : List Char) (left : Bytes) : Source := { s with window := s.window ++ now, raw := left }

theorem fill?_succ {s₁ : Source} (hs₁ : s₁ = if s.raw.isEmpty then s.load else s) {now : List Char} {left : Bytes}
    (hread : (s₁.encoding.getD .utf8).characters? (!s₁.exhausted) s₁.raw = some (now, left)) (fuel : Nat) :
    s.fill? n (fuel + 1) =
      if s₁.exhausted then some (s₁.withRead (now ++ [endMark]) left)
      else if hasLength n (s₁.withRead now left).window then some (s₁.withRead now left)
      else fill? n (s₁.withRead now left).load fuel := by
  rw [Source.fill?]
  simp only [← hs₁, hread, Option.bind_eq_bind, Option.bind_some, withRead, List.append_assoc]
  rfl

theorem exhausted_load (h : s.exhausted) : s.load.exhausted := by
  rw [Source.load, if_pos h]
  exact h

theorem Gives.characters?_end (h : s.Gives cs) (hexhausted : s.exhausted) :
    (s.encoding.getD .utf8).characters? (!s.exhausted) s.raw = some ([], []) ∧ (s.withRead [endMark] []).Gives cs := by
  have hparts := h.parts
  rw [if_pos hexhausted] at hparts
  obtain ⟨hraw, m, hwindow⟩ := hparts
  refine ⟨by rw [hraw, Encoding.characters?], h.clean, h.front, h.encoding, ?_⟩
  unfold withRead
  dsimp only
  rw [if_pos hexhausted, hwindow]
  exact ⟨rfl, m + 1, by rw [List.replicate_succ', List.append_assoc]⟩

theorem Gives.exists_characters?_eq (h : s.Gives cs) (hexhausted : ¬s.exhausted) :
    ∃ now left, (s.encoding.getD .utf8).characters? (!s.exhausted) s.raw = some (now, left) ∧
      (s.withRead now left).Gives cs ∧ left.length < 4 ∧ (s.pending = [] → left = []) := by
  have hparts := h.parts
  rw [if_neg hexhausted] at hparts
  obtain ⟨rest, hcs, hbytes⟩ := hparts
  have hallowed := isAllowed_of_isClean h.clean
  rw [hcs, List.all_append, Bool.and_eq_true] at hallowed
  obtain ⟨now, later, left, hread, hrest, hlater, hshort, hend⟩ :=
    Encoding.exists_characters?_eq hallowed.2 hbytes (.inl (rfl : true = true))
  refine ⟨now, left, ?_, ⟨h.clean, h.front, h.encoding, ?_⟩, hshort, ?_⟩
  . rw [h.encoding, Option.getD_some, Bool.eq_false_iff.mpr hexhausted]
    exact hread
  . unfold withRead
    dsimp only
    rw [if_neg hexhausted]
    exact ⟨later, by rw [hcs, hrest, List.append_assoc], hlater⟩
  . intro hpending
    rw [hend hpending, hpending] at hlater
    simpa using hlater

theorem Gives.exists_fill?_eq (h : s.Gives cs) {fuel : Nat}
    (hfuel : s.pending.length + (if s.exhausted then 1 else 2) ≤ fuel) :
    ∃ s', s.fill? n fuel = some s' ∧ s'.Shows cs n := by
  induction fuel generalizing s with
  | zero =>
    split at hfuel <;> omega
  | succ fuel ih =>
    obtain ⟨s₁, hs₁⟩ : ∃ s₁, s₁ = if s.raw.isEmpty then s.load else s := ⟨_, rfl⟩
    have hloaded : s₁.Gives cs ∧ s₁.pending.length ≤ s.pending.length ∧ (s.exhausted → s₁.exhausted) := by
      rw [hs₁]
      split
      . next hraw => exact ⟨h.load fun _ => List.isEmpty_iff.mp hraw, length_pending_load, exhausted_load⟩
      . exact ⟨h, Nat.le_refl _, id⟩
    obtain ⟨hgives, hpending, hstill⟩ := hloaded
    by_cases hexhausted : s₁.exhausted
    . obtain ⟨hread, hgives₂⟩ := hgives.characters?_end hexhausted
      rw [fill?_succ hs₁ hread, if_pos hexhausted]
      exact ⟨_, rfl, hgives₂, .inl hexhausted⟩
    . obtain ⟨now, left, hread, hgives₂, hshort, hend⟩ := hgives.exists_characters?_eq hexhausted
      rw [fill?_succ hs₁ hread, if_neg hexhausted]
      split
      . next hlength => exact ⟨_, rfl, hgives₂, .inr (hasLength_iff.mp hlength)⟩
      . -- One more portion arrives, or the end is known.
        refine ih (hgives₂.load hend) ?_
        rw [if_neg fun hexhausted' => hexhausted (hstill hexhausted')] at hfuel
        have hmore : (s₁.withRead now left).pending.length = s₁.pending.length := rfl
        obtain hover | ⟨-, hless⟩ := load_progress (s := s₁.withRead now left) (Nat.lt_trans hshort (by decide))
        . have hle := length_pending_load (s := s₁.withRead now left)
          rw [if_pos hover]
          omega
        . split <;> omega

theorem Gives.headD_window (h : s.Gives cs) : s.window.headD endMark ≠ byteOrderMark := by
  have hmark : endMark ≠ byteOrderMark := by decide
  have hparts := h.parts
  cases hwindow : s.window with
  | nil => exact hmark
  | cons d w =>
    have hmem : d ∈ cs ∨ d = endMark := by
      rw [hwindow] at hparts
      split at hparts
      . obtain ⟨-, n, hmarks⟩ := hparts
        have hd : d ∈ cs ++ List.replicate n endMark := by simp [← hmarks]
        exact (List.mem_append.mp hd).imp_right List.eq_of_mem_replicate
      . obtain ⟨rest, hcs, -⟩ := hparts
        exact .inl (by simp [hcs])
    obtain hd | rfl := hmem
    . have hclean := List.all_eq_true.mp h.clean d hd
      simp only [isClean, Bool.and_eq_true, decide_eq_true_eq] at hclean
      exact hclean.2
    . exact hmark

theorem Gives.exists_filled (h : s.Gives cs) (n : Nat) :
    ∃ s', (do let s' ← s.fill? n (s.pending.length + 3); some { s' with front := s'.window.headD endMark }) = some s' ∧
      s'.Shows cs n := by
  obtain ⟨s', hfill, hshows⟩ := h.exists_fill?_eq (n := n) (by split <;> omega : _ ≤ s.pending.length + 3)
  refine ⟨{ s' with front := s'.window.headD endMark }, by simp [hfill], ⟨hshows.clean, ?_, hshows.encoding,
    hshows.parts⟩, hshows.seen⟩
  exact hshows.toGives.headD_window

theorem Gives.exists_need?_eq (h : s.Gives cs) (n : Nat) : ∃ s', s.need? n = some s' ∧ s'.Shows cs n := by
  unfold need?
  split
  . next hlength => exact ⟨s, rfl, h, .inr (hasLength_iff.mp hlength)⟩
  . have hdetect : s.detect = s := by
      unfold detect
      rw [h.encoding]
      rfl
    rw [hdetect]
    exact h.exists_filled n

theorem length_le_ofChars (cs : List Char) : cs.length ≤ (Bytes.ofChars cs).length := by
  induction cs with
  | nil => simp
  | cons c cs ih =>
    obtain ⟨b, more, hchar⟩ := Encoding.exists_cons_ofChar c
    rw [Bytes.ofChars_cons, hchar]
    simp only [List.length_append, List.length_cons]
    omega

theorem announced_eq {b : UInt8} (h : b.toNat < 0x80) (more : Bytes) :
    Encoding.announced (b :: more) = (.utf8, b :: more) := by
  unfold Encoding.announced
  split
  . next heq =>
    cases heq
    exact absurd h (by decide)
  . next heq =>
    cases heq
    exact absurd h (by decide)
  . next heq =>
    cases heq
    exact absurd h (by decide)
  . rfl

theorem exists_need?_ofBytes {c : Char} {cs : List Char} (hclean : (c :: cs).all isClean) (hascii : c.toNat < 0x80)
    (hlength : 2 ≤ cs.length) :
    ∃ s, (ofBytes (Bytes.ofChars (c :: cs))).need? 1 = some s ∧ s.Shows (c :: cs) 1 := by
  have hfirst : c.toNat.toUInt8.toNat < 0x80 := by rwa [UInt8.toNat_ofNat_of_lt' (by omega : _ < 256)]
  obtain ⟨b, more, hb, hmore, hbytes⟩ : ∃ b more, b.toNat < 0x80 ∧ 2 ≤ more.length ∧
      Bytes.ofChars (c :: cs) = b :: more :=
    ⟨_, _, hfirst, Nat.le_trans hlength (length_le_ofChars cs), by
      rw [Bytes.ofChars_cons, Utf8.ofChar_of_lt hascii, List.singleton_append]⟩
  have hdetect : (ofBytes (b :: more)).detect =
      { pending := more.drop 511, raw := b :: more.take 511, encoding := some .utf8 } := by
    have hload : (ofBytes (b :: more)).load = { pending := more.drop 511, raw := b :: more.take 511 } := rfl
    have hthree : ¬(b :: more.take 511).length < 3 := by
      rw [List.length_cons, List.length_take]
      omega
    unfold detect
    rw [if_neg (by simp [ofBytes]), hload]
    simp only [if_neg hthree, announced_eq hb]
  have hgives : (ofBytes (b :: more)).detect.Gives (c :: cs) := by
    rw [hdetect]
    exact ⟨hclean, (by decide : endMark ≠ byteOrderMark), rfl, ⟨c :: cs, rfl, by rw [hbytes]; simp⟩⟩
  rw [hbytes]
  exact hgives.exists_filled 1

end Source

end VerboseExpr.Yaml
