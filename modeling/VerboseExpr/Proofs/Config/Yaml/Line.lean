import VerboseExpr.Config.Yaml.Writer
import VerboseExpr.Proofs.Config.Yaml.Scalar

namespace VerboseExpr.Yaml

section Clean

theorem isClean_of_isSpecial_eq_false {c : Char} (h : isSpecial c = false) : isClean c := by
  simp only [isSpecial, Bool.and_eq_false_iff, decide_eq_false_iff_not, Decidable.not_not, Bool.not_eq_false',
    isPrintable, Bool.or_eq_true, Bool.and_eq_true, decide_eq_true_eq] at h
  have hmark : c.toNat ≠ 0xFEFF → c ≠ byteOrderMark := by
    rintro hne rfl
    exact hne rfl
  have hreturn : c.toNat ≠ 0x0D → c ≠ '\r' := by
    rintro hne rfl
    exact hne rfl
  simp only [isClean, isAllowed, Bool.or_eq_true, Bool.and_eq_true, decide_eq_true_eq]
  obtain rfl | h := h
  . decide
  . exact ⟨⟨⟨by omega, hreturn (by omega)⟩, by omega⟩, hmark (by omega)⟩

theorem isClean_hexChars (width n : Nat) : (hexChars width n).all isClean := by
  induction width with
  | zero => rfl
  | succ width ih =>
    have hall : ∀ m < 16, isClean (Char.ofNat
        ((fun b => if 0x61 ≤ b ∧ b ≤ 0x66 then b - 0x20 else b) (Bytes.hexDigit m)).toNat) := by
      decide
    have hcons : hexChars (width + 1) n = Char.ofNat
        ((fun b => if 0x61 ≤ b ∧ b ≤ 0x66 then b - 0x20 else b) (Bytes.hexDigit (n / 16 ^ width % 16))).toNat ::
          hexChars width n := rfl
    rw [hcons, List.all_cons, hall _ (Nat.mod_lt _ (by decide)), ih]
    rfl

theorem isClean_escape (c : Char) : (escape c).all isClean := by
  have hnumber : ∀ {d : Char} (width : Nat), isClean d → ('\\' :: d :: hexChars width c.toNat).all isClean := by
    intro d width hd
    rw [List.all_cons, List.all_cons, hd, isClean_hexChars]
    decide
  unfold escape
  dsimp only
  split
  case h_16 =>
    split
    . exact hnumber 2 (by decide)
    . split
      . exact hnumber 4 (by decide)
      . exact hnumber 8 (by decide)
  all_goals decide

theorem isClean_doubleBody (cs : List Char) : (doubleBody cs).all isClean := by
  unfold doubleBody
  dsimp only
  rw [List.all_flatMap]
  refine List.all_eq_true.mpr fun c _ => ?_
  split
  . exact isClean_escape c
  . next h =>
    rw [List.all_cons, isClean_of_isSpecial_eq_false]
    . rfl
    . simp only [Bool.or_eq_true, not_or] at h
      simpa [isSpecial] using fun _ => h.1.1.1.2

theorem isClean_spaces (n : Nat) : (spaces n).all isClean :=
  List.all_eq_true.mpr fun _ hd => List.eq_of_mem_replicate hd ▸ (by decide : isClean ' ')

theorem isClean_singleBody {cs : List Char} (h : cs.all isClean) (indent : Nat) (afterBreak : Bool) :
    (singleBody indent afterBreak cs).all isClean := by
  induction cs generalizing afterBreak with
  | nil => rfl
  | cons c cs ih =>
    rw [List.all_cons, Bool.and_eq_true] at h
    unfold singleBody
    split
    . rw [List.all_cons, h.1, ih h.2]
      rfl
    . split
      . rw [List.all_cons, h.1, ih h.2]
        rfl
      . have hindent : (if afterBreak then spaces indent else []).all isClean := by
          split
          . exact isClean_spaces indent
          . rfl
        have hchar : (if c = '\'' then ['\'', '\''] else [c]).all isClean := by
          split
          . decide
          . simpa using h.1
        rw [List.all_append, List.all_append, hindent, hchar, ih h.2]
        rfl

theorem isClean_blockBody {cs : List Char} (h : cs.all isClean) (indent : Nat) (fresh isOpen : Bool) :
    (blockBody indent fresh isOpen cs).all isClean := by
  induction cs generalizing fresh isOpen with
  | nil => rfl
  | cons c cs ih =>
    rw [List.all_cons, Bool.and_eq_true] at h
    unfold blockBody
    split
    . rw [List.all_cons, h.1, ih h.2]
      rfl
    . have hstart : (if fresh then (if isOpen then ['\n'] else []) ++ spaces indent else []).all isClean := by
        have hspaces := isClean_spaces indent
        cases fresh <;> cases isOpen <;> simp_all
        decide
      rw [List.all_append, List.all_cons, hstart, h.1, ih h.2]
      rfl

theorem isClean_blockHeader (cs : List Char) : (blockHeader cs).all isClean := by
  unfold blockHeader
  dsimp only
  split <;> split <;> (try split) <;> (try split) <;> decide

section Style

variable {tagged : Bool} {cs : List Char}

theorem plainAllowed_of_styleOf (h : styleOf tagged cs = .plain) :
    plainAllowed cs ∧ (tagged = false → isAmbiguous cs = false) := by
  unfold styleOf at h
  split at h
  . split at h <;> cases h
  . split at h
    . cases h
    . next hambiguous =>
      split at h
      . next hplain =>
        refine ⟨hplain, ?_⟩
        rintro rfl
        simpa using hambiguous
      . split at h <;> cases h

theorem singleAllowed_of_styleOf (h : styleOf tagged cs = .singleQuoted) : singleAllowed cs ∧ '\n' ∉ cs := by
  unfold styleOf at h
  split at h
  . split at h <;> cases h
  . next hline =>
    split at h
    . cases h
    . split at h
      . cases h
      . split at h
        . next hsingle => exact ⟨hsingle, by simpa using hline⟩
        . cases h

theorem blockAllowed_of_styleOf (h : styleOf tagged cs = .block) : blockAllowed cs := by
  unfold styleOf at h
  split at h
  . split at h
    . next hblock => exact hblock
    . cases h
  . split at h
    . cases h
    . split at h
      . cases h
      . split at h <;> cases h

theorem isClean_scalarLine (indent : Nat) (tagged : Bool) (cs : List Char) :
    (scalarLine indent tagged cs).all isClean := by
  have hclean : cs.any isSpecial = false → cs.all isClean := fun h =>
    List.all_eq_true.mpr fun c hc =>
      isClean_of_isSpecial_eq_false (Bool.eq_false_iff.mpr (List.any_eq_false.mp h c hc))
  unfold scalarLine
  split
  . next hstyle =>
    have hplain := (plainAllowed_of_styleOf hstyle).1
    simp only [plainAllowed, Bool.and_eq_true, Bool.not_eq_true'] at hplain
    rw [List.all_append, hclean hplain.1.1.1.2]
    decide
  . next hstyle =>
    have hsingle := (singleAllowed_of_styleOf hstyle).1
    simp only [singleAllowed, Bool.and_eq_true, Bool.not_eq_true'] at hsingle
    rw [List.cons_append, List.all_cons, List.all_append, isClean_singleBody (hclean hsingle.2)]
    decide
  . rw [List.cons_append, List.all_cons, List.all_append, isClean_doubleBody]
    decide
  . next hstyle =>
    have hblock := blockAllowed_of_styleOf hstyle
    simp only [blockAllowed, Bool.and_eq_true, Bool.not_eq_true'] at hblock
    rw [List.all_append, List.all_append, isClean_blockHeader, isClean_blockBody (hclean hblock.2)]
    split <;> decide

end Style

end Clean

section Read

open ReadM

/-- Does a text begin as a block may: not with a line break or a tab, and with a blank only if the header can say so? -/
def beginsBlock (hinted : Bool) (cs : List Char) : Bool :=
  cs.head?.all fun c => !isBreak c && c ≠ '\t' && (hinted || c ≠ ' ')

/-- Is the text one that comes back from a block, if it is written in one? -/
def keepsText (hinted : Bool) (cs : List Char) : Bool := styleOf false cs ≠ .block || beginsBlock hinted cs

variable {indent writerIndent : Nat} {cs : List Char} {hinted : Bool}

theorem readsAs_blockLine (h : blockAllowed cs) (hbegins : beginsBlock hinted cs)
    (hhint : hinted → indent - 1 + 4 = writerIndent) (hindent : indent ≤ writerIndent) :
    ReadsAs (blockHeader cs ++ blockBody writerIndent true true cs ++ if cs.getLast?.any isBreak then [] else ['\n'])
      (.scalar cs false) indent := by
  simp only [blockAllowed, Bool.and_eq_true, Bool.not_eq_true'] at h
  obtain ⟨⟨⟨hempty, -⟩, -⟩, hspecial⟩ := h
  obtain ⟨c, rest, rfl⟩ := List.exists_cons_of_ne_nil (by simpa using hempty : cs ≠ [])
  simp only [beginsBlock, List.head?_cons, Option.all_some, Bool.and_eq_true, Bool.not_eq_true', decide_eq_true_eq]
    at hbegins
  obtain ⟨⟨hbreak, htab⟩, hblank⟩ := hbegins
  rw [Bool.or_eq_true, decide_eq_true_eq] at hblank
  have hmark : endMark ∉ c :: rest := fun hmem => List.any_eq_false.mp hspecial endMark hmem (by decide)
  obtain ⟨v, x, g, hblock, hsplit, hv⟩ := exists_isBlock writerIndent (List.cons_ne_nil c rest)
    (by simpa using hbreak) hmark
  obtain ⟨d, hlast, hd⟩ := hblock.exists_getLast?
  obtain ⟨chomp, hheader, htext⟩ := exists_blockHeader_eq hlast hd hblock.isBreak
  obtain ⟨e, y, z, hve, hxe, -⟩ := hblock.exists_cons
  -- the block begins as the text does, so that both agree on whether a hint is due
  obtain rfl : c = e := by
    rw [hxe, List.cons_append] at hsplit
    exact (List.cons.inj hsplit).1
  rw [← hsplit] at hheader htext
  have hread := readsAs_block hblock chomp (c = ' ') indent (by
    split
    . next heq =>
      exact hhint (hblank.resolve_right fun hne => hne (by simpa using heq))
    . next hne =>
      refine ⟨hindent, ?_⟩
      rw [hve, List.headD_cons, isBlank, decide_eq_false htab]
      simpa using hne) hindent
  rw [htext] at hread
  rw [hheader, blockBody_fresh hbreak, if_pos rfl]
  simpa [hbreak, hv] using hread

variable (indent writerIndent) in
/-- A text is read as it is from what is written of it. A plain one stands for nothing else. -/
theorem exists_readsAs_scalarLine (h : keepsText hinted cs) (hhint : hinted → indent - 1 + 4 = writerIndent)
    (hindent : indent ≤ writerIndent) (hpos : 0 < writerIndent) :
    ∃ plain, ReadsAs (scalarLine writerIndent false cs) (.scalar cs plain) indent ∧ (plain → resolve cs = .text) := by
  unfold scalarLine
  split
  . next hstyle =>
    obtain ⟨hplain, hambiguous⟩ := plainAllowed_of_styleOf hstyle
    have hambiguous := hambiguous rfl
    simp only [isAmbiguous, Bool.or_eq_false_iff, decide_eq_false_iff_not, Decidable.not_not] at hambiguous
    refine ⟨true, readsAs_plain ?_ hplain indent, fun _ => hambiguous.1.1⟩
    rintro rfl
    exact absurd hambiguous.1.1 (by decide)
  . next hstyle =>
    obtain ⟨hsingle, hline⟩ := singleAllowed_of_styleOf hstyle
    have hquoted := (isSingleRest_of_singleAllowed hsingle hline).isQuoted hpos
    exact ⟨false, by simpa using readsAs_quoted hquoted (.inl rfl) indent, nofun⟩
  . exact ⟨false, by simpa using readsAs_quoted (isQuoted_doubleBody cs) (.inr rfl) indent, nofun⟩
  . next hstyle =>
    simp only [keepsText, hstyle, Bool.or_eq_true, decide_eq_true_eq] at h
    refine ⟨false, readsAs_blockLine (blockAllowed_of_styleOf hstyle) (h.resolve_left fun h => h rfl) hhint hindent,
      nofun⟩

theorem isTokenStart_scalarLine : (scalarLine writerIndent false cs).head?.any isTokenStart := by
  unfold scalarLine
  split
  . next hstyle =>
    obtain ⟨hplain, hambiguous⟩ := plainAllowed_of_styleOf hstyle
    have hne : cs ≠ [] := by
      rintro rfl
      exact absurd (hambiguous rfl) (by decide)
    obtain ⟨c, rest, rfl, hgap, hhash⟩ := (isPlainRest_of_plainAllowed hne hplain).isPlainText.exists_cons
    rw [List.cons_append, List.head?_cons, Option.any_some, isTokenStart, isSolid_of_isGap_eq_false hgap]
    simpa using hhash
  . rfl
  . rfl
  . rfl

end Read

end VerboseExpr.Yaml
