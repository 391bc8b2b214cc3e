import VerboseExpr.Generated.Identifier
import VerboseExpr.Proofs.Text.Quoted

namespace VerboseExpr.Unicode

section Sets

/-- The numbers from `lo` to `hi` as the ones of a binary number. -/
def span (lo hi : Nat) : Nat := (2 ^ (hi + 1 - lo) - 1) <<< lo

/-- The numbers from `start` on that are `step` apart, `count` of them, as the ones of a binary number. -/
def ones (start step : Nat) : Nat → Nat
  | 0 => 0
  | count + 1 => ones start step count ||| 2 ^ (start + step * count)

def union (sets : List Nat) : Nat := sets.foldr (· ||| ·) 0

/-- The numbers of the characters in a table, as one number that the kernel can compute with. -/
def Ranges.set (table : Ranges) : Nat := union (table.toList.map fun r => span r.1 r.2)

theorem testBit_span {lo hi n : Nat} : (span lo hi).testBit n ↔ lo ≤ n ∧ n ≤ hi := by
  rw [span, Nat.testBit_shiftLeft, Bool.and_eq_true, Nat.testBit_two_pow_sub_one, decide_eq_true_eq, decide_eq_true_eq]
  omega

theorem testBit_ones {start step count n : Nat} :
    (ones start step count).testBit n ↔ ∃ k < count, n = start + step * k := by
  induction count with
  | zero => simp [ones]
  | succ count ih =>
    rw [ones, Nat.testBit_or, Bool.or_eq_true, ih, Nat.testBit_two_pow, decide_eq_true_eq]
    constructor
    . rintro (⟨k, hk, rfl⟩ | heq)
      . exact ⟨k, Nat.lt_succ_of_lt hk, rfl⟩
      . exact ⟨count, Nat.lt_succ_self count, heq.symm⟩
    . rintro ⟨k, hk, rfl⟩
      obtain hlt | rfl := Nat.lt_succ_iff_lt_or_eq.mp hk
      . exact Or.inl ⟨k, hlt, rfl⟩
      . exact Or.inr rfl

theorem testBit_union {sets : List Nat} {n : Nat} : (union sets).testBit n ↔ ∃ set ∈ sets, set.testBit n := by
  induction sets with
  | nil => simp [union]
  | cons set sets ih =>
    rw [union] at ih ⊢
    rw [List.foldr_cons, Nat.testBit_or, Bool.or_eq_true, ih]
    simp only [List.mem_cons, exists_eq_or_imp]

theorem Ranges.contains_eq_testBit {table : Ranges} {c : Char} : table.contains c = table.set.testBit c.toNat := by
  rw [Bool.eq_iff_iff, Ranges.contains_eq, List.any_eq_true, Ranges.set, testBit_union]
  simp only [List.mem_map, exists_exists_and_eq_and, testBit_span, Bool.and_eq_true, decide_eq_true_eq]

theorem not_testBit_of_and_eq_zero {a b n : Nat} (h : a &&& b = 0) (ha : a.testBit n) : ¬ b.testBit n := by
  intro hb
  have hboth : (a &&& b).testBit n := by rw [Nat.testBit_and, ha, hb, Bool.and_true]
  simp [h] at hboth

end Sets

section Runs

def CaseRun.count (run : CaseRun) : Nat := (run.hi - run.lo) / run.step + 1

/-- The characters that have an upper case of their own. -/
def lowerCases : Nat := union (upperRuns.toList.map fun run => ones run.lo run.step run.count)

/-- The upper cases of other characters. -/
def upperCases : Nat := union (upperRuns.toList.map fun run => ones run.target run.step run.count)

def CaseRun.keepsLetters (run : CaseRun) : Bool :=
  let places := (letters.set &&& ones run.lo run.step run.count) >>> run.lo
  (places &&& (letters.set >>> run.target)).beq places

variable {c : Char}

theorem exists_run (h : toUpper c ≠ c) :
    ∃ run ∈ upperRuns.toList, run.contains c ∧ toUpper c = Char.ofNat (run.target + (c.toNat - run.lo)) := by
  unfold toUpper mapCase at h ⊢
  generalize upperRuns = table at h ⊢
  cases hfind : table.find? (·.contains c) with
  | none => simp [hfind] at h
  | some run =>
    have hcontains := Array.find?_some hfind
    exact ⟨run, Array.mem_toList_iff.mpr (Array.mem_of_find?_eq_some hfind), hcontains, rfl⟩

theorem CaseRun.contains_iff {run : CaseRun} :
    run.contains c ↔ run.lo ≤ c.toNat ∧ c.toNat ≤ run.hi ∧ (c.toNat - run.lo) % run.step = 0 := by
  unfold CaseRun.contains
  simp only [Bool.and_eq_true, decide_eq_true_eq, beq_iff_eq, and_assoc]

theorem exists_place (h : toUpper c ≠ c) :
    ∃ run ∈ upperRuns.toList, ∃ k < run.count,
      c.toNat = run.lo + run.step * k ∧ (toUpper c).toNat = run.target + run.step * k := by
  have hvalid : ∀ run ∈ upperRuns.toList, run.target + (run.hi - run.lo) < 0xD800 ∨
      0xDFFF < run.target ∧ run.target + (run.hi - run.lo) < 0x110000 := by decide +kernel
  obtain ⟨run, hrun, hcontains, hupper⟩ := exists_run h
  obtain ⟨hlo, hhi, hstep⟩ := CaseRun.contains_iff.mp hcontains
  have hvalid := hvalid run hrun
  have hplace : run.step * ((c.toNat - run.lo) / run.step) = c.toNat - run.lo :=
    Nat.mul_div_cancel' (Nat.dvd_of_mod_eq_zero hstep)
  refine ⟨run, hrun, (c.toNat - run.lo) / run.step, ?_, ?_, ?_⟩
  . exact Nat.lt_succ_of_le (Nat.div_le_div_right (Nat.sub_le_sub_right hhi run.lo))
  . omega
  . rw [hplace, hupper]
    exact Utf8.toNat_ofNat (by omega)

theorem testBit_lowerCases (h : toUpper c ≠ c) : lowerCases.testBit c.toNat := by
  obtain ⟨run, hrun, k, hk, hplace, -⟩ := exists_place h
  rw [lowerCases, testBit_union]
  exact ⟨_, List.mem_map_of_mem hrun, testBit_ones.mpr ⟨k, hk, hplace⟩⟩

theorem testBit_upperCases (h : toUpper c ≠ c) : upperCases.testBit (toUpper c).toNat := by
  obtain ⟨run, hrun, k, hk, -, hplace⟩ := exists_place h
  rw [upperCases, testBit_union]
  exact ⟨_, List.mem_map_of_mem hrun, testBit_ones.mpr ⟨k, hk, hplace⟩⟩

end Runs

section Upper

variable {c : Char}

theorem cases_apart : digits.set &&& lowerCases = 0 ∧ upperCases &&& digits.set = 0 ∧
    upperCases &&& lowerCases = 0 := by
  decide +kernel

theorem isLetter_toUpper (h : isLetter c) : isLetter (toUpper c) := by
  have hkeeps : ∀ run ∈ upperRuns.toList, run.keepsLetters := by decide +kernel
  by_cases hsame : toUpper c = c
  . rw [hsame, h]
  . obtain ⟨run, hrun, k, hk, hlower, hupper⟩ := exists_place hsame
    rw [isLetter, Ranges.contains_eq_testBit] at h ⊢
    -- the letters of the run are counted from its first character, its upper cases from the first of these
    have hplace : ((letters.set &&& ones run.lo run.step run.count) >>> run.lo).testBit (run.step * k) := by
      rw [Nat.testBit_shiftRight, Nat.testBit_and, ← hlower, h, Bool.true_and, testBit_ones]
      exact ⟨k, hk, hlower⟩
    rw [← Nat.eq_of_beq_eq_true (hkeeps run hrun), Nat.testBit_and, Bool.and_eq_true, Nat.testBit_shiftRight,
      Nat.testBit_shiftRight] at hplace
    rw [hupper]
    exact hplace.2

theorem toUpper_eq_self (h : lowerCases.testBit c.toNat = false) : toUpper c = c := by
  by_contra hother
  rw [testBit_lowerCases hother] at h
  contradiction

theorem toUpper_initials : toUpper '_' = '_' ∧ toUpper 'X' = 'X' := by
  have hcases : lowerCases.testBit '_'.toNat = false ∧ lowerCases.testBit 'X'.toNat = false := by decide +kernel
  exact ⟨toUpper_eq_self hcases.1, toUpper_eq_self hcases.2⟩

theorem toUpper_digit (h : isDigit c) : toUpper c = c := by
  rw [isDigit, Ranges.contains_eq_testBit] at h
  exact toUpper_eq_self (Bool.eq_false_iff.mpr (not_testBit_of_and_eq_zero cases_apart.1 h))

theorem isDigit_toUpper (h : isDigit c = false) : isDigit (toUpper c) = false := by
  by_cases hsame : toUpper c = c
  . rw [hsame, h]
  . rw [isDigit, Ranges.contains_eq_testBit]
    exact Bool.eq_false_iff.mpr (not_testBit_of_and_eq_zero cases_apart.2.1 (testBit_upperCases hsame))

theorem toUpper_toUpper (c : Char) : toUpper (toUpper c) = toUpper c := by
  by_cases hsame : toUpper c = c
  . rw [hsame, hsame]
  . exact toUpper_eq_self (Bool.eq_false_iff.mpr (not_testBit_of_and_eq_zero cases_apart.2.2
      (testBit_upperCases hsame)))

end Upper

end VerboseExpr.Unicode

namespace VerboseExpr.Generated

/-- The characters of an exported name: the first may begin an identifier, is no digit and its own upper case. -/
inductive IsExported : List Char → Prop where
  | cons {c : Char} {cs : List Char} :
    isInitial c → Unicode.isDigit c = false → Unicode.toUpper c = c → (∀ d ∈ cs, isNameChar d) →
    IsExported (c :: cs)

theorem isInitial_X : isInitial 'X' ∧ Unicode.isDigit 'X' = false := by
  rw [isInitial, Unicode.isLetter, Unicode.isDigit, Unicode.Ranges.contains_eq_testBit,
    Unicode.Ranges.contains_eq_testBit]
  decide +kernel

theorem isInitial_toUpper {c : Char} (h : isInitial c) : isInitial (Unicode.toUpper c) := by
  unfold isInitial at h ⊢
  rw [Bool.or_eq_true] at h
  obtain hline | hletter := h
  . rw [beq_iff_eq.mp hline, Unicode.toUpper_initials.1]
    rfl
  . rw [Unicode.isLetter_toUpper hletter, Bool.or_true]

theorem isNameChar_toUpper {c : Char} (h : isNameChar c) : isNameChar (Unicode.toUpper c) := by
  unfold isNameChar at h ⊢
  rw [Bool.or_eq_true] at h
  obtain hinitial | hdigit := h
  . rw [isInitial_toUpper hinitial, Bool.true_or]
  . rw [Unicode.toUpper_digit hdigit, hdigit, Bool.or_true]

theorem isInitial_of_not_isDigit {c : Char} (h : isNameChar c) (hdigit : Unicode.isDigit c = false) : isInitial c := by
  unfold isNameChar at h
  simpa [hdigit] using h

section Characters

variable {begun upper : Bool} {cs : List Char}

theorem exportedChars_skip {c : Char} (h : isNameChar c = false) (cs : List Char) :
    exportedChars begun upper (c :: cs) = exportedChars begun true cs := by
  rw [exportedChars]
  simp [h]

theorem exportedChars_cons {c : Char} (h : isNameChar c) (hbegun : begun ∨ Unicode.isDigit c = false) (cs : List Char) :
    exportedChars begun upper (c :: cs) = (if upper then Unicode.toUpper c else c) :: exportedChars true false cs := by
  have hletter : (!begun && Unicode.isDigit c) = false := by
    rcases hbegun with rfl | hdigit
    . rfl
    . rw [hdigit, Bool.and_false]
  rw [exportedChars]
  simp [h, hletter]

theorem exportedChars_digit {c : Char} (h : Unicode.isDigit c) (cs : List Char) :
    exportedChars false upper (c :: cs) = 'X' :: c :: exportedChars true false cs := by
  have hname : isNameChar c := by rw [isNameChar, h, Bool.or_true]
  rw [exportedChars]
  simp [hname, h, Unicode.toUpper_digit h]

theorem exportedChars_eq_nil_iff : exportedChars begun upper cs = [] ↔ ∀ c ∈ cs, isNameChar c = false := by
  induction cs generalizing upper with
  | nil => simp [exportedChars]
  | cons c cs ih =>
    rw [List.forall_mem_cons]
    cases hc : isNameChar c with
    | false => simp [exportedChars_skip hc, ih]
    | true =>
      rw [exportedChars]
      simp only [hc, if_true, Bool.true_eq_false, false_and, iff_false]
      split <;> simp

theorem isNameChar_of_mem_exportedChars {d : Char} (h : d ∈ exportedChars begun upper cs) : isNameChar d := by
  induction cs generalizing begun upper with
  | nil => contradiction
  | cons c cs ih =>
    cases hc : isNameChar c with
    | false =>
      rw [exportedChars_skip hc] at h
      exact ih h
    | true =>
      rw [exportedChars] at h
      simp only [hc, if_true] at h
      have hletter : isNameChar (if upper then Unicode.toUpper c else c) := by
        split
        . exact isNameChar_toUpper hc
        . exact hc
      split at h
      . obtain rfl | rfl | hmem : d = 'X' ∨ d = _ ∨ d ∈ _ := by simpa only [List.mem_cons] using h
        . rw [isNameChar, isInitial_X.1, Bool.true_or]
        . exact hletter
        . exact ih hmem
      . obtain rfl | hmem := List.mem_cons.mp h
        . exact hletter
        . exact ih hmem

theorem exportedChars_true_false (h : ∀ c ∈ cs, isNameChar c) : exportedChars true false cs = cs := by
  induction cs with
  | nil => rfl
  | cons c cs ih =>
    obtain ⟨hc, hcs⟩ := List.forall_mem_cons.mp h
    rw [exportedChars_cons hc (Or.inl rfl), ih hcs]
    rfl

end Characters

theorem IsExported.isIdentifier {cs : List Char} (h : IsExported cs) : isIdentifier (Bytes.ofChars cs) := by
  cases h with
  | cons hc _ _ hcs =>
    unfold Generated.isIdentifier
    rw [Utf8.decode_ofChars]
    dsimp only
    rw [hc, List.all_eq_true.mpr hcs]
    rfl

theorem IsExported.exportedChars_eq {cs : List Char} (h : IsExported cs) : exportedChars false true cs = cs := by
  cases h with
  | @cons c cs hc hdigit hupper hcs =>
    have hname : isNameChar c := by rw [isNameChar, hc, Bool.true_or]
    rw [exportedChars_cons hname (Or.inr hdigit), exportedChars_true_false hcs, if_pos rfl, hupper]

/-- What is made of a free name is an exported name, unless nothing is left of it. -/
theorem isExported_exportedChars {cs : List Char} (h : exportedChars false true cs ≠ []) :
    IsExported (exportedChars false true cs) := by
  induction cs with
  | nil => contradiction
  | cons c cs ih =>
    cases hc : isNameChar c with
    | false =>
      rw [exportedChars_skip hc] at h ⊢
      exact ih h
    | true =>
      have hrest : ∀ d ∈ exportedChars true false cs, isNameChar d := fun d hd => isNameChar_of_mem_exportedChars hd
      cases hdigit : Unicode.isDigit c with
      | true =>
        rw [exportedChars_digit hdigit]
        exact IsExported.cons isInitial_X.1 isInitial_X.2 Unicode.toUpper_initials.2
          (List.forall_mem_cons.mpr ⟨hc, hrest⟩)
      | false =>
        rw [exportedChars_cons hc (Or.inr hdigit), if_pos rfl]
        have hinitial := isInitial_toUpper (isInitial_of_not_isDigit hc hdigit)
        exact IsExported.cons hinitial (Unicode.isDigit_toUpper hdigit) (Unicode.toUpper_toUpper c) hrest

theorem exportedName_eq_nil_iff {b : Bytes} : exportedName b = [] ↔ exportedChars false true (Utf8.decode b) = [] := by
  constructor
  . intro h
    have hdecode := congrArg Utf8.decode h
    rw [exportedName, Utf8.decode_ofChars] at hdecode
    rw [hdecode, Utf8.decode, Utf8.units, List.map_nil]
  . intro h
    rw [exportedName, h, Bytes.ofChars_nil]

theorem isIdentifier_exportedName {b : Bytes} (h : exportedName b ≠ []) : isIdentifier (exportedName b) :=
  (isExported_exportedChars (mt exportedName_eq_nil_iff.mpr h)).isIdentifier

theorem exportedName_exportedName (b : Bytes) : exportedName (exportedName b) = exportedName b := by
  unfold exportedName
  rw [Utf8.decode_ofChars]
  by_cases hnil : exportedChars false true (Utf8.decode b) = []
  . rw [hnil]
    rfl
  . rw [(isExported_exportedChars hnil).exportedChars_eq]

end VerboseExpr.Generated
