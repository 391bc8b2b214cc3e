import VerboseExpr.Proofs.Generation.Files

namespace VerboseExpr.Generated

theorem isNameChar_eq_false_iff {c : Char} :
    isNameChar c = false ↔ ¬(c = '_' ∨ Unicode.isLetter c ∨ Unicode.isDigit c) := by
  rw [isNameChar, isInitial, Bool.or_assoc, ← Bool.not_eq_true, Bool.or_eq_true, Bool.or_eq_true, beq_iff_eq]

theorem Declaration.validate_ne_invalidName {d : Declaration} (h : isIdentifier d.name) (name : Bytes) :
    d.validate ≠ .error (.invalidName name) := by
  rw [validate, h, Bool.not_true, if_neg Bool.false_ne_true]
  split
  . simp
  . simp

/-- Nothing is left of a free name only if it has no line, letter or digit. What is left is an identifier, and stays
as it is if it is made an exported name once more. So the name of options that are accepted is exported as an
identifier, and what is prepared from them is not refused because of its name. -/
theorem exportedName_usable :
    (∀ s : Bytes,
      (exportedName s = [] ↔ ∀ c ∈ Utf8.decode s, ¬(c = '_' ∨ Unicode.isLetter c ∨ Unicode.isDigit c)) ∧
      (exportedName s = [] ∨ isIdentifier (exportedName s)) ∧ exportedName (exportedName s) = exportedName s) ∧
    ∀ (o : Options) (choice : Engine.Choice), o.validate = .ok choice →
      isIdentifier (exportedName o.name) ∧
        ∀ d, o.prepare = .ok d →
          d.name = exportedName o.name ∧ ∀ name, d.validate ≠ .error (.invalidName name) := by
  refine ⟨?_, ?_⟩
  . intro s
    refine ⟨?_, ?_, exportedName_exportedName s⟩
    . rw [exportedName_eq_nil_iff, exportedChars_eq_nil_iff]
      simp only [isNameChar_eq_false_iff]
    . exact Decidable.or_iff_not_imp_left.mpr isIdentifier_exportedName
  . intro o choice hchoice
    refine ⟨isIdentifier_exportedName (Options.exportedName_ne_nil_of_validate hchoice), ?_⟩
    intro d hd
    obtain ⟨hidentifier, hname, -⟩ := Options.of_prepare hd
    exact ⟨hname, Declaration.validate_ne_invalidName hidentifier⟩

def digitNamed : Options := { source := "'a'", name := "3 d", package := "p" }

theorem exportedName_usable_digit :
    exportedName digitNamed.name = "X3D" ∧ exportedName "X3D" = "X3D" ∧ isIdentifier "X3D" ∧
      digitNamed.validate = .ok .auto ∧
      ∃ d, digitNamed.prepare = .ok d ∧ d.name = "X3D" ∧ ∀ name, d.validate ≠ .error (.invalidName name) := by
  have hname : exportedName digitNamed.name = "X3D" := by
    have hdecode : Utf8.decode digitNamed.name = ['3', ' ', 'd'] := by decide +kernel
    have hblank : isNameChar ' ' = false := isNameChar_eq_false (by decide)
    rw [exportedName, hdecode, exportedChars_digit (by decide +kernel), exportedChars_skip hblank,
      exportedChars_cons (by decide +kernel) (Or.inl rfl)]
    decide +kernel
  have hne : exportedName digitNamed.name ≠ [] := by
    rw [hname]
    decide
  obtain ⟨hnames, hoptions⟩ := exportedName_usable
  obtain ⟨hvalidate, d, hd⟩ := Options.prepare_letter (o := digitNamed) rfl hne (by decide) rfl
  obtain ⟨hidentifier, hprepare⟩ := hoptions digitNamed .auto hvalidate
  obtain ⟨hsame, hvalid⟩ := hprepare d hd
  have hagain := (hnames digitNamed.name).2.2
  rw [hname] at hidentifier hsame hagain
  exact ⟨hname, hagain, hidentifier, hvalidate, d, hd, hsame, hvalid⟩

end VerboseExpr.Generated
