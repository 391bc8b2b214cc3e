import VerboseExpr.Config.Store
import VerboseExpr.Proofs.Generation.Naming

/-!
Generating code from settings. Settings are checked when they are read, options before the expression is compiled, and
what is prepared from them before it is written. Main statement: with settings that can be read, the engine and the
presence of a package are never at fault later; a name of which nothing can be made is refused with the options, and a
package that is no identifier when it is about to be written.
-/

namespace VerboseExpr

open Generated

/-- Options with a source that is not blank, and with the name, the package and the engine of some settings. -/
structure Options.TakenFrom (c : Config) (o : Options) : Prop where
  source : Unicode.trim o.source ≠ []
  name : o.name = c.name
  package : o.package = c.package
  engine : o.engine = c.engine

section Tables

theorem exportedName_isEmpty_eq (b : Bytes) : (exportedName b).isEmpty = !(Utf8.decode b).any isNameChar := by
  rw [Bool.eq_iff_iff, List.isEmpty_iff, exportedName_eq_nil_iff, exportedChars_eq_nil_iff, Bool.not_eq_true',
    List.any_eq_false]
  simp only [Bool.not_eq_true]

theorem isNameChar_eq (c : Char) : isNameChar c = (c == '_' ||
    (Unicode.letters.toList.any fun r => r.1 ≤ c.toNat && c.toNat ≤ r.2) ||
    Unicode.digits.toList.any fun r => r.1 ≤ c.toNat && c.toNat ≤ r.2) := by
  rw [isNameChar, isInitial, Unicode.isLetter, Unicode.isDigit, Unicode.Ranges.contains_eq, Unicode.Ranges.contains_eq]

theorem mapCase_eq (table : Array Unicode.CaseRun) (c : Char) : Unicode.mapCase table c =
    (table.toList.find? (·.contains c)).elim c fun run => Char.ofNat (run.target + (c.toNat - run.lo)) := by
  unfold Unicode.mapCase
  rw [Array.find?_toList]
  cases table.find? (·.contains c) with
  | none => rfl
  | some run => rfl

theorem ofSetting_eq_auto {setting : Bytes} {cs : List Char} (hdecode : Utf8.decode (Unicode.trim setting) = cs)
    (hlower : Bytes.ofChars (cs.map (Unicode.mapCase Unicode.lowerRuns)) = "auto") :
    Engine.Choice.ofSetting setting = .ok .auto := by
  have hauto : Unicode.lower (Unicode.trim setting) = "auto" := by
    rw [Unicode.lower, hdecode]
    exact hlower
  rw [Engine.Choice.ofSetting, hauto]
  rfl

theorem ofSetting_auto : Engine.Choice.ofSetting "auto" = .ok .auto := by
  have hdecode : Utf8.decode (Unicode.trim "auto") = ['a', 'u', 't', 'o'] := by decide +kernel
  apply ofSetting_eq_auto hdecode
  rw [funext (mapCase_eq Unicode.lowerRuns)]
  decide +kernel

end Tables

section Validate

variable {c : Config} {o : Options} {choice : Engine.Choice}

theorem Config.validate_eq_ok_iff : c.validate = .ok () ↔
    Unicode.trim c.name ≠ [] ∧ Unicode.trim c.package ≠ [] ∧
      ∃ choice, Engine.Choice.ofSetting c.engine = .ok choice := by
  unfold validate
  split
  . next hname => simp [List.isEmpty_iff.1 hname]
  . next hname =>
    rw [List.isEmpty_iff] at hname
    split
    . next hpackage => simp [List.isEmpty_iff.1 hpackage]
    . next hpackage =>
      rw [List.isEmpty_iff] at hpackage
      cases hengine : Engine.Choice.ofSetting c.engine with
      | error e => simp
      | ok choice => simp [hname, hpackage]

theorem Config.parse_eq_ok_iff_validate {data : Bytes} {format : Format} :
    parse data format = .ok c ↔ decode data format = .ok c ∧ c.validate = .ok () := by
  unfold parse
  simp only [bind, pure, Except.pure, Except.bind_eq_ok_iff, Except.mapError_eq_ok_iff, Except.ok.injEq]
  constructor
  . rintro ⟨c', hdecode, ⟨⟩, hvalid, rfl⟩
    exact ⟨hdecode, hvalid⟩
  . rintro ⟨hdecode, hvalid⟩
    exact ⟨c, hdecode, (), hvalid, rfl⟩

theorem Options.TakenFrom.validate_eq (h : o.TakenFrom c) (hvalid : c.validate = .ok ())
    (hchoice : Engine.Choice.ofSetting c.engine = .ok choice) :
    o.validate = if (Utf8.decode c.name).any isNameChar then .ok choice else .error .emptyName := by
  have hpackage : o.package ≠ [] := by
    intro hnil
    have htrim := (Config.validate_eq_ok_iff.1 hvalid).2.1
    rw [← h.package, hnil] at htrim
    exact htrim Options.trim_nil
  unfold Options.validate
  rw [List.isEmpty_eq_false_iff.2 h.source, List.isEmpty_eq_false_iff.2 hpackage, h.engine, hchoice,
    exportedName_isEmpty_eq, h.name]
  cases (Utf8.decode c.name).any isNameChar <;> rfl

end Validate

namespace Config

/-- Options that are taken from settings that were read are accepted exactly if the name has an underscore, a letter or
a digit, and the engine is then the one of the settings. Without any of these the name is what is refused. What is
prepared from the options is accepted exactly if the package is an identifier. -/
theorem parse_usable {data : Bytes} {format : Format} {c : Config} {o : Options} (hparse : parse data format = .ok c)
    (htaken : o.TakenFrom c) :
    (∃ choice, Engine.Choice.ofSetting c.engine = .ok choice ∧
      o.validate = if (Utf8.decode c.name).any isNameChar then .ok choice else .error .emptyName) ∧
      ∀ search d, o.prepare search = .ok d →
        d.validate = if isIdentifier c.package then .ok () else .error (.invalidPackage c.package) := by
  obtain ⟨-, hvalid⟩ := parse_eq_ok_iff_validate.1 hparse
  obtain ⟨-, -, choice, hchoice⟩ := validate_eq_ok_iff.1 hvalid
  constructor
  . exact ⟨choice, hchoice, htaken.validate_eq hvalid hchoice⟩
  . intro search d hd
    rw [Options.validate_of_prepare hd, htaken.package]

def letterOptions (c : Config) : Options where
  source := "'a'"
  name := c.name
  package := c.package
  engine := c.engine

theorem letterOptions_takenFrom (c : Config) : c.letterOptions.TakenFrom c :=
  ⟨Options.compile_letter.1, rfl, rfl, rfl⟩

def spaced : Config := { default with name := "3 d", package := "p", engine := " Auto" }

theorem parse_usable_digit :
    parse "name = \"3 d\"\npackage = \"p\"\nengine = \" Auto\"\n" .toml = .ok spaced ∧
      spaced.letterOptions.TakenFrom spaced ∧ spaced.letterOptions.validate = .ok .auto ∧
      ∃ d, spaced.letterOptions.prepare = .ok d ∧ d.validate = .ok () := by
  -- the engine is trimmed and put in lower case before it is looked up
  have hengine : Engine.Choice.ofSetting spaced.engine = .ok .auto := by
    have hdecode : Utf8.decode (Unicode.trim spaced.engine) = ['A', 'u', 't', 'o'] := by decide +kernel
    apply ofSetting_eq_auto hdecode
    rw [funext (mapCase_eq Unicode.lowerRuns)]
    decide +kernel
  have hparse : parse "name = \"3 d\"\npackage = \"p\"\nengine = \" Auto\"\n" .toml = .ok spaced := by
    have hvalid : spaced.validate = .ok () :=
      validate_eq_ok_iff.2 ⟨by decide +kernel, by decide +kernel, .auto, hengine⟩
    exact parse_eq_ok_iff_validate.2 ⟨by decide +kernel, hvalid⟩
  have hname : (Utf8.decode spaced.name).any isNameChar := by
    have hdecode : Utf8.decode spaced.name = ['3', ' ', 'd'] := by decide +kernel
    rw [hdecode, funext isNameChar_eq]
    decide +kernel
  have hpackage : isIdentifier spaced.package := by
    have hletters : isDeclarable "p" := isDeclarable_of_letters (c := 'p') (by decide +kernel) (by decide)
    exact (Bool.and_eq_true_iff.1 hletters).1
  obtain ⟨⟨choice, hchoice, hvalidate⟩, hprepare⟩ := parse_usable hparse (letterOptions_takenFrom spaced)
  rw [hengine, Except.ok.injEq] at hchoice
  rw [if_pos hname, ← hchoice] at hvalidate
  obtain ⟨d, hd⟩ := Options.exists_prepare_of_validate rfl hvalidate
  refine ⟨hparse, letterOptions_takenFrom spaced, hvalidate, d, hd, ?_⟩
  rw [hprepare .patient d hd, if_pos hpackage]

def nameless : Config := { default with name := "-" }

def hyphenated : Config := { default with package := "a-b" }

theorem parse_unusable :
    parse "name: \"-\"\n" .yaml = .ok nameless ∧ nameless.letterOptions.TakenFrom nameless ∧
      nameless.letterOptions.validate = .error .emptyName ∧ parse "package: a-b\n" .yaml = .ok hyphenated ∧
      hyphenated.letterOptions.TakenFrom hyphenated ∧
      ∃ d, hyphenated.letterOptions.prepare = .ok d ∧ d.validate = .error (.invalidPackage "a-b") := by
  have hvalid : nameless.validate = .ok () :=
    validate_eq_ok_iff.2 ⟨by decide +kernel, by decide +kernel, .auto, ofSetting_auto⟩
  have hvalid' : hyphenated.validate = .ok () :=
    validate_eq_ok_iff.2 ⟨by decide +kernel, by decide +kernel, .auto, ofSetting_auto⟩
  have hnameless : nameless.letterOptions.validate = .error .emptyName := by
    have hdecode : Utf8.decode nameless.name = ['-'] := by decide +kernel
    rw [(letterOptions_takenFrom nameless).validate_eq hvalid ofSetting_auto, hdecode, funext isNameChar_eq]
    decide +kernel
  have hhyphenated : hyphenated.letterOptions.validate = .ok .auto := by
    have hdecode : Utf8.decode hyphenated.name = ['E', 'x', 'p', 'r'] := by decide +kernel
    rw [(letterOptions_takenFrom hyphenated).validate_eq hvalid' ofSetting_auto, hdecode, funext isNameChar_eq]
    decide +kernel
  have hpackage : isIdentifier hyphenated.letterOptions.package = false := by
    have hdecode : Utf8.decode hyphenated.letterOptions.package = ['a', '-', 'b'] := by decide +kernel
    unfold isIdentifier
    rw [hdecode, funext isNameChar_eq]
    simp only [Bool.and_eq_false_iff]
    right
    decide +kernel
  obtain ⟨d, hd⟩ := Options.exists_prepare_of_validate rfl hhyphenated
  refine ⟨parse_eq_ok_iff_validate.2 ⟨by decide +kernel, hvalid⟩, letterOptions_takenFrom nameless, hnameless,
    parse_eq_ok_iff_validate.2 ⟨by decide +kernel, hvalid'⟩, letterOptions_takenFrom hyphenated, d, hd, ?_⟩
  rw [Options.validate_of_prepare hd, hpackage]
  rfl

end Config

end VerboseExpr
