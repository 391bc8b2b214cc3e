import VerboseExpr.Generation
import VerboseExpr.Proofs.Generated.Exported
import VerboseExpr.Proofs.Generated.Texts
import VerboseExpr.Proofs.Generated.Writing

/-!
Generating files in a tree. All that is checked before the first file is written leaves the tree as it is. Main
statements: generation changes its own files only, and fails before it changes anything unless the test file is what
fails; it succeeds where rendering does and the package is an identifier, and then leaves what rendering gives.
-/

namespace VerboseExpr

open Generated

/-- The generated file that was at fault, if it was saved or laid out when the error arose. -/
def GenerationError.part? : GenerationError → Option Part
  | .code w => w.part?
  | _ => none

namespace Options

section Prepare

variable {o : Options} {search : Search} {d : Declaration}

theorem exportedName_ne_nil_of_validate {choice : Engine.Choice} (h : o.validate = .ok choice) :
    exportedName o.name ≠ [] := by
  intro hempty
  unfold validate at h
  simp only [hempty, List.isEmpty_nil, if_true] at h
  split at h
  . contradiction
  . contradiction

/-- What a search finds in the test inputs, unless it gives up on one of them. -/
def casesOf (o : Options) (search : Search) (m : Matcher) : Except GenerationError (List Case) :=
  o.testInputs.mapM fun input => do
    let r ← (search m input).mapError (.unmatched input)
    return ⟨input, r.found, r.text⟩

theorem casesOf_error {m : Matcher} {e : GenerationError} (h : o.casesOf search m = .error e) :
    ∃ input reason, e = .unmatched input reason := by
  unfold casesOf at h
  generalize o.testInputs = inputs at h
  induction inputs with
  | nil => contradiction
  | cons input more ih =>
    rw [List.mapM_cons] at h
    cases hfound : search m input with
    | error reason =>
      rw [hfound] at h
      exact ⟨input, reason, (Except.error.inj h).symm⟩
    | ok r =>
      rw [hfound] at h
      obtain hcase | ⟨c, -, hmore⟩ := Except.bind_eq_error_iff.1 h
      . contradiction
      . obtain hmore | ⟨cs, -, hcs⟩ := Except.bind_eq_error_iff.1 hmore
        . exact ih hmore
        . contradiction

theorem casesOf_patient (o : Options) (m : Matcher) :
    o.casesOf .patient m = .ok (o.testInputs.map fun input => ⟨input, (m.find input).found, (m.find input).text⟩) :=
  List.mapM_pure

theorem prepare_eq {choice : Engine.Choice} {pattern : Bytes} {m : Matcher} (hchoice : o.validate = .ok choice)
    (hcompile : compile o.source = .ok pattern) (hmake : Matcher.make pattern choice = .ok m) :
    o.prepare search = (o.casesOf search m).map fun cases =>
      ⟨o.source, pattern, exportedName o.name, o.package, m.engine, cases⟩ := by
  unfold prepare
  simp only [hchoice, hcompile, hmake, Except.mapError, bind, Except.bind]
  rfl

theorem prepare_cases (o : Options) (search : Search) :
    (∃ e, o.prepare search = .error e ∧ ∀ w, e ≠ .code w) ∨
      ∃ d, o.prepare search = .ok d ∧ isIdentifier d.name ∧ d.name = exportedName o.name ∧ d.package = o.package := by
  cases hchoice : o.validate with
  | error e => exact .inl ⟨.options e, by simp [prepare, hchoice, Except.mapError, bind, Except.bind], by simp⟩
  | ok choice =>
    cases hcompile : compile o.source with
    | error f =>
      exact .inl ⟨.source f, by simp [prepare, hchoice, hcompile, Except.mapError, bind, Except.bind], by simp⟩
    | ok pattern =>
      cases hmake : Matcher.make pattern choice with
      | error e =>
        refine .inl ⟨.pattern e, ?_, by simp⟩
        simp [prepare, hchoice, hcompile, hmake, Except.mapError, bind, Except.bind]
      | ok m =>
        have hprepare : o.prepare search = _ := prepare_eq hchoice hcompile hmake
        cases hcases : o.casesOf search m with
        | error e =>
          obtain ⟨input, reason, rfl⟩ := casesOf_error hcases
          rw [hcases] at hprepare
          exact .inl ⟨_, hprepare, by simp⟩
        | ok cases =>
          have hname := isIdentifier_exportedName (exportedName_ne_nil_of_validate hchoice)
          rw [hcases] at hprepare
          exact .inr ⟨_, hprepare, hname, rfl, rfl⟩

theorem of_prepare (h : o.prepare search = .ok d) :
    isIdentifier d.name ∧ d.name = exportedName o.name ∧ d.package = o.package := by
  obtain ⟨e, hprepare, -⟩ | ⟨d', hprepare, hd⟩ := prepare_cases o search
  . rw [h] at hprepare
    contradiction
  . rw [h] at hprepare
    cases hprepare
    exact hd

theorem render_eq_ok_iff {text : Bytes} :
    o.render search = .ok text ↔ ∃ d, o.prepare search = .ok d ∧ d.sourceFile? = some text := by
  unfold render Declaration.render
  simp only [bind, Except.bind_eq_ok_iff, Except.mapError_eq_ok_iff]
  apply exists_congr
  intro d
  cases d.sourceFile? <;> simp

theorem exists_render {name : WrittenName} {heading : Heading} (h : o.prepare search = .ok d)
    (hname : WrittenName.read? (exportedName o.name) = some name) (hheading : Heading.read? o.package = some heading) :
    ∃ text, text ≠ [] ∧ d.sourceFile? = some text ∧ o.render search = .ok text := by
  obtain ⟨-, hexported, hsame⟩ := of_prepare h
  rw [← hexported] at hname
  rw [← hsame] at hheading
  have hsource := sourceFile?_eq hname hheading
  exact ⟨_, by simp [Declaration.constantLine, line], hsource, render_eq_ok_iff.mpr ⟨d, h, hsource⟩⟩

theorem exists_testFile {text : Bytes} (h : o.prepare search = .ok d) (hsource : d.sourceFile? = some text)
    (hpackage : isIdentifier o.package) : ∃ test, d.testFile? = some test := by
  obtain ⟨hname, -, hsame⟩ := of_prepare h
  rw [← hsame] at hpackage
  unfold Declaration.sourceFile? at hsource
  obtain ⟨name, hreadName, hsource⟩ := Option.bind_eq_some_iff.mp hsource
  obtain ⟨heading, hreadHeading, -⟩ := Option.bind_eq_some_iff.mp hsource
  refine ⟨d.testFile, ?_⟩
  unfold Declaration.testFile?
  rw [isDeclarable_of_readName hname hreadName, isDeclarable_of_readHeading hpackage hreadHeading]
  rfl

end Prepare

theorem trim_nil : Unicode.trim [] = [] := by
  rw [Unicode.trim]
  simp

theorem ofSetting_nil : Engine.Choice.ofSetting [] = .ok .auto := by
  rw [Engine.Choice.ofSetting, trim_nil, Unicode.lower, Utf8.decode, Utf8.units]
  rfl

theorem compile_letter : Unicode.trim "'a'" ≠ [] ∧ compile "'a'" = .ok "a" := by decide +kernel

theorem exists_prepare_of_validate {o : Options} (hsource : o.source = "'a'") (hchoice : o.validate = .ok .auto) :
    ∃ d, o.prepare = .ok d := by
  have hcompile : compile o.source = .ok "a" := by
    rw [hsource]
    exact compile_letter.2
  have hmake : Matcher.make "a" .auto = .ok ⟨"a", .automaton, .char 'a'⟩ := by cbv
  rw [prepare_eq hchoice hcompile hmake, casesOf_patient]
  exact ⟨_, rfl⟩

theorem prepare_letter {o : Options} (hsource : o.source = "'a'") (hname : exportedName o.name ≠ [])
    (hpackage : o.package ≠ []) (hengine : o.engine = []) : o.validate = .ok .auto ∧ ∃ d, o.prepare = .ok d := by
  have hblank : (Unicode.trim o.source).isEmpty = false := by
    rw [hsource]
    exact List.isEmpty_eq_false_iff.mpr compile_letter.1
  have hchoice : o.validate = .ok .auto := by
    unfold validate
    rw [hblank, List.isEmpty_eq_false_iff.mpr hname, List.isEmpty_eq_false_iff.mpr hpackage, hengine, ofSetting_nil]
    rfl
  exact ⟨hchoice, exists_prepare_of_validate hsource hchoice⟩

theorem exists_prepare_letter {o : Options} (hsource : o.source = "'a'") (hname : o.name = "mail")
    (hpackage : o.package ≠ []) (hengine : o.engine = []) : ∃ d, o.prepare = .ok d := by
  have hexported : exportedName o.name ≠ [] := by
    rw [hname]
    decide +kernel
  exact (prepare_letter hsource hexported hpackage hengine).2

theorem generate_cases (o : Options) (format : Bytes → Option Bytes) (search : Search) (t : FileTree) :
    (∃ e, (o.generate format search : StateM FileTree _) t = (.error e, t) ∧ (∀ w, e ≠ .code w) ∧
      (o.output = [] ∨ ∀ d, o.prepare search ≠ .ok d)) ∨
    ∃ d, o.prepare search = .ok d ∧ o.output ≠ [] ∧
      (o.generate format search : StateM FileTree _) t =
        let r := (d.write o.output o.wantsTest format : StateM FileTree _) t
        (r.1.mapError .code, r.2) := by
  unfold generate
  cases houtput : o.output with
  | nil => exact .inl ⟨.options .emptyOutput, rfl, by simp, .inl rfl⟩
  | cons b output =>
    obtain ⟨e, hprepare, he⟩ | ⟨d, hprepare, -⟩ := prepare_cases o search
    . rw [hprepare]
      exact .inl ⟨e, rfl, he, .inr (by simp)⟩
    . rw [hprepare]
      exact .inr ⟨d, rfl, by simp, rfl⟩

theorem validate_of_prepare {o : Options} {search : Search} {d : Declaration} (h : o.prepare search = .ok d) :
    d.validate = if isIdentifier o.package then .ok () else .error (.invalidPackage o.package) := by
  obtain ⟨hname, -, hpackage⟩ := of_prepare h
  unfold Declaration.validate
  rw [hname, hpackage]
  cases isIdentifier o.package <;> rfl

theorem render_eq_of_prepare {o : Options} {search : Search} {d : Declaration} (h : o.prepare search = .ok d)
    (text : Bytes) : o.render search = .ok text ↔ d.sourceFile? = some text := by
  simp [render_eq_ok_iff, h]

theorem wantsTest_iff (o : Options) : o.wantsTest = true ↔ o.testFile ∨ o.inputs ≠ [] := by
  unfold wantsTest
  simp

def mail (output : Bytes) (testFile : Bool) : Options where
  source := "'a'"
  name := "mail"
  package := "main"
  output := output
  testFile := testFile

theorem isDeclarable_main : isDeclarable "main" := isDeclarable_of_letters (c := 'm') (by decide) (by decide)

theorem read?_mail : WrittenName.read? (exportedName "mail") = some { identifier := "Mail" } := by
  have hexported : exportedName "mail" = "Mail" := by decide +kernel
  have hdeclarable : isDeclarable "Mail" := isDeclarable_of_letters (c := 'M') (by decide +kernel) (by decide)
  rw [hexported, WrittenName.read?_declarable hdeclarable]

def outFile : TreePath := ["tmp", "work", "out.go"]

def unreadable : FileTree := ({} : FileTree).insert outFile (.file [] { read := false })

/-- Where both files can be written, generation succeeds exactly if rendering does, the package is an identifier and the
files can be read again. The output file then holds what rendering gives. -/
theorem generate_eq_ok_iff {format : Bytes → Option Bytes} (hformat : LeavesFiles format) (search : Search)
    (o : Options) (t : FileTree) (houtput : o.output ≠ []) (hplace : t.Writable o.output)
    (hbeside : t.Writable (testFileName o.output)) :
    let after := (o.generate format search : StateM FileTree _) t
    (after.1 = .ok () ↔ (∃ text, o.render search = .ok text) ∧ isIdentifier o.package ∧ t.Readable o.output ∧
      (o.testFile ∨ o.inputs ≠ [] → t.Readable (testFileName o.output))) ∧
      ∀ text, after.1 = .ok () → o.render search = .ok text → after.2.read o.output = .ok text := by
  obtain ⟨e, hgenerate, -, hnone⟩ | ⟨d, hprepare, -, hgenerate⟩ := generate_cases o format search t
  . rw [hgenerate]
    refine ⟨iff_of_false (by simp) ?_, by simp⟩
    rintro ⟨⟨text, hrender⟩, -⟩
    obtain ⟨d, hprepare, -⟩ := render_eq_ok_iff.mp hrender
    obtain hnone | hnone := hnone
    . exact houtput hnone
    . exact hnone d hprepare
  . simp only [hgenerate, render_eq_of_prepare hprepare, ← wantsTest_iff]
    have hmap : ∀ r : Except WriteError Unit, r.mapError GenerationError.code = .ok () ↔ r = .ok () := by
      intro r
      cases r <;> simp [Except.mapError]
    rw [hmap]
    constructor
    . cases hpackage : isIdentifier o.package with
      | false =>
        have hinvalid : d.validate = .error (.invalidPackage o.package) := by
          rw [validate_of_prepare hprepare, hpackage]
          rfl
        rw [Declaration.write_of_invalid hinvalid]
        simp
      | true =>
        have hvalid : d.validate = .ok () := by
          rw [validate_of_prepare hprepare, hpackage]
          rfl
        rw [Declaration.write_eq_ok_iff hformat hplace hvalid houtput hbeside, Option.isSome_iff_exists]
        -- the test file is well formed whenever the source file is
        constructor
        . rintro ⟨⟨hsource, hread⟩, htest⟩
          exact ⟨hsource, rfl, hread, fun hwanted => (htest hwanted).2⟩
        . rintro ⟨⟨text, hsource⟩, -, hread, htest⟩
          refine ⟨⟨⟨text, hsource⟩, hread⟩, fun hwanted => ⟨?_, htest hwanted⟩⟩
          exact Option.isSome_iff_exists.2 (exists_testFile hprepare hsource hpackage)
    . intro text hok hsource
      have hleaves := Declaration.write_leaves format d o.output o.wantsTest t
      dsimp only at hleaves
      rw [hok] at hleaves
      obtain ⟨text', hsource', hkeeps⟩ := hleaves.keeps
      rw [hsource] at hsource'
      cases hsource'
      exact Declaration.read_of_keeps hformat hplace hsource hkeeps

def testedMail : Options := { mail "out.go" false with inputs := ["ab"] }

def replaceable : FileTree := (({} : FileTree).populate "out.go" "old").populate "notes" "kept"

theorem generate_eq_ok_iff_replaceable :
    let after := (testedMail.generate : StateM FileTree _) replaceable
    (LeavesFiles some ∧ testedMail.output ≠ [] ∧ replaceable.Writable testedMail.output ∧
      replaceable.Writable (testFileName testedMail.output)) ∧ after.1 = .ok () ∧
      ∃ text, testedMail.render = .ok text ∧ after.2.read testedMail.output = .ok text := by
  intro after
  have hout : replaceable.resolveNew testedMail.output = .ok outFile := rfl
  have htest : replaceable.resolveNew (testFileName testedMail.output) = .ok ["tmp", "work", "out_test.go"] :=
    rfl
  have hplace := FileTree.writable_iff.2 ⟨_, hout, by decide, rfl⟩
  have hbeside := FileTree.writable_iff.2 ⟨_, htest, by decide, rfl⟩
  have hread : replaceable.Readable testedMail.output :=
    (FileTree.readable_iff_access hout).2 (by decide)
  have hreadTest : replaceable.Readable (testFileName testedMail.output) :=
    (FileTree.readable_iff_access htest).2 (by decide)
  obtain ⟨d, hprepare⟩ := exists_prepare_letter (o := testedMail) rfl rfl (by decide) rfl
  obtain ⟨text, -, -, hrender⟩ := exists_render hprepare read?_mail (Heading.read?_declarable isDeclarable_main)
  have hagree := generate_eq_ok_iff leavesFiles_some .patient testedMail replaceable (by decide) hplace hbeside
  have hok : after.1 = .ok () :=
    hagree.1.mpr ⟨⟨text, hrender⟩, (Bool.and_eq_true_iff.mp isDeclarable_main).1, hread, fun _ => hreadTest⟩
  exact ⟨⟨leavesFiles_some, by decide, hplace, hbeside⟩, hok, text, hrender, hagree.2 text hok hrender⟩

def trailingBlank : Options := { mail "out.go" false with package := "p " }

theorem render_of_trailing_blank :
    (LeavesFiles some ∧ trailingBlank.output ≠ [] ∧ ({} : FileTree).Writable trailingBlank.output ∧
      ({} : FileTree).Writable (testFileName trailingBlank.output)) ∧ (∃ text, trailingBlank.render = .ok text) ∧
      ((trailingBlank.generate : StateM FileTree _) {}).1 = .error (.code (.invalidPackage "p ")) := by
  have hout : ({} : FileTree).resolveNew trailingBlank.output = .ok outFile := rfl
  have htest : ({} : FileTree).resolveNew (testFileName trailingBlank.output) = .ok ["tmp", "work", "out_test.go"] :=
    rfl
  have hpackage : isDeclarable "p" := isDeclarable_of_letters (c := 'p') (by decide) (by decide)
  obtain ⟨d, hprepare⟩ := exists_prepare_letter (o := trailingBlank) rfl rfl (by decide) rfl
  -- the line with the package is read as if the blank were not there
  have hheading : Heading.read? trailingBlank.package = Heading.read? "p" :=
    Heading.read?_blank (b := "p") (Bool.and_eq_true_iff.mp hpackage).1
  rw [Heading.read?_declarable hpackage] at hheading
  obtain ⟨text, -, -, hrender⟩ := exists_render hprepare read?_mail hheading
  refine ⟨⟨leavesFiles_some, by decide, FileTree.writable_iff.2 ⟨_, hout, by decide, rfl⟩,
    FileTree.writable_iff.2 ⟨_, htest, by decide, rfl⟩⟩, ⟨text, hrender⟩, ?_⟩
  have hblank : isIdentifier "p " = false := by
    have hdecode : Utf8.decode "p " = ['p', ' '] := by decide +kernel
    have hchar : isNameChar ' ' = false := isNameChar_eq_false (by decide)
    unfold isIdentifier
    rw [hdecode]
    simp [hchar]
  have hinvalid : d.validate = .error (.invalidPackage "p ") := by
    rw [validate_of_prepare hprepare]
    exact if_neg (Bool.not_eq_true _ ▸ hblank)
  obtain ⟨e, -, -, hnone | hnone⟩ | ⟨d', hprepare', -, hgenerate⟩ := generate_cases trailingBlank some .patient {}
  . contradiction
  . exact absurd hprepare (hnone d)
  . cases hprepare.symm.trans hprepare'
    rw [hgenerate, Declaration.write_of_invalid hinvalid]
    rfl

end Options

end VerboseExpr
