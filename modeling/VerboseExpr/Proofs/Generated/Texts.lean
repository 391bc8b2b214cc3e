import VerboseExpr.Proofs.Generated.Identifier
import VerboseExpr.Proofs.Generated.Scan

/-!
The texts that generated files embed. Only quotations in a file depend on them: the code around these is the same for
all texts. Main statement: a quotation is read back as the text it was made of, no text can end one early, and with
names that can be declared a scan of the files finds each text where it was put.
-/

namespace VerboseExpr.Generated

section Lines

theorem isCode_of_declarable {b : Bytes} (h : isDeclarable b) : ∀ x ∈ b, IsCode x := by
  intro x hx
  have hseparator := byte_not_mem_separators h hx
  refine ⟨?_, ?_, ?_, ?_, ?_⟩
  all_goals
    rintro rfl
    exact hseparator (by decide)

theorem isPlain_of_declarable {b : Bytes} (h : isDeclarable b) : ∀ x ∈ b, Quoted.IsPlain x := by
  intro x hx
  have hseparator := byte_not_mem_separators h hx
  refine ⟨?_, ?_, ?_⟩
  . rintro rfl
    exact hseparator (by decide)
  . rintro rfl
    exact hseparator (by decide)
  . rintro (rfl | rfl)
    . exact hseparator (by decide)
    . exact hseparator (by decide)

theorem spans_text {v w : Bytes} (hv : ∀ b ∈ v, IsCode b) (hw : ∀ b ∈ w, IsCode b) {s t : Bytes}
    (h : Quoted.Spells s t) :
    Spans (v ++ (0x22 :: (s ++ [0x22])) ++ w ++ [0x0A]) [⟨[(v, t)], w⟩] := by
  have hspans := Spans.closed (((Adds.code hv).append (Adds.literal h)).append (Adds.code hw))
  have hline : ((Line.prepend v ∘ Line.quote t) ∘ Line.prepend w) ⟨[], []⟩ = ⟨[(v, t)], w⟩ := by
    simp [Line.quote, Line.prepend]
  rwa [hline] at hspans

theorem spans_code {w : Bytes} (h : ∀ b ∈ w, IsCode b) : Spans (w ++ [0x0A]) [⟨[], w⟩] := by
  have hspans := Spans.closed (Adds.code h)
  rwa [Line.prepend_code, List.append_nil] at hspans

theorem spans_around {x : Bytes} (hx : ∀ b ∈ x, IsCode b) (before after : Bytes) (hbefore : ∀ b ∈ before, IsCode b)
    (hafter : ∀ b ∈ after, IsCode b) : Spans (line [before, x, after]) [⟨[], before ++ (x ++ after)⟩] := by
  have hcode : ∀ b ∈ before ++ (x ++ after), IsCode b :=
    List.forall_mem_append.mpr ⟨hbefore, List.forall_mem_append.mpr ⟨hx, hafter⟩⟩
  have hspans := spans_code hcode
  simpa [line] using hspans

theorem spans_fixed {w : Bytes} (h : ∀ b ∈ w, IsCode b) : Spans (line [w]) [⟨[], w⟩] := by
  have hspans := spans_code h
  simpa [line] using hspans

theorem spans_blank : Spans blank [⟨[], []⟩] := spans_code (by simp)

theorem spansAll_notice {P : Line → Prop} (h : P ⟨[], []⟩) : ∀ w ∈ notice, SpansAll P w := by
  have hcomment := Spans.comment (w := Bytes.ofString " Code generated by verbex. DO NOT EDIT.") (by decide)
  exact List.forall_mem_cons.mpr ⟨hcomment.all h, List.forall_mem_singleton.mpr (spans_blank.all h)⟩

variable {name : Bytes} (hname : ∀ b ∈ name, IsCode b)
include hname

theorem spans_remark (ending middle other tail : String) (hfirst : ∀ b ∈ Bytes.ofString (ending ++ middle), b ≠ 0x0A)
    (hsecond : ∀ b ∈ Bytes.ofString (other ++ tail), b ≠ 0x0A) :
    Spans (WrittenName.remark { identifier := name } ending middle other tail) [⟨[], []⟩] := by
  have hbreak : ∀ b ∈ name, b ≠ 0x0A := fun b hb => (hname b hb).1
  have hwords : ∀ b ∈ (0x20 :: name) ++ (Bytes.ofString (ending ++ middle) ++ (0x20 :: name ++
      Bytes.ofString (other ++ tail))), b ≠ 0x0A := by
    have hblank : ∀ b ∈ (0x20 :: name : Bytes), b ≠ 0x0A := List.forall_mem_cons.mpr ⟨by decide, hbreak⟩
    simp only [List.forall_mem_append]
    exact ⟨hblank, hfirst, hblank, hsecond⟩
  have hcomment := Spans.comment hwords
  have hmark : Bytes.ofString "// " = [0x2F, 0x2F, 0x20] := by decide
  unfold WrittenName.remark
  rw [hmark]
  simpa using hcomment

end Lines

theorem sourceFile?_eq {d : Declaration} {name : WrittenName} {heading : Heading}
    (hname : WrittenName.read? d.name = some name) (hheading : Heading.read? d.package = some heading) :
    d.sourceFile? = some (d.sourceHead name heading ++ Declaration.constantLine (name.declared "Source") d.source ++
      Declaration.sourceMiddle name ++ Declaration.constantLine (name.declared "Pattern") d.pattern ++
      d.sourceTail name) := by
  unfold Declaration.sourceFile?
  rw [hname, hheading]
  rfl

section Plain

variable (name : Bytes)

theorem declared_plain (ending : String) :
    WrittenName.declared { identifier := name } ending = name ++ Bytes.ofString ending := rfl

theorem bracketed_plain (ending : String) :
    WrittenName.bracketed { identifier := name } ending = name ++ Bytes.ofString ending := rfl

theorem continued_plain (indent : String) : WrittenName.continued { identifier := name } indent = 0x20 :: name := by
  have hempty : Bytes.ofString "" = [] := rfl
  simp [WrittenName.continued, declared_plain, hempty]

end Plain

section Source

theorem spans_constantLine {name : Bytes} (hname : ∀ b ∈ name, IsCode b) (text : Bytes) :
    Spans (Declaration.constantLine name text) [⟨[(constantCode name, text)], []⟩] := by
  have hcode : ∀ b ∈ constantCode name, IsCode b := by
    unfold constantCode
    simp only [List.forall_mem_append]
    exact ⟨⟨by decide, hname⟩, by decide⟩
  have hspans := spans_text hcode (w := []) (by simp) (Quoted.spells_body text)
  rw [← Quoted.encode_eq] at hspans
  simpa [Declaration.constantLine, constantCode, line] using hspans

theorem ne_of_head? {v w : Bytes} {a b : UInt8} (hv : v.head? = some a) (hw : w.head? = some b) (h : a ≠ b) :
    v ≠ w := by
  rintro rfl
  exact h (Option.some.inj (hv.symm.trans hw))

theorem layOut_declarable {package : Bytes} (h : isDeclarable package) (imported : Bytes) :
    Heading.layOut ⟨[], 0, package, [], []⟩ package imported =
      Bytes.ofString "package " ++ package ++ [0x0A] ++ ([0x0A] ++ (Bytes.ofString "import " ++ imported)) := by
  have hbreak : 0x0A ∉ package := fun hmem => byte_not_mem_separators h hmem (by decide)
  have hcount : List.count 0x0A package = 0 := List.count_eq_zero.mpr hbreak
  have hword : Bytes.ofString "package " = Bytes.ofString "package" ++ [0x20] := by decide
  unfold Heading.layOut
  rw [hcount, hword]
  simp [Heading.nameLead, Heading.commentsText, Heading.importsText, Heading.importLead, breaks]

theorem exists_spans_import (d : Declaration) :
    ∃ v t, Spans (Bytes.ofString "import " ++ d.imported ++ [0x0A]) [⟨[(v, t)], []⟩] ∧ v.head? = some 0x69 := by
  unfold Declaration.imported
  split
  . have hspans := spans_text (v := Bytes.ofString "import ") (w := []) (by decide) (by simp)
      (Quoted.Spells.plain (w := Bytes.ofString "regexp") (by decide))
    exact ⟨_, _, hspans, rfl⟩
  . have hspans := spans_text (v := Bytes.ofString "import regexp2 ") (w := []) (by decide) (by simp)
      (Quoted.Spells.plain (w := Bytes.ofString "github.com/dlclark/regexp2") (by decide))
    exact ⟨_, _, hspans, rfl⟩

variable {d : Declaration} (hname : ∀ b ∈ d.name, IsCode b)
include hname

theorem forall_isCode_append (ending : Bytes) (hending : ∀ b ∈ ending, IsCode b) : ∀ b ∈ d.name ++ ending, IsCode b :=
  List.forall_mem_append.mpr ⟨hname, hending⟩

theorem spansAll_sourceHead (hpackage : isDeclarable d.package) :
    SpansAll (fun l => ∀ name, l.held? (constantCode name) [] = none)
      (d.sourceHead { identifier := d.name } ⟨[], 0, d.package, [], []⟩) := by
  obtain ⟨v, t, himport, hv⟩ := exists_spans_import d
  have hclause := spans_code (w := Bytes.ofString "package " ++ d.package)
    (List.forall_mem_append.mpr ⟨by decide, isCode_of_declarable hpackage⟩)
  have hremark := spans_remark hname "Source" " is the verbose expression" "Pattern" " was compiled from."
    (by decide) (by decide)
  have hcode : ∀ name, v ≠ constantCode name := fun name => ne_of_head? hv (b := 0x63) rfl (by decide)
  have hheading : SpansAll (fun l => ∀ name, l.held? (constantCode name) [] = none)
      (line [Heading.layOut ⟨[], 0, d.package, [], []⟩ d.package d.imported]) := by
    refine ⟨_, by simpa [layOut_declarable hpackage, line, blank] using hclause.append (spans_blank.append himport), ?_⟩
    simp [hcode]
  have hnothing : ∀ name, Line.held? (constantCode name) [] ⟨[], []⟩ = none := fun _ => rfl
  unfold Declaration.sourceHead
  apply spansAll_flatten
  simp only [List.forall_mem_append, List.forall_mem_cons]
  exact ⟨spansAll_notice hnothing, hheading, spans_blank.all hnothing, hremark.all hnothing, by simp⟩

theorem spans_sourceMiddle : Spans (Declaration.sourceMiddle { identifier := d.name }) [⟨[], []⟩, ⟨[], []⟩] :=
  spans_blank.append (spans_remark hname "Pattern" " is the regular expression compiled from" "Source" "."
    (by decide) (by decide))

theorem legible_matchBody : ∀ w ∈ d.matchBody { identifier := d.name }, Legible w := by
  have hcontinued : ∀ b ∈ 0x20 :: d.name, IsCode b := List.forall_mem_cons.mpr ⟨by decide, hname⟩
  unfold Declaration.matchBody
  simp only [continued_plain]
  split
  . have hcall := spans_around hcontinued "\treturn" ".MatchString(input)" (by decide) (by decide)
    simpa using hcall.legible
  . have hcall := spans_around hcontinued "\tok, err :=" ".MatchString(input)" (by decide)
      (by decide)
    have hreturn := spans_fixed (w := "\treturn err == nil && ok") (by decide)
    simpa using ⟨hcall.legible, hreturn.legible⟩

theorem legible_findBody : ∀ w ∈ d.findBody { identifier := d.name }, Legible w := by
  have hcontinued : ∀ b ∈ 0x20 :: d.name, IsCode b := List.forall_mem_cons.mpr ⟨by decide, hname⟩
  have hnothing := spans_text (v := Bytes.ofString "\t\treturn ") (w := Bytes.ofString ", false") (by decide)
    (by decide) Quoted.Spells.nil
  have hclose := spans_fixed (w := "\t\x7d") (by decide)
  unfold Declaration.findBody
  simp only [continued_plain]
  split
  . have hcall := spans_around hcontinued "\tloc :=" ".FindStringIndex(input)" (by decide)
      (by decide)
    have hif := spans_fixed (w := "\tif loc == nil \x7b") (by decide)
    have hreturn := spans_fixed (w := "\treturn input[loc[0]:loc[1]], true") (by decide)
    simpa using ⟨hcall.legible, hif.legible, hnothing.legible, hclose.legible, hreturn.legible⟩
  . have hcall := spans_around hcontinued "\tm, err :=" ".FindStringMatch(input)" (by decide)
      (by decide)
    have hif := spans_fixed (w := "\tif err != nil || m == nil \x7b") (by decide)
    have hreturn := spans_fixed (w := "\treturn m.String(), true") (by decide)
    simpa using ⟨hcall.legible, hif.legible, hnothing.legible, hclose.legible, hreturn.legible⟩

theorem isCode_constructor : ∀ b ∈ d.constructor { identifier := d.name }, IsCode b := by
  unfold Declaration.constructor
  split
  all_goals
    simp only [bracketed_plain, List.forall_mem_append]
    exact ⟨⟨by decide, hname, by decide⟩, by decide⟩

theorem legible_varLine : Legible (line ["var ", WrittenName.declared { identifier := d.name } "", " = ",
    d.constructor { identifier := d.name }]) := by
  have hcode : ∀ b ∈ Bytes.ofString "var " ++ (d.name ++ Bytes.ofString "" ++ (Bytes.ofString " = " ++
      d.constructor { identifier := d.name })), IsCode b := by
    simp only [List.forall_mem_append]
    exact ⟨by decide, ⟨hname, by decide⟩, by decide, isCode_constructor hname⟩
  have hspans := spans_code hcode
  simpa [line, declared_plain] using hspans.legible

theorem legible_sourceTail : Legible (d.sourceTail { identifier := d.name }) := by
  have hmatch := spans_around (forall_isCode_append hname "MatchString" (by decide)) "func "
    "(input string) bool \x7b" (by decide) (by decide)
  have hfind := spans_around (forall_isCode_append hname "FindString" (by decide)) "func "
    "(input string) (string, bool) \x7b" (by decide) (by decide)
  have hclose := spans_fixed (w := "\x7d") (by decide)
  have hremark : ∀ ending middle other tail : String, (∀ b ∈ Bytes.ofString (ending ++ middle), b ≠ 0x0A) →
      (∀ b ∈ Bytes.ofString (other ++ tail), b ≠ 0x0A) →
      Legible (WrittenName.remark { identifier := d.name } ending middle other tail) :=
    fun ending middle other tail hfirst hsecond => (spans_remark hname ending middle other tail hfirst hsecond).legible
  unfold Declaration.sourceTail
  apply spansAll_flatten
  simp only [List.forall_mem_append, List.forall_mem_cons, declared_plain]
  refine ⟨⟨⟨⟨?_, ?_⟩, ?_⟩, ?_⟩, ?_⟩
  . exact ⟨spans_blank.legible, hremark _ _ _ _ (by decide) (by decide), legible_varLine hname, spans_blank.legible,
      hremark _ _ _ _ (by decide) (by decide), hmatch.legible, by simp⟩
  . exact legible_matchBody hname
  . exact ⟨hclose.legible, spans_blank.legible, hremark _ _ _ _ (by decide) (by decide), hfind.legible, by simp⟩
  . exact legible_findBody hname
  . exact ⟨hclose.legible, by simp⟩

end Source

theorem constants_of_sourceFile {d : Declaration} (hdeclarable : isDeclarable d.name)
    (hpackage : isDeclarable d.package) :
    ∃ file ls, d.sourceFile? = some file ∧ lines? false file = some ls ∧
      constant? (sourceName d.name) ls = some d.source ∧ constant? (patternName d.name) ls = some d.pattern := by
  have hname := isCode_of_declarable hdeclarable
  have hfile := sourceFile?_eq (WrittenName.read?_declarable hdeclarable) (Heading.read?_declarable hpackage)
  obtain ⟨head, hhead, hnone⟩ := spansAll_sourceHead hname hpackage
  obtain ⟨tail, htail, -⟩ := legible_sourceTail hname
  have hsource : Spans _ [⟨[(constantCode (sourceName d.name), d.source)], []⟩] :=
    spans_constantLine (forall_isCode_append hname _ (by decide)) d.source
  have hpattern : Spans _ [⟨[(constantCode (patternName d.name), d.pattern)], []⟩] :=
    spans_constantLine (forall_isCode_append hname _ (by decide)) d.pattern
  have hspans := (((hhead.append hsource).append (spans_sourceMiddle hname)).append hpattern).append htail
  have hother : constantCode (sourceName d.name) ≠ constantCode (patternName d.name) := by
    simp only [constantCode, sourceName, patternName, List.append_assoc, ne_eq, List.append_cancel_left_eq]
    decide
  have hskip : ∀ name, head.findSome? (Line.held? (constantCode name) []) = none := by
    intro name
    rw [List.findSome?_eq_none_iff]
    exact fun l hl => hnone l hl name
  refine ⟨_, _, hfile, hspans.lines?_eq, ?_, ?_⟩
  . simp [constant?, hskip]
  . simp [constant?, hskip, hother, List.findSome?_cons]

section Test

def flagCode (found : Bool) : Bytes := Bytes.ofString ", " ++ (Bytes.ofBool found ++ Bytes.ofString ", ")

theorem isCode_flagCode (found : Bool) : ∀ b ∈ flagCode found, IsCode b := by
  cases found <;> decide

theorem rows?_cons (opening : Bytes) (c : Case) (more : List (Bytes × Bytes)) :
    Line.rows? opening ((opening, c.input) :: (flagCode c.found, c.text) :: more) =
      (Line.rows? "\x7d, \x7b" more).map (c :: ·) := by
  have htrue : flagCode true = Bytes.ofString ", true, " := by decide
  have hfalse : flagCode false = Bytes.ofString ", false, " := by decide
  have hother : Bytes.ofString ", false, " ≠ Bytes.ofString ", true, " := by decide
  obtain ⟨input, found, text⟩ := c
  cases found
  all_goals
    rw [Line.rows?]
    simp only [htrue, hfalse, hother, ne_eq, not_true_eq_false, if_false, if_true]
    cases Line.rows? "\x7d, \x7b" more <;> rfl

theorem adds_row (c : Case) : Adds (Declaration.row c) fun l =>
    ⟨(Bytes.ofString "\x7b", c.input) :: (flagCode c.found, c.text) :: (l.prepend "\x7d").texts,
      (l.prepend "\x7d").code⟩ := by
  have hopen : Adds "\x7b" _ := Adds.code (by decide)
  have hclose : Adds "\x7d" _ := Adds.code (by decide)
  have hadds := hopen.append ((Adds.text c.input).append ((Adds.code (isCode_flagCode c.found)).append
    ((Adds.text c.text).append hclose)))
  have hrow : Declaration.row c = Bytes.ofString "\x7b" ++ (Quoted.encode c.input ++ (flagCode c.found ++
      (Quoted.encode c.text ++ Bytes.ofString "\x7d"))) := by
    simp [Declaration.row, flagCode]
  rw [hrow]
  intro k
  rw [hadds]
  congr 2
  funext l
  simp [Line.quote, Line.prepend]

theorem exists_adds_rows (c : Case) (cs : List Case) :
    ∃ f more, Adds (Bytes.join (Bytes.ofString ", ") ((c :: cs).map Declaration.row) ++ Bytes.ofString "\x7d") f ∧
      f ⟨[], []⟩ = ⟨(Bytes.ofString "\x7b", c.input) :: (flagCode c.found, c.text) :: more, Bytes.ofString "\x7d\x7d"⟩ ∧
      Line.rows? "\x7d, \x7b" more = some cs := by
  have hclose : Adds "\x7d" _ := Adds.code (by decide)
  have hclosing : Bytes.ofString "\x7d" ++ Bytes.ofString "\x7d" = Bytes.ofString "\x7d\x7d" := by decide
  -- a row closes with a brace, which is one piece of code with the comma and the brace that opens the next one
  induction cs generalizing c with
  | nil =>
    refine ⟨_, [], (adds_row c).append hclose, ?_, rfl⟩
    simp [hclosing]
  | cons c' cs ih =>
    obtain ⟨f, more, hadds, hf, hmore⟩ := ih c'
    have hcomma : Adds (Bytes.ofString ", ") _ := Adds.code (by decide)
    have hopening : Bytes.ofString "\x7d" ++ (Bytes.ofString ", " ++ Bytes.ofString "\x7b") =
        Bytes.ofString "\x7d, \x7b" := by
      decide
    have hjoin : Bytes.join (Bytes.ofString ", ") ((c :: c' :: cs).map Declaration.row) ++ Bytes.ofString "\x7d" =
        Declaration.row c ++ (Bytes.ofString ", " ++
          (Bytes.join (Bytes.ofString ", ") ((c' :: cs).map Declaration.row) ++ Bytes.ofString "\x7d")) := by
      simp [Bytes.join]
    rw [hjoin]
    refine ⟨_, (Bytes.ofString "\x7d, \x7b", c'.input) :: (flagCode c'.found, c'.text) :: more,
      (adds_row c).append (hcomma.append hadds), ?_, ?_⟩
    . simp [hf, Line.prepend, hopening]
    . rw [rows?_cons, hmore]
      rfl

/-- Does the line call no function with a text alone? -/
def CallsNothing (l : Line) : Prop := ∀ function, l.held? (callCode function) (Bytes.ofString ")") = none

theorem callsNothing_code (w : Bytes) : CallsNothing ⟨[], w⟩ := fun _ => rfl

theorem callsNothing_text {v w t : Bytes} (h : w ≠ Bytes.ofString ")") : CallsNothing ⟨[(v, t)], w⟩ := by
  intro function
  simp [h]

theorem table?_code {w : Bytes} (h : w ≠ Bytes.ofString "\t\x7d\x7b\x7d") : Line.table? ⟨[], w⟩ = none := by
  unfold Line.table?
  exact if_neg h

theorem exists_spans_tableLine (cases : List Case) :
    ∃ l, Spans (Declaration.tableLine cases) [l] ∧ l.table? = some cases ∧ CallsNothing l := by
  unfold Declaration.tableLine
  cases cases with
  | nil =>
    have hspans := spans_fixed (w := "\t\x7d\x7b\x7d") (by decide)
    exact ⟨_, hspans, rfl, fun _ => rfl⟩
  | cons c cs =>
    obtain ⟨f, more, hadds, hf, hmore⟩ := exists_adds_rows c cs
    have hopen : Adds (Bytes.ofString "\t\x7d\x7b") _ := Adds.code (by decide)
    have hspans := Spans.closed (hopen.append hadds)
    have hopening : Bytes.ofString "\t\x7d\x7b" ++ Bytes.ofString "\x7b" = Bytes.ofString "\t\x7d\x7b\x7b" := by decide
    rw [Function.comp_apply, hf, Line.prepend, hopening] at hspans
    refine ⟨_, by simpa [line] using hspans, ?_, fun _ => rfl⟩
    unfold Line.table?
    simp only [List.isEmpty_cons, Bool.false_eq_true, if_false, if_true]
    rw [rows?_cons, hmore]
    rfl

theorem spansAll_report (format arguments : Bytes) {function after : Bytes}
    (hfunction : ∀ b ∈ function, Quoted.IsPlain b) (hformat : ∀ b ∈ format, Quoted.IsPlain b)
    (harguments : ∀ b ∈ arguments, IsCode b)
    (hafter : after = format ++ 0x22 :: arguments) (hne : arguments ≠ Bytes.ofString ")") :
    SpansAll CallsNothing (line ["\t\t\tt.Errorf(\"", function, after]) := by
  have hspells := Quoted.Spells.plain (List.forall_mem_append.mpr ⟨hfunction, hformat⟩)
  have hspans := spans_text (v := Bytes.ofString "\t\t\tt.Errorf(") (by decide) harguments hspells
  have hbefore : Bytes.ofString "\t\t\tt.Errorf(\"" = Bytes.ofString "\t\t\tt.Errorf(" ++ [0x22] := by decide
  rw [hafter, hbefore]
  simpa [line] using hspans.all (callsNothing_text hne)

variable {d : Declaration} (hname : ∀ b ∈ d.name, IsCode b)
include hname

theorem spansAll_testHead (hpackage : ∀ b ∈ d.package, IsCode b) :
    SpansAll (fun l => l.table? = none ∧ CallsNothing l) d.testHead := by
  have hmatcher : ∀ b ∈ matchName d.name, IsCode b := forall_isCode_append hname _ (by decide)
  have hclause := spans_code (w := Bytes.ofString "package " ++ d.package)
    (List.forall_mem_append.mpr ⟨by decide, hpackage⟩)
  have himport := spans_text (v := Bytes.ofString "import ") (w := []) (by decide) (by simp)
      (Quoted.Spells.plain (w := Bytes.ofString "testing") (by decide))
  have hfunc := spans_around hmatcher "func Test" "(t *testing.T) \x7b" (by decide) (by decide)
  have htests := spans_fixed (w := "\ttests := []struct \x7b") (by decide)
  have hinput := spans_fixed (w := "\t\tinput string") (by decide)
  have hwant := spans_fixed (w := "\t\twant  bool") (by decide)
  have htext := spans_fixed (w := "\t\ttext  string") (by decide)
  -- a line of the head is taken for the table only if it is all code and closes an empty one
  have hplain : ∀ w : Bytes, w ≠ Bytes.ofString "\t\x7d\x7b\x7d" → Line.table? ⟨[], w⟩ = none ∧ CallsNothing ⟨[], w⟩ :=
    fun w hw => ⟨table?_code hw, callsNothing_code w⟩
  have hblank : Line.table? ⟨[], []⟩ = none ∧ CallsNothing ⟨[], []⟩ := hplain [] (by decide)
  have hclausePlain := hplain (Bytes.ofString "package " ++ d.package)
    (ne_of_head? (a := 0x70) (b := 0x09) rfl rfl (by decide))
  have hfuncPlain := hplain (Bytes.ofString "func Test" ++ (matchName d.name ++ Bytes.ofString "(t *testing.T) \x7b"))
    (ne_of_head? (a := 0x66) (b := 0x09) rfl rfl (by decide))
  unfold Declaration.testHead
  apply spansAll_flatten
  simp only [List.forall_mem_append, List.forall_mem_cons]
  refine ⟨spansAll_notice hblank, ?_, spans_blank.all hblank, ?_, spans_blank.all hblank, hfunc.all hfuncPlain,
    htests.all (hplain _ (by decide)), hinput.all (hplain _ (by decide)), hwant.all (hplain _ (by decide)),
    htext.all (hplain _ (by decide)), by simp⟩
  . simpa [line] using hclause.all hclausePlain
  . exact himport.all ⟨rfl, callsNothing_text (by decide)⟩

theorem spansAll_testMiddle (hplain : ∀ b ∈ d.name, Quoted.IsPlain b) : SpansAll CallsNothing d.testMiddle := by
  have hmatcher : ∀ b ∈ matchName d.name, IsCode b := forall_isCode_append hname _ (by decide)
  have hfind : ∀ b ∈ findName d.name, IsCode b := forall_isCode_append hname _ (by decide)
  have hfor := spans_fixed (w := "\tfor _, tt := range tests \x7b") (by decide)
  have hmatch := spans_around hmatcher "\t\tif got := " "(tt.input); got != tt.want \x7b" (by decide)
    (by decide)
  have hfound := spans_around hfind "\t\tif got, _ := " "(tt.input); got != tt.text \x7b"
    (by decide) (by decide)
  have hendIf := spans_fixed (w := "\t\t\x7d") (by decide)
  have hendFor := spans_fixed (w := "\t\x7d") (by decide)
  have hend := spans_fixed (w := "\x7d") (by decide)
  have hfunc := spans_around hmatcher "func Benchmark" "(b *testing.B) \x7b" (by decide) (by decide)
  have hloop := spans_fixed (w := "\tfor i := 0; i < b.N; i++ \x7b") (by decide)
  unfold Declaration.testMiddle
  apply spansAll_flatten
  simp only [List.forall_mem_cons]
  refine ⟨spans_blank.all (callsNothing_code _), hfor.all (callsNothing_code _), hmatch.all (callsNothing_code _), ?_,
    hendIf.all (callsNothing_code _), hfound.all (callsNothing_code _), ?_, hendIf.all (callsNothing_code _),
    hendFor.all (callsNothing_code _), hend.all (callsNothing_code _), spans_blank.all (callsNothing_code _),
    hfunc.all (callsNothing_code _), hloop.all (callsNothing_code _), by simp⟩
  . exact spansAll_report "(%q) = %v, want %v" ", tt.input, got, tt.want)"
      (List.forall_mem_append.mpr ⟨hplain, by decide⟩) (by decide) (by decide) (by decide) (by decide)
  . exact spansAll_report "(%q) = %q, want %q" ", tt.input, got, tt.text)"
      (List.forall_mem_append.mpr ⟨hplain, by decide⟩) (by decide) (by decide) (by decide) (by decide)

theorem spans_callLine (input : Bytes) :
    Spans (d.callLine input) [⟨[(callCode (matchName d.name), input)], Bytes.ofString ")"⟩] := by
  have hcode : ∀ b ∈ callCode (matchName d.name), IsCode b := by
    unfold callCode
    simp only [List.forall_mem_append]
    exact ⟨⟨by decide, forall_isCode_append hname _ (by decide)⟩, by decide⟩
  have hspans := spans_text hcode (w := Bytes.ofString ")") (by decide) (Quoted.spells_body input)
  rw [← Quoted.encode_eq] at hspans
  simpa [Declaration.callLine, callCode, line] using hspans

end Test

theorem cases_of_testFile {d : Declaration} (hdeclarable : isDeclarable d.name) (hpackage : isDeclarable d.package) :
    ∃ file ls, d.testFile? = some file ∧ lines? false file = some ls ∧ table? ls = some d.cases ∧
      argument? (matchName d.name) ls = some (Declaration.benchmarkInput d.cases) := by
  have hname := isCode_of_declarable hdeclarable
  have hfile : d.testFile? = some d.testFile := by
    unfold Declaration.testFile?
    rw [hdeclarable, hpackage]
    rfl
  obtain ⟨head, hhead, hquiet⟩ := spansAll_testHead hname (isCode_of_declarable hpackage)
  obtain ⟨l, htable, hcases, hcalls⟩ := exists_spans_tableLine d.cases
  obtain ⟨middle, hmiddle, hnothing⟩ := spansAll_testMiddle hname (isPlain_of_declarable hdeclarable)
  have hcall := spans_callLine hname (Declaration.benchmarkInput d.cases)
  have htail : Spans Declaration.testTail _ := (spans_fixed (by decide)).append (spans_fixed (by decide))
  have hspans := (((hhead.append htable).append hmiddle).append hcall).append htail
  refine ⟨_, _, hfile, hspans.lines?_eq, ?_, ?_⟩
  . have hskip : head.findSome? Line.table? = none := by
      rw [List.findSome?_eq_none_iff]
      exact fun l hl => (hquiet l hl).1
    simp [table?, hskip, hcases]
  . -- neither the lines before the table, nor the table itself, nor those behind it hold the call
    have hskip : head.findSome? (Line.held? (callCode (matchName d.name)) (Bytes.ofString ")")) = none := by
      rw [List.findSome?_eq_none_iff]
      exact fun l hl => (hquiet l hl).2 _
    have hskipMiddle : middle.findSome? (Line.held? (callCode (matchName d.name)) (Bytes.ofString ")")) = none := by
      rw [List.findSome?_eq_none_iff]
      exact fun l hl => hnothing l hl _
    have hskipTable := hcalls (matchName d.name)
    simp [argument?, hskip, hskipMiddle, hskipTable]

/-- Texts survive in generated files, whatever their bytes. A quotation is read back as the text it was made of, up to
its closing quote, and holds no other quote and no line break. Around the quotations a file is the same for all texts.
Where names can be declared, the files exist, and a scan finds the expression, the pattern, the cases and the input of
the benchmark in them. -/
theorem embedded_texts_read_back (d : Declaration) :
    (∀ t, ∃ body, Quoted.encode t = 0x22 :: (body ++ [0x22]) ∧ Quoted.Enclosed body ∧
      ∀ k, Quoted.decode? (Quoted.encode t ++ k) = some (t, k)) ∧
    (d.sourceFile?.isSome → ∃ name head middle tail, WrittenName.read? d.name = some name ∧
      ∀ source pattern cases, { d with source, pattern, cases }.sourceFile? =
        some (head ++ (constantCode (name.declared "Source") ++ Quoted.encode source) ++ middle ++
          (constantCode (name.declared "Pattern") ++ Quoted.encode pattern) ++ tail)) ∧
    (∃ head middle tail, ∀ source pattern cases, { d with source, pattern, cases }.testFile =
      head ++ Bytes.join (Bytes.ofString ", ") (cases.map Declaration.row) ++ middle ++
        Quoted.encode (Declaration.benchmarkInput cases) ++ tail) ∧
    (isDeclarable d.name → isDeclarable d.package →
      (∃ file ls, d.sourceFile? = some file ∧ lines? false file = some ls ∧
        constant? (sourceName d.name) ls = some d.source ∧ constant? (patternName d.name) ls = some d.pattern) ∧
      ∃ file ls, d.testFile? = some file ∧ lines? false file = some ls ∧ table? ls = some d.cases ∧
        argument? (matchName d.name) ls = some (Declaration.benchmarkInput d.cases)) := by
  refine ⟨?_, ?_, ?_, ?_⟩
  . intro t
    exact ⟨Quoted.body t, Quoted.encode_eq t, Quoted.enclosed_body t, Quoted.decode?_encode_append t⟩
  . -- the three texts stand at fixed places, and the rest of the file is made of the names alone
    intro hsome
    obtain ⟨file, hfile⟩ := Option.isSome_iff_exists.mp hsome
    unfold Declaration.sourceFile? at hfile
    obtain ⟨name, hname, hfile⟩ := Option.bind_eq_some_iff.mp hfile
    obtain ⟨heading, hheading, -⟩ := Option.bind_eq_some_iff.mp hfile
    refine ⟨name, d.sourceHead name heading, 0x0A :: Declaration.sourceMiddle name, 0x0A :: d.sourceTail name,
      hname, ?_⟩
    intro source pattern cases
    have hfile := sourceFile?_eq (d := { d with source, pattern, cases }) hname hheading
    rw [hfile]
    simp [Declaration.constantLine, constantCode, line, Declaration.sourceHead, Declaration.sourceTail,
      Declaration.imported, Declaration.constructor, Declaration.matchBody, Declaration.findBody]
  . refine ⟨d.testHead ++ Bytes.ofString "\t\x7d\x7b", Bytes.ofString "\x7d" ++ 0x0A :: d.testMiddle ++
      callCode (matchName d.name), Bytes.ofString ")" ++ 0x0A :: Declaration.testTail, ?_⟩
    intro source pattern cases
    simp [Declaration.testFile, Declaration.tableLine, Declaration.callLine, callCode, line, Declaration.testHead,
      Declaration.testMiddle]
  . exact fun hname hpackage => ⟨constants_of_sourceFile hname hpackage, cases_of_testFile hname hpackage⟩

def hostile : Declaration :=
  ⟨[0x22, 0x0A, 0x5C, 0x22, 0xFF], Bytes.ofString "\"\nconst MailPattern = \"", Bytes.ofString "Mail",
    Bytes.ofString "mail", .automaton,
    [⟨[0xC3, 0x28, 0x5C], true, Bytes.ofString "\"\x7d, \x7b\""⟩, ⟨[], false, [0x0D]⟩]⟩

theorem embedded_texts_read_back_hostile :
    isDeclarable hostile.name ∧ isDeclarable hostile.package ∧
      (∃ file ls, hostile.sourceFile? = some file ∧ lines? false file = some ls ∧
        constant? (sourceName hostile.name) ls = some hostile.source ∧
        constant? (patternName hostile.name) ls = some hostile.pattern) ∧
      ∃ file ls, hostile.testFile? = some file ∧ lines? false file = some ls ∧ table? ls = some hostile.cases ∧
        argument? (matchName hostile.name) ls = some [0xC3, 0x28, 0x5C] := by
  have hname : isDeclarable hostile.name := isDeclarable_of_letters (c := 'M') (by decide +kernel) (by decide)
  have hpackage : isDeclarable hostile.package := isDeclarable_of_letters (c := 'm') (by decide +kernel) (by decide)
  exact ⟨hname, hpackage, (embedded_texts_read_back hostile).2.2.2 hname hpackage⟩

end VerboseExpr.Generated
