import VerboseExpr.Generated.Writing
import VerboseExpr.Proofs.File.Tree
import VerboseExpr.Proofs.Generated.Identifier

namespace VerboseExpr.Generated

section TestFileName

theorem endsWith_append_slash {affix : Bytes} (h : 0x2F ∉ affix) (xs n : Bytes) :
    (xs ++ 0x2F :: n).endsWith affix = n.endsWith affix := by
  unfold Bytes.endsWith
  rw [Bool.eq_iff_iff, List.isSuffixOf_iff_suffix, List.isSuffixOf_iff_suffix]
  constructor
  . intro hends
    have hlast : 0x2F :: n <:+ xs ++ 0x2F :: n := List.suffix_append xs _
    obtain hlong | hshort := Nat.lt_or_ge n.length affix.length
    . have hmem : 0x2F ∈ affix := (List.suffix_of_suffix_length_le hlast hends hlong).subset List.mem_cons_self
      contradiction
    . exact List.suffix_of_suffix_length_le hends ((List.suffix_cons _ n).trans hlast) hshort
  . exact fun hends => hends.trans ((List.suffix_cons _ n).trans (List.suffix_append xs _))

theorem dropSuffix_append_slash {affix : Bytes} (h : 0x2F ∉ affix) (xs n : Bytes) :
    (xs ++ 0x2F :: n).dropSuffix affix = xs ++ 0x2F :: n.dropSuffix affix := by
  unfold Bytes.dropSuffix
  rw [endsWith_append_slash h]
  split
  . next hends =>
    have hle : affix.length ≤ n.length := (List.isSuffixOf_iff_suffix.mp hends).length_le
    have hlength : (xs ++ 0x2F :: n).length - affix.length = xs.length + (n.length - affix.length + 1) := by
      rw [List.length_append, List.length_cons]
      omega
    rw [hlength, List.take_length_add_append, List.take_succ_cons]
  . rfl

theorem testFileName_append_slash (xs n : Bytes) : testFileName (xs ++ 0x2F :: n) = xs ++ 0x2F :: testFileName n := by
  unfold testFileName
  rw [dropSuffix_append_slash (by decide)]
  simp

theorem length_lt_testFileName (n : Bytes) : n.length + 5 ≤ (testFileName n).length := by
  have hgo : (Bytes.ofString ".go").length = 3 := by decide
  have htest : (Bytes.ofString "_test.go").length = 8 := by decide
  unfold testFileName Bytes.dropSuffix
  rw [List.length_append, htest]
  split
  . rw [List.length_take, hgo]
    omega
  . omega

theorem not_mem_testFileName {n : Bytes} (h : 0x2F ∉ n) : 0x2F ∉ testFileName n := by
  unfold testFileName Bytes.dropSuffix
  rw [List.mem_append]
  rintro (hmem | hmem)
  . split at hmem
    . exact h (List.mem_of_mem_take hmem)
    . exact h hmem
  . revert hmem
    decide

theorem exists_last_name (path : Bytes) : 0x2F ∉ path ∨ ∃ xs n, path = xs ++ 0x2F :: n ∧ 0x2F ∉ n := by
  induction path with
  | nil => simp
  | cons b path ih =>
    obtain hnone | ⟨xs, n, rfl, hn⟩ := ih
    . by_cases hb : b = 0x2F
      . exact Or.inr ⟨[], path, by rw [hb, List.nil_append], hnone⟩
      . exact Or.inl (by simpa using ⟨Ne.symm hb, hnone⟩)
    . exact Or.inr ⟨b :: xs, n, rfl, hn⟩

theorem names_of_not_mem {n : Bytes} (h : 0x2F ∉ n) : FileTree.names n = [n] := by
  apply List.splitOnP_eq_singleton
  intro b hb
  simpa using fun heq : b = 0x2F => h (heq ▸ hb)

theorem names_append_slash (xs : Bytes) {n : Bytes} (h : 0x2F ∉ n) :
    FileTree.names (xs ++ 0x2F :: n) = FileTree.names xs ++ [n] := by
  rw [← names_of_not_mem h]
  exact List.splitOnP_append_cons xs n rfl

theorem exists_names_testFileName (t : FileTree) (output : Bytes) :
    ∃ ns n, FileTree.names output = ns ++ [n] ∧ FileTree.names (testFileName output) = ns ++ [testFileName n] ∧
      t.origin (testFileName output) = t.origin output ∧ 0x2F ∉ n := by
  obtain hnone | ⟨xs, n, rfl, hn⟩ := exists_last_name output
  . have hhead : ∀ {w : Bytes}, 0x2F ∉ w → t.origin w = t.workingDirectory := by
      intro w hw
      unfold FileTree.origin
      rw [if_neg]
      intro h
      exact hw (List.mem_of_mem_head? (beq_iff_eq.mp h))
    have htest := not_mem_testFileName hnone
    exact ⟨[], output, names_of_not_mem hnone, names_of_not_mem htest, by rw [hhead hnone, hhead htest], hnone⟩
  . refine ⟨FileTree.names xs, n, names_append_slash xs hn, ?_, ?_, hn⟩
    . rw [testFileName_append_slash, names_append_slash xs (not_mem_testFileName hn)]
    . rw [testFileName_append_slash]
      cases xs <;> rfl

theorem ne_of_resolve_testFileName {t : FileTree} {output : Bytes} {p q : TreePath}
    (hp : t.resolve output = .ok p) (hq : t.resolve (testFileName output) = .ok q) : q ≠ p := by
  have hfollow : ∀ {path r}, t.resolve path = .ok r → t.follow (t.origin path) (FileTree.names path) = .ok r := by
    intro path r h
    obtain ⟨u, -, hfollow⟩ := Except.bind_eq_ok_iff.1 h
    exact hfollow
  obtain ⟨ns, n, hnames, htest, horigin, hn⟩ := exists_names_testFileName t output
  have hlength := length_lt_testFileName n
  have hp := hfollow hp
  have hq := hfollow hq
  rw [hnames, FileTree.follow_append] at hp
  rw [htest, horigin, FileTree.follow_append] at hq
  cases hdir : t.follow (t.origin output) ns with
  | error r =>
    rw [hdir] at hp
    contradiction
  | ok d =>
    rw [hdir] at hp hq
    obtain ⟨a, hstep⟩ := FileTree.follow_singleton hp
    obtain ⟨b, hstep'⟩ := FileTree.follow_singleton hq
    -- the place of the output file is no longer than the directory, or ends in a shorter name
    rw [FileTree.of_step_of_length hstep' (by omega)]
    rintro rfl
    obtain hp | hp | hp := FileTree.of_step hstep
    . simpa using congrArg List.length hp
    . have hlong := congrArg List.length hp
      rw [List.length_append, List.length_dropLast, List.length_singleton] at hlong
      omega
    . have hname := congrArg List.length (List.head_eq_of_cons_eq (List.append_cancel_left hp))
      omega

end TestFileName

/-- Does a formatter leave generated files as they are? -/
def LeavesFiles (format : Bytes → Option Bytes) : Prop :=
  ∀ (d : Declaration) (text : Bytes), d.sourceFile? = some text ∨ d.testFile? = some text → format text = some text

theorem leavesFiles_some : LeavesFiles some := fun _ _ _ => rfl

/-- The generated file that an error arose at, if it arose when one was saved or laid out. -/
inductive Part where
  | source
  | test

def WriteError.part? : WriteError → Option Part
  | save _ | format _ => some .source
  | saveTest _ | formatTest _ => some .test
  | _ => none

/-- The file at a place holds the beginning of a text. -/
def HoldsBeginning (t : FileTree) (p : TreePath) (text : Bytes) : Prop :=
  ∃ data access, t.find? p = some (.file data access) ∧ data <+: text

/-- What was saved under a path is laid out there, unless it is the null device. -/
def Keeps (format : Bytes → Option Bytes) (t after : FileTree) (path text : Bytes) : Prop :=
  (∃ p, t.resolve path = .ok p ∧ t.find? p = some .null) ∨ ∃ laid, format text = some laid ∧ after.read path = .ok laid

namespace Declaration

section Put

/-- What saving a text and laying it out comes to, however far it gets. -/
structure Puts (format : Bytes → Option Bytes) (path : Bytes) (text? : Option Bytes)
    (ofSave ofFormat : SaveError → WriteError) (t : FileTree) (r : Except WriteError Unit) (after : FileTree) : Prop
    extends FileTree.Touches path t after where
  isOf : ∀ e, r = .error e → ∃ s, e = ofSave s ∨ e = ofFormat s
  begins : ∀ p, after.find? p ≠ t.find? p →
    ∃ text whole, text? = some text ∧ (whole = text ∨ format text = some whole) ∧ HoldsBeginning after p whole
  keeps : r = .ok () → ∃ text, text? = some text ∧ Keeps format t after path text
  exists_place : r = .ok () → after.stat path = .ok ()

variable {format : Bytes → Option Bytes} {ofSave ofFormat : SaveError → WriteError} {t after : FileTree}
  {path text laid : Bytes} {p : TreePath}

theorem put_malformed (t : FileTree) :
    (put format path none ofSave ofFormat : StateM FileTree _) t = (.error (ofSave .malformed), t) := rfl

theorem put_of_save_error {e : FileError} (h : t.store path text = (.error e, after)) :
    (put format path (some text) ofSave ofFormat : StateM FileTree _) t = (.error (ofSave (.file e)), after) := by
  simp only [put, save, bind, StateT.bind, pure, StateT.pure, FileSystem.writeFile, h]
  rfl

theorem put_of_save (h : t.store path text = (.ok (), after)) :
    (put format path (some text) ofSave ofFormat : StateM FileTree _) t =
      let r := (reformat format path : StateM FileTree _) after
      (r.1.mapError ofFormat, r.2) := by
  simp only [put, save, bind, StateT.bind, pure, StateT.pure, FileSystem.writeFile, h]
  rfl

theorem reformat_of_read_error {e : FileError} (h : t.read path = .error e) :
    (reformat format path : StateM FileTree _) t = (.error (.file e), t) := by
  simp only [reformat, bind, StateT.bind, FileSystem.readFile, h]
  rfl

theorem reformat_malformed (h : t.read path = .ok text) (hformat : format text = none) :
    (reformat format path : StateM FileTree _) t = (.error .malformed, t) := by
  simp only [reformat, bind, StateT.bind, FileSystem.readFile, h, hformat]
  rfl

theorem reformat_of_read (h : t.read path = .ok text) (hformat : format text = some laid) :
    (reformat format path : StateM FileTree _) t =
      ((t.store path laid).1.mapError .file, (t.store path laid).2) := by
  simp only [reformat, bind, StateT.bind, FileSystem.readFile, h, hformat]
  rfl

section Touched

variable (htouches : FileTree.Touches path t after) (hplace : t.resolve path = .ok p)
include htouches hplace

theorem begins_of_touches {whole : Bytes} (hbegins : HoldsBeginning after p whole) :
    ∀ q, after.find? q ≠ t.find? q → HoldsBeginning after q whole := by
  intro q hq
  rwa [← Except.ok.inj (hplace.symm.trans (htouches.resolve_of_ne hq))]

theorem stat_of_touches {e : FileEntry} (hentry : after.find? p = some e) : after.stat path = .ok () := by
  unfold FileTree.stat
  rw [htouches.resolve_of_resolve hplace]
  simp [hentry]

end Touched

theorem Puts.unchanged {text? : Option Bytes} {e : WriteError} {s : SaveError} (he : e = ofSave s ∨ e = ofFormat s) :
    Puts format path text? ofSave ofFormat t (.error e) t where
  toTouches := .refl path t
  isOf e' he' := ⟨s, Except.error.inj he' ▸ he⟩
  begins p hp := absurd rfl hp
  keeps := by simp
  exists_place := by simp

theorem Puts.failed {whole : Bytes} {e : WriteError} {s : SaveError} (htouches : FileTree.Touches path t after)
    (hplace : t.resolve path = .ok p) (hwhole : whole = text ∨ format text = some whole)
    (hbegins : HoldsBeginning after p whole) (he : e = ofSave s ∨ e = ofFormat s) :
    Puts format path (some text) ofSave ofFormat t (.error e) after where
  toTouches := htouches
  isOf e' he' := ⟨s, Except.error.inj he' ▸ he⟩
  begins q hq := ⟨text, whole, rfl, hwhole, begins_of_touches htouches hplace hbegins q hq⟩
  keeps := by simp
  exists_place := by simp

theorem holdsBeginning_fill (h : t.resolveNew path = .ok p) (data : Bytes) : HoldsBeginning (t.fill p data) p data :=
  have hcheck := (FileTree.resolveNew_eq_ok_iff.1 h).2.2
  ⟨_, _, FileTree.find?_fill_self data (FileTree.ne_nil_of_checkFile hcheck), FileTree.fitting_prefix t p data⟩

theorem put_null (h : t.resolveNew path = .ok p) (hnull : t.find? p = some .null) :
    (put format path (some text) ofSave ofFormat : StateM FileTree _) t =
      (if (format []).isSome then .ok () else .error (ofFormat .malformed), t) := by
  have hread := FileTree.read_null h hnull
  rw [put_of_save (FileTree.store_null h hnull text)]
  cases hformat : format [] with
  | none => rw [reformat_malformed hread hformat]; rfl
  | some laid => rw [reformat_of_read hread hformat, FileTree.store_null h hnull]; rfl

theorem puts_null (h : t.resolveNew path = .ok p) (hnull : t.find? p = some .null) :
    let r := (put format path (some text) ofSave ofFormat : StateM FileTree _) t
    Puts format path (some text) ofSave ofFormat t r.1 r.2 := by
  have hresolve := (FileTree.resolveNew_eq_ok_iff.1 h).2.1
  rw [put_null h hnull]
  cases (format []).isSome with
  | false => exact .unchanged (s := .malformed) (.inr rfl)
  | true => exact {
      toTouches := .refl path t
      isOf := by simp
      begins := fun p hp => absurd rfl hp
      keeps := fun _ => ⟨text, rfl, .inl ⟨p, hresolve, hnull⟩⟩
      exists_place := fun _ => stat_of_touches (.refl path t) hresolve hnull }

section Stored

variable (h : t.resolveNew path = .ok p) (hfile : t.find? p ≠ some .null) (hfits : t.fitting p text = text)
include h hfile hfits

theorem store_eq : t.store path text = (.ok (), t.fill p text) := by rw [FileTree.store_file h hfile, if_pos hfits]

theorem put_unreadable (hread : (t.access p).read = false) :
    (put format path (some text) ofSave ofFormat : StateM FileTree _) t =
      (.error (ofFormat (.file ⟨"open", path, .permissionDenied⟩)), t.fill p text) := by
  have hagain := FileTree.read_fill h text
  rw [hread, if_neg Bool.false_ne_true] at hagain
  rw [put_of_save (store_eq h hfile hfits), reformat_of_read_error hagain]
  rfl

variable (hread : (t.access p).read)
include hread

theorem put_unlaid (hformat : format text = none) :
    (put format path (some text) ofSave ofFormat : StateM FileTree _) t =
      (.error (ofFormat .malformed), t.fill p text) := by
  have hagain := FileTree.read_fill h text
  rw [if_pos hread, hfits] at hagain
  rw [put_of_save (store_eq h hfile hfits), reformat_malformed hagain hformat]
  rfl

theorem put_laid (hformat : format text = some laid) :
    (put format path (some text) ofSave ofFormat : StateM FileTree _) t =
      (if (t.fill p text).fitting p laid = laid then .ok () else .error (ofFormat (.file ⟨"write", path, .noSpace⟩)),
        (t.fill p text).fill p laid) := by
  have hagain := FileTree.read_fill h text
  rw [if_pos hread, hfits] at hagain
  have hcheck := (FileTree.resolveNew_eq_ok_iff.1 h).2.2
  have hstill : (t.fill p text).find? p ≠ some .null := by
    rw [FileTree.find?_fill_self text (FileTree.ne_nil_of_checkFile hcheck)]
    simp
  rw [put_of_save (store_eq h hfile hfits), reformat_of_read hagain hformat,
    FileTree.store_file (FileTree.resolveNew_fill h text) hstill]
  split <;> rfl

end Stored

theorem puts_stored (h : t.resolveNew path = .ok p) (hfile : t.find? p ≠ some .null)
    (hfits : t.fitting p text = text) :
    let r := (put format path (some text) ofSave ofFormat : StateM FileTree _) t
    Puts format path (some text) ofSave ofFormat t r.1 r.2 := by
  obtain ⟨-, hresolve, hcheck⟩ := FileTree.resolveNew_eq_ok_iff.1 h
  have hfirst := FileTree.Touches.of_fill h text
  cases hread : (t.access p).read with
  | false =>
    rw [put_unreadable h hfile hfits hread]
    exact .failed (s := .file ⟨"open", path, .permissionDenied⟩) hfirst hresolve (.inl rfl)
      (holdsBeginning_fill h text) (.inr rfl)
  | true =>
    cases hformat : format text with
    | none =>
      rw [put_unlaid h hfile hfits hread hformat]
      exact .failed (s := .malformed) hfirst hresolve (.inl rfl) (holdsBeginning_fill h text) (.inr rfl)
    | some laid =>
      have hagain := FileTree.resolveNew_fill h text
      have hne := FileTree.ne_nil_of_checkFile hcheck
      have htouches := hfirst.trans (.of_fill hagain laid)
      have hbegins := holdsBeginning_fill hagain laid
      rw [put_laid h hfile hfits hread hformat]
      split
      . next hlaid =>
        have hlaidRead := FileTree.read_fill hagain laid
        rw [FileTree.access_fill text hne, if_pos hread, hlaid] at hlaidRead
        exact {
          toTouches := htouches
          isOf := by simp
          begins := fun q hq => ⟨text, laid, rfl, .inr hformat, begins_of_touches htouches hresolve hbegins q hq⟩
          keeps := fun _ => ⟨text, rfl, .inr ⟨laid, hformat, hlaidRead⟩⟩
          exists_place := fun _ => stat_of_touches htouches hresolve (FileTree.find?_fill_self laid hne) }
      . exact .failed (s := .file ⟨"write", path, .noSpace⟩) htouches hresolve (.inr hformat) hbegins (.inr rfl)

theorem put_puts (t : FileTree) (text? : Option Bytes) :
    let r := (put format path text? ofSave ofFormat : StateM FileTree _) t
    Puts format path text? ofSave ofFormat t r.1 r.2 := by
  cases text? with
  | none => exact .unchanged (s := .malformed) (.inl rfl)
  | some text =>
    cases h : t.resolveNew path with
    | error r =>
      rw [put_of_save_error (FileTree.store_refused h text)]
      exact .unchanged (s := .file ⟨"open", path, r⟩) (.inl rfl)
    | ok p =>
      by_cases hnull : t.find? p = some .null
      . exact puts_null h hnull
      . by_cases hfits : t.fitting p text = text
        . exact puts_stored h hnull hfits
        . have hstopped : t.store path text = (.error ⟨"write", path, .noSpace⟩, t.fill p text) := by
            rw [FileTree.store_file h hnull, if_neg hfits]
          rw [put_of_save_error hstopped]
          exact .failed (s := .file ⟨"write", path, .noSpace⟩) (.of_fill h text) (FileTree.resolveNew_eq_ok_iff.1 h).2.1
            (.inl rfl) (holdsBeginning_fill h text) (.inl rfl)

theorem puts_of_put {text? : Option Bytes} {r : Except WriteError Unit}
    (h : (put format path text? ofSave ofFormat : StateM FileTree _) t = (r, after)) :
    Puts format path text? ofSave ofFormat t r after := by
  obtain ⟨rfl, rfl⟩ := Prod.ext_iff.1 h
  exact put_puts t text?

theorem put_of_writable {text? : Option Bytes} (hwritable : t.Writable path)
    (hformat : ∀ text, text? = some text → format text = some text) :
    let r := (put format path text? ofSave ofFormat : StateM FileTree _) t
    (r.1 = .ok () ↔ text?.isSome ∧ t.Readable path) ∧ (r.1 = .ok () → r.2.room = none) := by
  obtain ⟨p, h, hfile, hroom⟩ := FileTree.writable_iff.1 hwritable
  have hfits : ∀ data, t.fitting p data = data := fun data => FileTree.fitting_eq hroom
  rw [FileTree.readable_iff_access h]
  cases text? with
  | none =>
    rw [put_malformed]
    simp
  | some text =>
    cases hread : (t.access p).read with
    | false =>
      rw [put_unreadable h hfile (hfits text) hread]
      simp
    | true =>
      have hroom' := FileTree.room_fill (p := p) text hroom
      rw [put_laid h hfile (hfits text) hread (hformat text rfl), if_pos (FileTree.fitting_eq hroom')]
      exact ⟨by simp, fun _ => FileTree.room_fill text hroom'⟩

end Put

theorem validate_eq_ok_iff (d : Declaration) : d.validate = .ok () ↔ isIdentifier d.name ∧ isIdentifier d.package := by
  unfold validate
  cases isIdentifier d.name <;> cases isIdentifier d.package <;> simp

theorem part?_of_validate {d : Declaration} {e : WriteError} (h : d.validate = .error e) : e.part? = none := by
  unfold validate at h
  split at h
  . cases h
    rfl
  . split at h
    . cases h
      rfl
    . contradiction

/-- What the writing of generated files comes to: the outcome and the files afterwards. -/
inductive Leaves (format : Bytes → Option Bytes) (d : Declaration) (output : Bytes) (withTest : Bool) (t : FileTree) :
    Except WriteError Unit → FileTree → Prop where
  | refused {e : WriteError} : e.part? = none → Leaves format d output withTest t (.error e) t
  | stopped {e : WriteError} {after : FileTree} :
    (d.putSource format output : StateM FileTree _) t = (.error e, after) →
    Leaves format d output withTest t (.error e) after
  | alone {after : FileTree} : withTest = false →
    (d.putSource format output : StateM FileTree _) t = (.ok (), after) →
    Leaves format d output withTest t (.ok ()) after
  | both {mid after : FileTree} {r : Except WriteError Unit} : withTest = true →
    (d.putSource format output : StateM FileTree _) t = (.ok (), mid) →
    (d.putTest format output : StateM FileTree _) mid = (r, after) → Leaves format d output withTest t r after

theorem write_of_invalid {format : Bytes → Option Bytes} {d : Declaration} {output : Bytes} {withTest : Bool}
    {e : WriteError} (h : d.validate = .error e) (t : FileTree) :
    (d.write output withTest format : StateM FileTree _) t = (.error e, t) := by
  rw [write, h]
  rfl

section Valid

variable {format : Bytes → Option Bytes} {d : Declaration} {output : Bytes} {t after : FileTree}
  (hvalid : d.validate = .ok ()) (houtput : output ≠ [])
include hvalid houtput

theorem write_of_valid (withTest : Bool) (t : FileTree) :
    (d.write output withTest format : StateM FileTree _) t =
      let r := (d.putSource format output : StateM FileTree _) t
      match r.1 with
      | .error e => (.error e, r.2)
      | .ok () => if withTest then (d.putTest format output : StateM FileTree _) r.2 else (.ok (), r.2) := by
  rw [write, hvalid]
  dsimp only
  rw [if_neg (mt List.isEmpty_iff.1 houtput)]
  simp only [bind, StateT.bind]
  cases (d.putSource format output : StateM FileTree _) t with
  | mk r mid =>
    cases r with
    | error e => rfl
    | ok u => cases withTest <;> rfl

theorem write_of_error {withTest : Bool} {e : WriteError}
    (h : (d.putSource format output : StateM FileTree _) t = (.error e, after)) :
    (d.write output withTest format : StateM FileTree _) t = (.error e, after) := by
  rw [write_of_valid hvalid houtput, h]

theorem write_alone (h : (d.putSource format output : StateM FileTree _) t = (.ok (), after)) :
    (d.write output false format : StateM FileTree _) t = (.ok (), after) := by
  rw [write_of_valid hvalid houtput, h]
  rfl

theorem write_both (h : (d.putSource format output : StateM FileTree _) t = (.ok (), after)) :
    (d.write output true format : StateM FileTree _) t = (d.putTest format output : StateM FileTree _) after := by
  rw [write_of_valid hvalid houtput, h]
  rfl

end Valid

theorem write_leaves (format : Bytes → Option Bytes) (d : Declaration) (output : Bytes) (withTest : Bool)
    (t : FileTree) :
    let r := (d.write output withTest format : StateM FileTree _) t
    Leaves format d output withTest t r.1 r.2 := by
  cases hvalid : d.validate with
  | error e =>
    rw [write_of_invalid hvalid]
    exact .refused (part?_of_validate hvalid)
  | ok u =>
    by_cases houtput : output = []
    . rw [write, hvalid, houtput]
      exact .refused rfl
    . cases hsource : (d.putSource format output : StateM FileTree _) t with
      | mk r mid =>
        cases r with
        | error e =>
          rw [write_of_error hvalid houtput hsource]
          exact .stopped hsource
        | ok u =>
          cases withTest with
          | false =>
            rw [write_alone hvalid houtput hsource]
            exact .alone rfl hsource
          | true =>
            rw [write_both hvalid houtput hsource]
            exact .both rfl hsource rfl

section Put

variable {format : Bytes → Option Bytes} {d : Declaration} {output : Bytes} {t mid after : FileTree}
  {r : Except WriteError Unit}

theorem putSource_puts (h : (d.putSource format output : StateM FileTree _) t = (r, after)) :
    Puts format output d.sourceFile? .save .format t r after :=
  puts_of_put h

theorem putTest_puts (h : (d.putTest format output : StateM FileTree _) t = (r, after)) :
    Puts format (testFileName output) d.testFile? .saveTest .formatTest t r after :=
  puts_of_put h

theorem ne_testFileName (t : FileTree) (output : Bytes) :
    ∀ p, t.resolve (testFileName output) = .ok p → t.resolve output ≠ .ok p :=
  fun _ hq hp => ne_of_resolve_testFileName hp hq rfl

theorem keeps_of_touches {text? : Option Bytes} {ofSave ofFormat : SaveError → WriteError}
    (h : Puts format output text? ofSave ofFormat t (.ok ()) mid)
    (htest : FileTree.Touches (testFileName output) mid after) :
    (∃ text, text? = some text ∧ Keeps format t after output text) ∧ after.stat output = .ok () := by
  have hother := fun p hp hq => ne_testFileName mid output p hq hp
  obtain ⟨text, htext, hkeeps⟩ := h.keeps rfl
  refine ⟨⟨text, htext, ?_⟩, htest.stat_of_stat hother (h.exists_place rfl)⟩
  obtain hnull | ⟨laid, hformat, hread⟩ := hkeeps
  . exact .inl hnull
  . exact .inr ⟨laid, hformat, htest.read_of_read hother hread⟩

end Put

section Writable

variable {format : Bytes → Option Bytes} (hformat : LeavesFiles format) {d : Declaration} {output : Bytes}
  {t : FileTree} (hplace : t.Writable output)
include hformat hplace

/-- Where both files can be written, they are, if they are well formed, unless they cannot be read. -/
theorem write_eq_ok_iff (hvalid : d.validate = .ok ()) (houtput : output ≠ [])
    (hbeside : t.Writable (testFileName output)) (withTest : Bool) :
    ((d.write output withTest format : StateM FileTree _) t).1 = .ok () ↔ (d.sourceFile?.isSome ∧ t.Readable output) ∧
      (withTest = true → d.testFile?.isSome ∧ t.Readable (testFileName output)) := by
  have hput : let r := (d.putSource format output : StateM FileTree _) t
      (r.1 = .ok () ↔ d.sourceFile?.isSome ∧ t.Readable output) ∧ (r.1 = .ok () → r.2.room = none) :=
    put_of_writable hplace fun text htext => hformat d text (.inl htext)
  rw [← hput.1]
  cases hsource : (d.putSource format output : StateM FileTree _) t with
  | mk r mid =>
    cases r with
    | error e =>
      rw [write_of_error hvalid houtput hsource]
      simp
    | ok u =>
      cases withTest with
      | false =>
        rw [write_alone hvalid houtput hsource]
        simp
      | true =>
        have hother := ne_testFileName t output
        have htouches := (putSource_puts hsource).toTouches
        have hroom : mid.room = none := by
          have hroom := hput.2
          rw [hsource] at hroom
          exact hroom rfl
        have hputTest : let r := (d.putTest format output : StateM FileTree _) mid
            (r.1 = .ok () ↔ d.testFile?.isSome ∧ mid.Readable (testFileName output)) ∧
              (r.1 = .ok () → r.2.room = none) :=
          put_of_writable (htouches.writable hother hroom hbeside) fun test htest => hformat d test (.inr htest)
        rw [write_both hvalid houtput hsource, hputTest.1, htouches.readable_iff hother]
        simp

theorem read_of_keeps {after : FileTree} {text : Bytes} (hsource : d.sourceFile? = some text)
    (hkeeps : Keeps format t after output text) : after.read output = .ok text := by
  obtain ⟨p, hp, hnull⟩ | ⟨laid, hlaid, hread⟩ := hkeeps
  . exact absurd hnull (hplace.isFile p hp)
  . rw [hformat d text (.inl hsource)] at hlaid
    rwa [Option.some.inj hlaid]

end Writable

theorem Leaves.keeps {format : Bytes → Option Bytes} {d : Declaration} {output : Bytes} {withTest : Bool}
    {t after : FileTree} (h : Leaves format d output withTest t (.ok ()) after) :
    ∃ text, d.sourceFile? = some text ∧ Keeps format t after output text := by
  cases h with
  | alone _ hsource => exact (putSource_puts hsource).keeps rfl
  | both _ hsource htest => exact (keeps_of_touches (putSource_puts hsource) (putTest_puts htest).toTouches).1

end Declaration

end VerboseExpr.Generated
