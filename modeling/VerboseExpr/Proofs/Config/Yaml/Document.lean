import VerboseExpr.Proofs.Config.Yaml.Line
import VerboseExpr.Proofs.Config.Yaml.Node
import VerboseExpr.Proofs.Pattern.Escape

namespace VerboseExpr.Yaml

section Entries

variable {blocks : List Nat} {k : List Char} {ts : List Token}

/-- What is written of an entry that a text or a truth value makes: wherever a key may stand its tokens are read from
it. -/
def IsEntry (w : List Char) (key : List Char) (value : Content) : Prop :=
  ∀ (blocks : List Nat) (k : List Char) (ts : List Token), blocks = [] ∨ blocks = [0] → Rest (.line 0) [0] k ts →
    Rest (.line 0) blocks (w ++ k)
      (opening 0 blocks .blockMappingStart ++ (Token.key :: .scalar key true :: .value :: value.tokens ++ ts))

theorem isEntry_of_readsAs {key w cs : List Char} {plain : Bool} (hkey : IsKey key)
    (hlength : key.length ≤ KeyPlace.maxLength) (h : ReadM.ReadsAs w (.scalar cs plain) 1)
    (hstart : w.head?.any ReadM.isTokenStart) : IsEntry (key ++ (": ".toList ++ w)) key (.text cs plain) := by
  intro blocks k ts hblocks hk
  have htext : Rest .sign [0] (' ' :: (w ++ (spaces 0 ++ k))) (.scalar cs plain :: ts) :=
    .text h hstart (Nat.le_refl 0) hk
  have hcolon : Rest .colon blocks (':' :: ' ' :: (w ++ (spaces 0 ++ k))) (.value :: .scalar cs plain :: ts) :=
    .colon htext
  have hrest := Rest.key hkey hlength hblocks rfl hcolon
  have hchars : key ++ (": ".toList ++ w) ++ k = key ++ ':' :: ' ' :: (w ++ (spaces 0 ++ k)) := by simp [spaces]
  rw [hchars]
  exact hrest

def settingKeys : List String := ["name", "package", "output", "engine", "verbose", "no_color", "test_file", "inputs"]

theorem isKey_of_settingKeys {key : String} (h : key ∈ settingKeys) :
    IsKey key.toList ∧ key.toList.length ≤ KeyPlace.maxLength := by
  have hall : settingKeys.all fun key =>
      !key.toList.isEmpty && key.toList.all (fun c => c.isAlpha || c = '_') && key.toList.length ≤ 1024 := by
    decide +kernel
  have hkey := List.all_eq_true.mp hall key h
  simp only [Bool.and_eq_true, Bool.not_eq_true', List.isEmpty_eq_false_iff, decide_eq_true_eq] at hkey
  exact ⟨⟨hkey.1.1, List.all_eq_true.mp hkey.1.2⟩, hkey.2⟩

def textLine (key : String) (cs : List Char) : List Char := key.toList ++ (": ".toList ++ scalarLine 4 false cs)

theorem exists_isEntry_text {key : String} (hkey : key ∈ settingKeys) {cs : List Char} (h : keepsText true cs) :
    ∃ plain, IsEntry (textLine key cs) key.toList (.text cs plain) ∧ (plain → resolve cs = .text) := by
  obtain ⟨hkey, hlength⟩ := isKey_of_settingKeys hkey
  obtain ⟨plain, hreads, hplain⟩ := exists_readsAs_scalarLine 1 4 h (fun _ => rfl)
    (by decide) (by decide)
  exact ⟨plain, isEntry_of_readsAs hkey hlength hreads isTokenStart_scalarLine, hplain⟩

def boolWord (b : Bool) : List Char := (if b then "true" else "false").toList

theorem isEntry_bool {key : String} (hkey : key ∈ settingKeys) (b : Bool) :
    IsEntry (boolEntry key b) key.toList (.text (boolWord b) true) := by
  obtain ⟨hkey, hlength⟩ := isKey_of_settingKeys hkey
  have hline : boolEntry key b = key.toList ++ (": ".toList ++ (boolWord b ++ ['\n'])) := by
    cases b <;> rfl
  rw [hline]
  refine isEntry_of_readsAs hkey hlength (ReadM.readsAs_plain ?_ ?_ 1) ?_
  all_goals cases b <;> decide

def itemLine (cs : List Char) : List Char := "    - ".toList ++ scalarLine 6 false cs

theorem exists_rest_items {items : List (List Char)} (h : ∀ cs ∈ items, keepsText false cs) (hne : items ≠ []) :
    ∃ read : List (List Char × Bool), read.map (·.1) = items ∧ (∀ i ∈ read, i.2 → resolve i.1 = .text) ∧
      ∃ k, items.flatMap itemLine = spaces 4 ++ k ∧ ∀ blocks, blocks = [0] ∨ blocks = [4, 0] →
        Rest (.line 4) blocks k
          (opening 4 blocks .blockSequenceStart ++
            (Content.itemTokens read ++ [Token.blockEnd, .blockEnd, .streamEnd])) := by
  -- the last item is followed by the end of the document, any other by the next one at the same column
  induction items with
  | nil => exact absurd rfl hne
  | cons cs items ih =>
    obtain ⟨plain, hreads, hplain⟩ := exists_readsAs_scalarLine 5 6 (h cs (by simp)) nofun
      (by decide) (by decide)
    have hitem : ∀ {j : Nat} {k : List Char} {ts : List Token}, j ≤ 4 → Rest (.line j) [4, 0] k ts →
        ∀ blocks, blocks = [0] ∨ blocks = [4, 0] →
        Rest (.line 4) blocks ('-' :: ' ' :: (scalarLine 6 false cs ++ (spaces j ++ k)))
          (opening 4 blocks .blockSequenceStart ++ Token.blockEntry :: .scalar cs plain :: ts) := fun hj hk blocks hblocks =>
      .item hblocks rfl (.text hreads isTokenStart_scalarLine hj hk)
    by_cases hitems : items = []
    . refine ⟨[(cs, plain)], by simp [hitems], by simpa using hplain, _, ?_, hitem (Nat.zero_le 4) (.finish [4, 0])⟩
      simp [hitems, itemLine, spaces]
    . obtain ⟨read, hread, hresolve, k, hk, hrest⟩ := ih (fun cs hcs => h cs (by simp [hcs])) hitems
      refine ⟨(cs, plain) :: read, by simp [hread], ?_,
        '-' :: ' ' :: (scalarLine 6 false cs ++ (spaces 4 ++ k)), ?_, ?_⟩
      . intro i hi
        obtain rfl | hi := List.mem_cons.mp hi
        . exact hplain
        . exact hresolve i hi
      . rw [List.flatMap_cons, hk]
        simp [itemLine, spaces]
      . exact hitem (Nat.le_refl 4) (hrest [4, 0] (.inr rfl))

def inputLines (items : List (List Char)) : List Char :=
  if items = [] then [] else "inputs:\n".toList ++ items.flatMap itemLine

/-- The entry that the inputs make, unless there are none. -/
def inputEntries (read : List (List Char × Bool)) : List (List Char × Content) :=
  if read = [] then [] else [("inputs".toList, .list read)]

theorem exists_rest_inputs {items : List (List Char)} (h : ∀ cs ∈ items, keepsText false cs) :
    ∃ read : List (List Char × Bool), read.map (·.1) = items ∧ (∀ i ∈ read, i.2 → resolve i.1 = .text) ∧
      Rest (.line 0) [0] (inputLines items) (entryTokens (inputEntries read) ++ [Token.blockEnd, .streamEnd]) := by
  by_cases hitems : items = []
  . subst hitems
    exact ⟨[], rfl, by simp, .finish [0]⟩
  . obtain ⟨read, hread, hresolve, k, hk, hrest⟩ := exists_rest_items h hitems
    have hne : read ≠ [] := by
      rintro rfl
      exact hitems hread.symm
    refine ⟨read, hread, hresolve, ?_⟩
    rw [inputLines, if_neg hitems, hk, inputEntries, if_neg hne]
    have hkey := isKey_of_settingKeys (by simp [settingKeys] : "inputs" ∈ settingKeys)
    have hlist : Rest .colon [0] _ _ := .colon (.list (hrest [0] (.inl rfl)))
    have hentry := Rest.key hkey.1 hkey.2 (.inr rfl) rfl hlist
    simpa [entryTokens, Content.tokens, opening, inside] using hentry

end Entries

section Write

variable {c : Config}

def documentChars (c : Config) : List Char :=
  textLine "name" (Utf8.decode c.name) ++ (textLine "package" (Utf8.decode c.package) ++
    (textLine "output" (Utf8.decode c.output) ++ (textLine "engine" (Utf8.decode c.engine) ++
    (boolEntry "verbose" c.verbose ++ (boolEntry "no_color" c.noColor ++ (boolEntry "test_file" c.testFile ++
    inputLines (c.inputs.map Utf8.decode)))))))

theorem textEntry_eq {b : Bytes} (h : Utf8.isValid b) (key : String) :
    textEntry key b = textLine key (Utf8.decode b) := by
  rw [textEntry, valueLine, if_pos h, textLine, List.append_assoc]

theorem inputLines_map_decode {inputs : List Bytes} (h : ∀ b ∈ inputs, Utf8.isValid b) :
    (if inputs.isEmpty then [] else "inputs:\n".toList ++ inputs.flatMap fun i => "    - ".toList ++ valueLine 6 i) =
      inputLines (inputs.map Utf8.decode) := by
  have hitems : (inputs.flatMap fun i => "    - ".toList ++ valueLine 6 i) =
      (inputs.map Utf8.decode).flatMap itemLine := by
    rw [List.flatMap_map]
    refine List.flatMap_congr fun b hb => ?_
    rw [valueLine, if_pos (h b hb), itemLine]
  rw [hitems, inputLines]
  cases inputs <;> rfl

theorem write_eq (h : ∀ b ∈ c.texts, Utf8.isValid b) : write c = Bytes.ofChars (documentChars c) := by
  have hvalid := fun b hb => h b (List.mem_append.mpr hb)
  unfold write documentChars
  rw [textEntry_eq (hvalid c.name (.inl (by simp))), textEntry_eq (hvalid c.package (.inl (by simp))),
    textEntry_eq (hvalid c.output (.inl (by simp))), textEntry_eq (hvalid c.engine (.inl (by simp))),
    inputLines_map_decode fun b hb => hvalid b (.inr hb)]
  simp only [List.append_assoc]

theorem isClean_documentChars (c : Config) : (documentChars c).all isClean := by
  have htext : ∀ {key : String} (cs : List Char), key.toList.all isClean → (textLine key cs).all isClean := by
    intro key cs hkey
    rw [textLine, List.all_append, List.all_append, hkey, isClean_scalarLine]
    decide
  have hbool : ∀ {key : String} (b : Bool), key.toList.all isClean → (boolEntry key b).all isClean := by
    intro key b hkey
    rw [boolEntry, List.all_append, hkey]
    cases b <;> decide
  have hinputs : ∀ items : List (List Char), (inputLines items).all isClean := by
    intro items
    unfold inputLines
    split
    . rfl
    . rw [List.all_append, List.all_flatMap]
      have hitem : ∀ cs ∈ items, (itemLine cs).all isClean := by
        intro cs _
        rw [itemLine, List.all_append, isClean_scalarLine]
        decide
      rw [List.all_eq_true.mpr hitem]
      decide
  unfold documentChars
  simp only [List.all_append, Bool.and_eq_true]
  refine ⟨htext _ ?_, htext _ ?_, htext _ ?_, htext _ ?_, hbool _ ?_, hbool _ ?_, hbool _ ?_, hinputs _⟩ <;> decide

theorem length_documentChars (c : Config) : c.inputs.length + 8 ≤ (documentChars c).length := by
  have hitems : ∀ items : List (List Char), items.length ≤ (items.flatMap itemLine).length := by
    intro items
    induction items with
    | nil => exact Nat.le_refl 0
    | cons cs items ih =>
      have hitem : 0 < (itemLine cs).length := by
        rw [itemLine, List.length_append]
        exact Nat.lt_add_right _ (by decide)
      rw [List.length_cons, List.flatMap_cons, List.length_append]
      omega
  have hinputs : c.inputs.length ≤ (inputLines (c.inputs.map Utf8.decode)).length := by
    have h := hitems (c.inputs.map Utf8.decode)
    rw [List.length_map] at h
    unfold inputLines
    split
    . next hnone => simp [List.map_eq_nil_iff.mp hnone]
    . rw [List.length_append]
      omega
  have hname : "name".toList.length = 4 := rfl
  have hpackage : "package".toList.length = 7 := rfl
  simp only [documentChars, textLine, List.length_append, hname, hpackage]
  omega

/-- May the settings be written as a document that is read as it is? -/
def keepsTexts (c : Config) : Bool :=
  [c.name, c.package, c.output, c.engine].all (keepsText true <| Utf8.decode ·) &&
    c.inputs.all (keepsText false <| Utf8.decode ·)

def Content.IsText (v : Content) (b : Bytes) : Prop :=
  ∃ plain, v = .text (Utf8.decode b) plain ∧ (plain → resolve (Utf8.decode b) = .text)

/-- The entries of a document as far as they do not depend on the inputs. -/
def entries (c : Config) (name package output engine : Content) : List (List Char × Content) :=
  [("name".toList, name), ("package".toList, package), ("output".toList, output), ("engine".toList, engine),
    ("verbose".toList, .text (boolWord c.verbose) true), ("no_color".toList, .text (boolWord c.noColor) true),
    ("test_file".toList, .text (boolWord c.testFile) true)]

/-- The document has an entry for each setting, except for inputs of which there are none. -/
theorem exists_document?_write (h : ∀ b ∈ c.texts, Utf8.isValid b) (hkeeps : keepsTexts c) :
    ∃ name package output engine read, name.IsText c.name ∧ package.IsText c.package ∧ output.IsText c.output ∧
      engine.IsText c.engine ∧ read.map (·.1) = c.inputs.map Utf8.decode ∧ (∀ i ∈ read, i.2 → resolve i.1 = .text) ∧
      document? (write c) = some (some ⟨.mapping none (entryNodes (entries c name package output engine ++
        inputEntries read)), []⟩) := by
  simp only [keepsTexts, List.all_cons, List.all_nil, Bool.and_eq_true, List.all_eq_true, Bool.and_true] at hkeeps
  obtain ⟨⟨hname, hpackage, houtput, hengine⟩, hinputs⟩ := hkeeps
  obtain ⟨p₁, h₁, hp₁⟩ := exists_isEntry_text (by simp [settingKeys] : "name" ∈ settingKeys) hname
  obtain ⟨p₂, h₂, hp₂⟩ := exists_isEntry_text (by simp [settingKeys] : "package" ∈ settingKeys) hpackage
  obtain ⟨p₃, h₃, hp₃⟩ := exists_isEntry_text (by simp [settingKeys] : "output" ∈ settingKeys) houtput
  obtain ⟨p₄, h₄, hp₄⟩ := exists_isEntry_text (by simp [settingKeys] : "engine" ∈ settingKeys) hengine
  have h₅ := isEntry_bool (by simp [settingKeys] : "verbose" ∈ settingKeys) c.verbose
  have h₆ := isEntry_bool (by simp [settingKeys] : "no_color" ∈ settingKeys) c.noColor
  have h₇ := isEntry_bool (by simp [settingKeys] : "test_file" ∈ settingKeys) c.testFile
  obtain ⟨read, hread, hresolve, hrest⟩ := exists_rest_inputs
    (by simpa using hinputs : ∀ cs ∈ c.inputs.map Utf8.decode, keepsText false cs)
  have hdocument := h₁ [] _ _ (.inl rfl) <| h₂ [0] _ _ (.inr rfl) <| h₃ [0] _ _ (.inr rfl) <| h₄ [0] _ _ (.inr rfl) <|
    h₅ [0] _ _ (.inr rfl) <| h₆ [0] _ _ (.inr rfl) <| h₇ [0] _ _ (.inr rfl) hrest
  refine ⟨_, _, _, _, read, ⟨p₁, rfl, hp₁⟩, ⟨p₂, rfl, hp₂⟩, ⟨p₃, rfl, hp₃⟩, ⟨p₄, rfl, hp₄⟩, hread, hresolve, ?_⟩
  rw [write_eq h]
  obtain ⟨cs, hcs⟩ : ∃ cs, documentChars c = 'n' :: cs := ⟨_, rfl⟩
  have hclean := isClean_documentChars c
  rw [hcs] at hclean ⊢
  have hlength := length_documentChars c
  rw [hcs] at hlength
  -- the fuel is bounded by the length of the document, in which every entry has characters of its own
  refine document?_eq ?_ hclean (by decide) (by rw [List.length_cons] at hlength; omega) ?_ ?_
  . rw [← hcs]
    simpa [entries, entryTokens, opening, inside, Content.tokens, documentChars] using hdocument
  . have hread' : read.length ≤ ('n' :: cs).length := by
      have hsame := congrArg List.length hread
      simp only [List.length_map] at hsame
      omega
    intro e he
    obtain he | he := List.mem_append.mp he
    . simp only [entries, List.mem_cons, List.not_mem_nil, or_false] at he
      obtain rfl | rfl | rfl | rfl | rfl | rfl | rfl := he <;> exact Nat.zero_le _
    . unfold inputEntries at he
      split at he
      . cases he
      . obtain rfl := List.mem_singleton.mp he
        exact hread'
  . have hinputs : (inputEntries read).length ≤ 1 := by
      unfold inputEntries
      split
      . exact Nat.zero_le 1
      . exact Nat.le_refl 1
    simp only [entries, List.length_append, List.length_cons, List.length_nil] at hlength ⊢
    omega

end Write

end VerboseExpr.Yaml
