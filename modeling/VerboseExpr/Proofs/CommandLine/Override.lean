import VerboseExpr.CommandLine.Run
import VerboseExpr.File.Tree
import VerboseExpr.Proofs.CommandLine.Spelling

/-!
Flags against settings. What the arguments give for a flag is the last value that is written with it, and code is
generated from that value, or from the settings where the flag is not written. Main statement: a run that generates code
does so from options that follow the arguments before the settings, except that a switch cannot undo a wish for a test
file.
-/

namespace VerboseExpr.CommandLine

def LastGiven (fs : List (Flag × Bytes)) (f : Flag) (v : Bytes) : Prop :=
  ∃ before after, fs = before ++ (f, v) :: after ∧ ∀ p ∈ after, p.1 ≠ f

def NotGiven (fs : List (Flag × Bytes)) (f : Flag) : Prop := ∀ p ∈ fs, p.1 ≠ f

/-- A text comes from a flag if that is given, and from the settings otherwise. -/
def Follows (fs : List (Flag × Bytes)) (f : Flag) (setting text : Bytes) : Prop :=
  (∀ v, LastGiven fs f v → text = v) ∧ (NotGiven fs f → text = setting)

structure FollowFlags (fs : List (Flag × Bytes)) (c : Config) (o : Options) : Prop where
  name : Follows fs .name c.name o.name
  package : Follows fs .package c.package o.package
  output : Follows fs .output c.output o.output
  engine : Follows fs .engine c.engine o.engine
  inputs : ¬NotGiven fs .input → o.inputs = fs.filterMap fun p => if p.1 = .input then some p.2 else none
  inputs_setting : NotGiven fs .input → o.inputs = c.inputs
  /-- A truth value that is written counts, unless it is false against the settings. -/
  testFile : ∀ v, LastGiven fs .testFile v →
    ∃ b, bool? v = some b ∧ (o.testFile = b ↔ b = true ∨ c.testFile = false)
  testFile_setting : NotGiven fs .testFile → o.testFile = c.testFile

section Values

variable {a : Arguments} {f : Flag} {v : Bytes}

theorem values_eq_nil_iff : a.values f = [] ↔ NotGiven a.flags f := by
  unfold Arguments.values NotGiven
  simp

theorem value?_of_lastGiven (h : LastGiven a.flags f v) : a.value? f = some v := by
  obtain ⟨before, after, hflags, hlast⟩ := h
  have hvalues : a.values f = (⟨before, a.words⟩ : Arguments).values f ++ [v] := by
    have hafter : after.filter (·.1 == f) = [] := by simpa using hlast
    unfold Arguments.values
    rw [hflags, List.filter_append, List.filter_cons_of_pos (by simp), hafter]
    simp
  unfold Arguments.value?
  rw [hvalues, List.getLast?_concat]

theorem value?_of_notGiven (h : NotGiven a.flags f) : a.value? f = none := by
  unfold Arguments.value?
  rw [values_eq_nil_iff.mpr h]
  rfl

theorem has_iff : a.has f = true ↔ ¬NotGiven a.flags f := by
  unfold Arguments.has NotGiven
  simp

theorem values_eq_filterMap : a.values f = a.flags.filterMap fun p => if p.1 = f then some p.2 else none := by
  unfold Arguments.values
  rw [← List.filterMap_eq_map, List.filterMap_filter]
  congr 1
  funext p
  by_cases hp : p.1 = f <;> simp [hp]

end Values

section Takes

variable {known : List Flag}

theorem Named.takes {body : Bytes} {p : Flag × Bytes} {next? : Option Bytes} (h : Named known body p next?) :
    p.1.Takes p.2 := by
  cases h with
  | assigned _ htakes => exact htakes
  | switched => exact fun _ => rfl
  | followed _ hkind => exact fun h => absurd h hkind

theorem Lettered.takes {ls : Bytes} {gs : List (Flag × Bytes)} {next? : Option Bytes} (h : Lettered known ls gs next?) :
    ∀ p ∈ gs, p.1.Takes p.2 := by
  induction h with
  | done => simp
  | ignored => simp
  | assigned _ _ _ htakes => simpa using htakes
  | switched _ _ _ _ _ ih => exact List.forall_mem_cons.mpr ⟨fun _ => rfl, ih⟩
  | attached _ _ _ hkind _ => exact List.forall_mem_singleton.mpr fun h => absurd h hkind
  | followed _ _ hkind => exact List.forall_mem_singleton.mpr fun h => absurd h hkind

theorem Spells.takes {args words : List Bytes} {fs : List (Flag × Bytes)} (h : Spells known args fs words) :
    ∀ p ∈ fs, p.1.Takes p.2 := by
  induction h with
  | done => simp
  | ended => simp
  | word _ _ ih => exact ih
  | named hnamed _ ih => exact List.forall_mem_cons.mpr ⟨hnamed.takes, ih⟩
  | lettered _ hlettered _ ih => exact List.forall_mem_append.mpr ⟨hlettered.takes, ih⟩

end Takes

section Options

variable (j : Job) (source : Bytes)

theorem follows_value? (a : Arguments) (f : Flag) (setting : Bytes) :
    Follows a.flags f setting ((a.value? f).getD setting) := by
  constructor
  . intro v hgiven
    rw [value?_of_lastGiven hgiven]
    rfl
  . intro hnone
    rw [value?_of_notGiven hnone]
    rfl

theorem followFlags_options (htakes : ∀ p ∈ j.arguments.flags, p.1.Takes p.2) :
    FollowFlags j.arguments.flags j.config (j.options source) where
  name := follows_value? j.arguments .name j.config.name
  package := follows_value? j.arguments .package j.config.package
  output := follows_value? j.arguments .output j.config.output
  engine := follows_value? j.arguments .engine j.config.engine
  inputs hgiven := by
    unfold Job.options
    rw [if_pos (has_iff.mpr hgiven)]
    exact values_eq_filterMap
  inputs_setting hnone := by
    unfold Job.options
    rw [if_neg fun hhas => has_iff.mp hhas hnone]
  testFile v hgiven := by
    -- only a truth value is taken by a switch, so that the value can be read
    have hbool : (bool? v).isSome := by
      obtain ⟨before, after, hflags, -⟩ := hgiven
      exact htakes (.testFile, v) (by simp [hflags]) rfl
    obtain ⟨b, hb⟩ := Option.isSome_iff_exists.mp hbool
    refine ⟨b, hb, ?_⟩
    unfold Job.options Arguments.isOn
    dsimp only
    rw [value?_of_lastGiven hgiven, Option.bind_some, hb, Option.getD_some]
    cases b <;> cases j.config.testFile <;> simp
  testFile_setting hnone := by
    unfold Job.options Arguments.isOn
    rw [value?_of_notGiven hnone]
    rfl

end Options

theorem exists_removeWord {args more : List Bytes} {word : Bytes} (h : plainWords args = word :: more) :
    (word.isEmpty || word.head? == some 0x2D) = false ∧
      ∃ before after, args = before ++ word :: after ∧ removeWord word args = before ++ after := by
  -- both functions go through the arguments alike, and what begins with a dash is no word
  induction args using plainWords.induct with
  | case1 => contradiction
  | case2 a rest hends =>
    unfold plainWords at h
    rw [if_pos hends] at h
    contradiction
  | case3 a hends htakes v b rest ih =>
    unfold plainWords at h
    rw [if_neg hends, if_pos htakes] at h
    obtain ⟨hword, before, after, hargs, hremoved⟩ := ih h
    refine ⟨hword, a :: v :: before, after, by rw [hargs]; rfl, ?_⟩
    unfold removeWord
    rw [if_neg hends, if_pos htakes]
    simp [hremoved]
  | case4 a rest hends htakes hshort =>
    unfold plainWords at h
    rw [if_neg hends, if_pos htakes] at h
    split at h
    . exact (hshort _ _ _ rfl).elim
    . contradiction
  | case5 a rest hends htakes hflag ih =>
    unfold plainWords at h
    rw [if_neg hends, if_neg htakes, if_pos hflag] at h
    obtain ⟨hword, before, after, hargs, hremoved⟩ := ih h
    have hother : ¬(a.head? != some 0x2D && a == word) = true := by
      intro hsame
      rw [Bool.and_eq_true, beq_iff_eq] at hsame
      rw [hsame.2, hword] at hflag
      contradiction
    refine ⟨hword, a :: before, after, by rw [hargs]; rfl, ?_⟩
    unfold removeWord
    rw [if_neg hends, if_neg htakes, if_neg hother, hremoved]
    rfl
  | case6 a rest hends htakes hword _ =>
    unfold plainWords at h
    rw [if_neg hends, if_neg htakes, if_neg hword] at h
    cases h
    have hword := Bool.eq_false_iff.mpr hword
    refine ⟨hword, [], rest, rfl, ?_⟩
    unfold removeWord
    rw [if_neg hends, if_neg htakes, if_pos]
    . rfl
    . rw [Bool.or_eq_false_iff] at hword
      simpa using hword.2

theorem exists_of_choose {args rest : List Bytes} {c : Subcommand} (h : choose args = .ok (some c, rest)) :
    ∃ before after, args = before ++ c.name :: after ∧ rest = before ++ after := by
  unfold choose at h
  cases hwords : plainWords args with
  | nil => simp [hwords] at h
  | cons word more =>
    cases hname : Subcommand.ofName? word with
    | none => simp [hwords, hname] at h
    | some c' =>
      simp only [hwords, hname, Except.ok.injEq, Prod.mk.injEq, Option.some.injEq] at h
      obtain ⟨rfl, rfl⟩ := h
      have hsame : c'.name = word := by simpa using List.find?_some hname
      rw [hsame]
      exact (exists_removeWord hwords).2

theorem FollowFlags.of_verbose {fs : List (Flag × Bytes)} {c : Config} {o : Options} {verbose : Bool}
    (h : FollowFlags fs { c with verbose } o) : FollowFlags fs c o :=
  ⟨h.name, h.package, h.output, h.engine, h.inputs, h.inputs_setting, h.testFile, h.testFile_setting⟩

/-- A run that generates code does so from options that follow the arguments before the settings: the arguments, without
the name of the subcommand, spell flags with values, and the last value of each counts. -/
theorem run_gen {terminal : Bool} {stdin : StateM FileTree Bytes} {args rest words : List Bytes}
    {fs : List (Flag × Bytes)} {t t' : FileTree} {c : Config} {source : Bytes}
    (hchoose : choose args = .ok (some .gen, rest)) (hspells : Spells (knownFlags (some .gen)) rest fs words)
    (hhelp : (⟨fs, words⟩ : Arguments).isOn .help = false)
    (hconfig : (Config.resolve ((⟨fs, words⟩ : Arguments).value .config) : StateM FileTree _) t = (.ok c, t))
    (hsource : (readSource stdin ⟨fs, words⟩) t = (.ok source, t')) :
    (∃ before after, args = before ++ Subcommand.gen.name :: after ∧ rest = before ++ after) ∧
      ∃ (j : Job) (o : Options), o.source = source ∧ FollowFlags fs c o ∧
        (run terminal stdin args : StateM FileTree _) t =
          let work := (j.deliver o : StateM FileTree _) t'
          (work.1.conclude j.colours, work.2) := by
  refine ⟨exists_of_choose hchoose, ?_⟩
  let a : Arguments := ⟨fs, words⟩
  let config : Config := if a.has .verbose then { c with verbose := a.isOn .verbose } else c
  let j : Job := ⟨a, config, terminal && !(a.isOn .noColor || config.noColor)⟩
  refine ⟨j, j.options source, rfl, ?_, ?_⟩
  . have hfollow : FollowFlags fs config (j.options source) := followFlags_options j source hspells.takes
    dsimp only [config] at hfollow
    split at hfollow
    . exact hfollow.of_verbose
    . exact hfollow
  . -- nothing before the work itself touches the files
    have hload : (loadConfig .gen a : StateM FileTree _) t = (.ok config, t) := by
      simp only [loadConfig, bind, StateT.bind, reduceCtorEq, if_false, hconfig, a]
      rfl
    have hperform : (perform stdin .gen j : StateM FileTree _) t =
        (j.deliver (j.options source) : StateM FileTree _) t' := by
      simp only [perform, bind, StateT.bind, j, a, hsource]
      rfl
    dsimp only [j, a] at hperform
    unfold run
    rw [hchoose]
    dsimp only
    rw [readFlags_of_spells hspells]
    dsimp only
    rw [hhelp]
    unfold runSubcommand
    simp only [checkWords, bind, StateT.bind, hload, hperform, Bool.false_eq_true, if_false, a]
    rfl

def namedTwice : List Bytes :=
  ["--output=out.go", "gen", "-nA", "--package=", "--input", "x", "--name", "B", "--test-file", "'a'"]

def namedTwiceFlags : List (Flag × Bytes) :=
  [(.output, "out.go"), (.name, "A"), (.package, []), (.input, "x"), (.name, "B"), (.testFile, switchedOn)]

theorem run_gen_twice :
    ∃ (j : Job) (o : Options), o = ⟨"'a'", "B", [], "out.go", "auto", true, ["x"]⟩ ∧
      (run true (pure []) namedTwice : StateM FileTree _) {} =
        let work := (j.deliver o : StateM FileTree _) {}
        (work.1.conclude j.colours, work.2) := by
  have hchoose : choose namedTwice = .ok (some .gen, namedTwice.eraseIdx 1) := by decide +kernel
  have hspells : Spells (knownFlags (some .gen)) (namedTwice.eraseIdx 1) namedTwiceFlags ["'a'"] := by
    rw [← readFlags_eq_ok_iff (a := ⟨namedTwiceFlags, ["'a'"]⟩)]
    decide +kernel
  have hconfig : (Config.resolve ((⟨namedTwiceFlags, ["'a'"]⟩ : Arguments).value .config) : StateM FileTree _) {} =
      (.ok Config.default, {}) := rfl
  have hsource : (readSource (pure []) ⟨namedTwiceFlags, ["'a'"]⟩ : StateM FileTree _) {} = (.ok "'a'", {}) := rfl
  obtain ⟨-, j, o, hsame, hfollow, hrun⟩ :=
    @run_gen true _ _ _ _ _ _ _ _ _ hchoose hspells (by decide) hconfig hsource
  refine ⟨j, o, ?_, hrun⟩
  have hname : o.name = "B" := hfollow.name.1 "B" ⟨namedTwiceFlags.take 4, namedTwiceFlags.drop 5, rfl, by decide⟩
  have hpackage : o.package = [] :=
    hfollow.package.1 [] ⟨namedTwiceFlags.take 2, namedTwiceFlags.drop 3, rfl, by decide⟩
  have houtput : o.output = "out.go" := hfollow.output.1 "out.go" ⟨[], namedTwiceFlags.drop 1, rfl, by decide⟩
  have hengine : o.engine = "auto" := hfollow.engine.2 (by unfold NotGiven; decide)
  have hinputs : o.inputs = ["x"] := hfollow.inputs (by unfold NotGiven; decide)
  have htest : o.testFile = true := by
    obtain ⟨b, hb, hiff⟩ := hfollow.testFile switchedOn ⟨namedTwiceFlags.take 5, [], rfl, by decide⟩
    cases (show bool? switchedOn = some true from rfl).symm.trans hb
    exact hiff.mpr (.inl rfl)
  obtain ⟨source, name, package, output, engine, testFile, inputs⟩ := o
  simp_all

def refusedFlags : List (Flag × Bytes) := [(.testFile, "false"), (.output, "a.go")]

def testFileWanted : Config := { Config.default with testFile := true }

theorem options_of_refused_testFile :
    ∃ fs words, Spells (knownFlags (some .gen)) ["--test-file=false", "-o", "a.go", "'a'"] fs words ∧
      LastGiven fs .testFile "false" ∧ bool? "false" = some false ∧
      (Job.options ⟨⟨fs, words⟩, testFileWanted, false⟩ "'a'").testFile = true := by
  have hspells : Spells (knownFlags (some .gen)) ["--test-file=false", "-o", "a.go", "'a'"] refusedFlags ["'a'"] := by
    rw [← readFlags_eq_ok_iff (a := ⟨refusedFlags, ["'a'"]⟩)]
    decide +kernel
  exact ⟨refusedFlags, ["'a'"], hspells, ⟨[], [(.output, "a.go")], rfl, by decide⟩, by decide, by decide⟩

end VerboseExpr.CommandLine
