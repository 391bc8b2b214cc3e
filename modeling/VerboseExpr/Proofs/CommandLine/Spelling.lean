import VerboseExpr.CommandLine.Flag
import Mathlib.Data.List.Basic
import VerboseExpr.Proofs.Except

/-!
How flags are written. A flag stands under its name, or under its letter among others. Its value comes after an equals
sign, right after the letter, or is the next argument. Main statement: arguments are read exactly if they spell flags,
and as what they spell.
-/

namespace VerboseExpr.CommandLine

namespace Flag

def all : List Flag :=
  [config, engine, file, force, help, input, json, name, noColor, output, package, subject, testFile, tokens, tree,
    verbose]

theorem mem_all (f : Flag) : f ∈ all := by cases f <;> decide

theorem longName_injective {f g : Flag} (h : f.longName = g.longName) : f = g := by
  have hall : ∀ f ∈ all, ∀ g ∈ all, f.longName = g.longName → f = g := by decide
  exact hall f (mem_all f) g (mem_all g) h

theorem letter?_injective {f g : Flag} {l : UInt8} (hf : f.letter? = some l) (hg : g.letter? = some l) : f = g := by
  have hall : ∀ f ∈ all, ∀ g ∈ all, f.letter?.isSome → f.letter? = g.letter? → f = g := by decide
  exact hall f (mem_all f) g (mem_all g) (by rw [hf]; rfl) (hf.trans hg.symm)

theorem exists_longName (f : Flag) :
    ∃ b name, f.longName = b :: name ∧ (b == 0x2D || b == 0x3D) = false ∧ (0x3D : UInt8) ∉ f.longName := by
  have hall : ∀ f ∈ all, f.longName.head?.all (fun b => b == 0x2D || b == 0x3D) = false ∧
      (0x3D : UInt8) ∉ f.longName := by
    decide
  obtain ⟨hhead, hequals⟩ := hall f (mem_all f)
  cases hname : f.longName with
  | nil => simp [hname] at hhead
  | cons b name => exact ⟨b, name, rfl, by simpa [hname] using hhead, hname ▸ hequals⟩

theorem letter?_ne (f : Flag) : f.letter? ≠ some 0x74 ∧ f.letter? ≠ some 0x2D := by
  have hall : ∀ f ∈ all, f.letter? ≠ some 0x74 ∧ f.letter? ≠ some 0x2D := by decide
  exact hall f (mem_all f)

/-- Can the flag have the value? -/
def Takes (f : Flag) (value : Bytes) : Prop := f.kind = .switch → (bool? value).isSome

end Flag

section Spells

variable (known : List Flag)

/-- What stands after two dashes: a flag by its name, with its value and the next argument if the value is that. -/
inductive Named : Bytes → Flag × Bytes → Option Bytes → Prop
  | assigned {f : Flag} {v : Bytes} : f ∈ known → f.Takes v → Named (f.longName ++ 0x3D :: v) (f, v) none
  | switched {f : Flag} : f ∈ known → f.kind = .switch → Named f.longName (f, switchedOn) none
  | followed {f : Flag} {v : Bytes} : f ∈ known → f.kind ≠ .switch → Named f.longName (f, v) (some v)

/-- What stands after one dash: flags by their letters, and the next argument if it is the value of the last one. -/
inductive Lettered : Bytes → List (Flag × Bytes) → Option Bytes → Prop
  | done : Lettered [] [] none
  | ignored {ls : Bytes} : ls.startsWith "test." → Lettered ls [] none
  | assigned {f : Flag} {l : UInt8} {v : Bytes} : f ∈ known → f.letter? = some l → v ≠ [] → f.Takes v →
    Lettered (l :: 0x3D :: v) [(f, v)] none
  | switched {f : Flag} {l : UInt8} {ls : Bytes} {fs : List (Flag × Bytes)} {next? : Option Bytes} :
    f ∈ known → f.letter? = some l → ¬(ls.head? = some 0x3D ∧ 1 < ls.length) → f.kind = .switch →
    Lettered ls fs next? → Lettered (l :: ls) ((f, switchedOn) :: fs) next?
  | attached {f : Flag} {l : UInt8} {v : Bytes} : f ∈ known → f.letter? = some l →
    ¬(v.head? = some 0x3D ∧ 1 < v.length) → f.kind ≠ .switch → v ≠ [] → Lettered (l :: v) [(f, v)] none
  | followed {f : Flag} {l : UInt8} {v : Bytes} : f ∈ known → f.letter? = some l → f.kind ≠ .switch →
    Lettered [l] [(f, v)] (some v)

/-- The flags, with their values and in order, and the other words that arguments spell. -/
inductive Spells : List Bytes → List (Flag × Bytes) → List Bytes → Prop
  | done : Spells [] [] []
  /-- Two dashes end the flags. -/
  | ended (words : List Bytes) : Spells ([0x2D, 0x2D] :: words) [] words
  | word {w : Bytes} {args : List Bytes} {fs : List (Flag × Bytes)} {words : List Bytes} :
    w.head? ≠ some 0x2D ∨ w = [0x2D] → Spells args fs words → Spells (w :: args) fs (w :: words)
  | named {body : Bytes} {f : Flag × Bytes} {next? : Option Bytes} {args : List Bytes} {fs : List (Flag × Bytes)}
    {words : List Bytes} : Named known body f next? → Spells args fs words →
    Spells ((0x2D :: 0x2D :: body) :: (next?.toList ++ args)) (f :: fs) words
  | lettered {l : UInt8} {ls : Bytes} {gs : List (Flag × Bytes)} {next? : Option Bytes} {args : List Bytes}
    {fs : List (Flag × Bytes)} {words : List Bytes} : l ≠ 0x2D → Lettered known (l :: ls) gs next? →
    Spells args fs words → Spells ((0x2D :: l :: ls) :: (next?.toList ++ args)) (gs ++ fs) words

end Spells

theorem checked_eq_ok_iff {f : Flag} {v : Bytes} {p : Flag × Bytes} : checked f v = .ok p ↔ p = (f, v) ∧ f.Takes v := by
  have htakes : (f.kind = .switch && (bool? v).isNone) = true ↔ ¬f.Takes v := by
    unfold Flag.Takes
    cases bool? v <;> simp
  unfold checked
  split
  . next h => simp [htakes.mp h]
  . next h =>
    have h : f.Takes v := not_not.mp fun hnot => h (htakes.mpr hnot)
    rw [Except.ok.injEq, eq_comm, and_iff_left h]

theorem find?_eq_some_iff_of_unique {α : Type} {p : α → Bool} (hp : ∀ a b, p a → p b → a = b) {l : List α} {a : α} :
    l.find? p = some a ↔ a ∈ l ∧ p a := by
  constructor
  . exact fun h => ⟨List.mem_of_find?_eq_some h, List.find?_some h⟩
  . rintro ⟨hmem, ha⟩
    cases hfind : l.find? p with
    | none => exact absurd ha (by simpa using List.find?_eq_none.mp hfind a hmem)
    | some b => rw [hp a b ha (List.find?_some hfind)]

theorem find?_longName {known : List Flag} {name : Bytes} {f : Flag} :
    known.find? (·.longName == name) = some f ↔ f ∈ known ∧ f.longName = name := by
  rw [find?_eq_some_iff_of_unique, beq_iff_eq]
  intro f g hf hg
  exact Flag.longName_injective ((beq_iff_eq.mp hf).trans (beq_iff_eq.mp hg).symm)

theorem find?_letter? {known : List Flag} {l : UInt8} {f : Flag} :
    known.find? (·.letter? == some l) = some f ↔ f ∈ known ∧ f.letter? = some l := by
  rw [find?_eq_some_iff_of_unique, beq_iff_eq]
  intro f g hf hg
  exact Flag.letter?_injective (beq_iff_eq.mp hf) (beq_iff_eq.mp hg)

section Named

variable {known : List Flag} {body : Bytes} {next? : Option Bytes} {f : Flag} {v : Bytes} {used : Bool}

theorem longFlag_longName (hf : f ∈ known) {tail : Bytes} (htail : ∀ b ∈ tail.head?, b = 0x3D) :
    longFlag known (0x2D :: 0x2D :: (f.longName ++ tail)) next? =
      if tail ≠ [] then (checked f (tail.drop 1)).map fun p => (p.1, p.2, false)
      else if f.kind = .switch then .ok (f, switchedOn, false)
      else next?.elim (.error (.missingValue (0x2D :: 0x2D :: f.longName))) fun v => .ok (f, v, true) := by
  obtain ⟨b, name, hname, hhead, hequals⟩ := f.exists_longName
  have hbody : (f.longName ++ tail).head?.all (fun c => c == 0x2D || c == 0x3D) = false := by simpa [hname] using hhead
  -- the name ends at the first equals sign, since it has none itself
  have htake : (f.longName ++ tail).takeWhile (· != 0x3D) = f.longName := by
    have hall : ∀ c ∈ f.longName, (c != 0x3D) = true := by
      intro c hc
      rw [bne_iff_ne]
      rintro rfl
      exact hequals hc
    rw [List.takeWhile_append_of_pos hall]
    cases tail with
    | nil => simp
    | cons c tail => simp [htail c rfl]
  have hcontains : (f.longName ++ tail).contains 0x3D = !tail.isEmpty := by
    rw [List.contains_eq_mem]
    cases tail with
    | nil => simpa using hequals
    | cons c tail => simp [htail c rfl]
  have hfind : known.find? (·.longName == f.longName) = some f := find?_longName.mpr ⟨hf, rfl⟩
  unfold longFlag
  simp only [List.drop_succ_cons, List.drop_zero, hbody, htake, hfind, hcontains, bind, Except.bind]
  rw [if_neg (by decide)]
  cases tail with
  | nil =>
    by_cases hkind : f.kind = .switch
    . simp [hkind, pure, Except.pure]
    . cases next? with
      | none => simp [hkind, throw, throwThe, MonadExceptOf.throw]
      | some v =>
        have hchecked : checked f v = .ok (f, v) := checked_eq_ok_iff.mpr ⟨rfl, fun h => absurd h hkind⟩
        simp [hkind, hchecked, pure, Except.pure]
  | cons c tail =>
    rw [List.drop_append, List.drop_of_length_le (Nat.le_succ _), Nat.add_sub_cancel_left]
    cases hchecked : checked f tail <;> simp [hchecked, Except.map, pure, Except.pure]

theorem longFlag_bare (hf : f ∈ known) :
    longFlag known (0x2D :: 0x2D :: f.longName) next? =
      if f.kind = .switch then .ok (f, switchedOn, false)
      else next?.elim (.error (.missingValue (0x2D :: 0x2D :: f.longName))) fun v => .ok (f, v, true) := by
  have hflag : longFlag known (0x2D :: 0x2D :: (f.longName ++ [])) next? = _ := longFlag_longName hf (by simp)
  simpa using hflag

theorem named_of_longFlag (h : longFlag known (0x2D :: 0x2D :: body) next? = .ok (f, v, used)) :
    ∃ taken?, Named known body (f, v) taken? ∧ used = taken?.isSome ∧ ∀ w ∈ taken?, next? = some w := by
  have hknown : ∃ g ∈ known, g.longName = body.takeWhile (· != 0x3D) := by
    cases hfind : known.find? (·.longName == body.takeWhile (· != 0x3D)) with
    | none =>
      unfold longFlag at h
      simp only [List.drop_succ_cons, List.drop_zero, hfind, bind, Except.bind, throw, throwThe,
        MonadExceptOf.throw] at h
      split at h <;> contradiction
    | some g => exact ⟨g, find?_longName.mp hfind⟩
  obtain ⟨g, hg, hname⟩ := hknown
  have htail : ∀ b ∈ (body.dropWhile (· != 0x3D)).head?, b = 0x3D := by
    intro b hb
    have hstop := List.head?_dropWhile_not (fun c : UInt8 => c != 0x3D) body
    rw [hb] at hstop
    simpa using hstop
  -- the argument is the name of a flag and a rest, which is empty or begins with an equals sign
  rw [← List.takeWhile_append_dropWhile (p := (· != 0x3D)) (l := body), ← hname, longFlag_longName hg htail] at h
  rw [← List.takeWhile_append_dropWhile (p := (· != 0x3D)) (l := body), ← hname]
  generalize body.dropWhile (· != 0x3D) = tail at h htail ⊢
  cases tail with
  | nil =>
    rw [List.append_nil]
    simp only [ne_eq, not_true_eq_false, if_false] at h
    split at h
    . next hkind =>
      cases h
      exact ⟨none, .switched hg hkind, rfl, by simp⟩
    . next hkind =>
      cases next? with
      | none => simp only [Option.elim_none, reduceCtorEq] at h
      | some w =>
        cases h
        exact ⟨some v, .followed hg hkind, rfl, by simp⟩
  | cons c tail =>
    rw [htail c rfl]
    simp only [ne_eq, reduceCtorEq, not_false_eq_true, if_true, List.drop_succ_cons, List.drop_zero] at h
    obtain ⟨p, hchecked, heq⟩ := Except.map_eq_ok_iff.1 h
    obtain ⟨rfl, htakes⟩ := checked_eq_ok_iff.mp hchecked
    cases heq
    exact ⟨none, .assigned hg htakes, rfl, by simp⟩

theorem longFlag_of_named {taken? : Option Bytes} (h : Named known body (f, v) taken?)
    (hnext : ∀ w ∈ taken?, next? = some w) :
    longFlag known (0x2D :: 0x2D :: body) next? = .ok (f, v, taken?.isSome) := by
  cases h with
  | assigned hf hv =>
    rw [longFlag_longName hf (by simp)]
    simp [checked_eq_ok_iff.mpr ⟨rfl, hv⟩, Except.map]
  | switched hf hkind =>
    rw [longFlag_bare hf, if_pos hkind]
    rfl
  | followed hf hkind =>
    rw [longFlag_bare hf, if_neg hkind, hnext v rfl]
    rfl

end Named

section Lettered

variable {known : List Flag} {next? : Option Bytes} {f : Flag} {l : UInt8} {ls : Bytes}

theorem letterFlags_cons (hf : f ∈ known) (hl : f.letter? = some l) :
    letterFlags known next? (l :: ls) =
      if ls.head? = some 0x3D ∧ 1 < ls.length then (checked f (ls.drop 1)).map fun p => ([p], false)
      else if f.kind = .switch then (letterFlags known next? ls).map fun r => ((f, switchedOn) :: r.1, r.2)
      else if ls ≠ [] then .ok ([(f, ls)], false)
      else next?.elim (.error (.missingLetterValue l [l])) fun v => .ok ([(f, v)], true) := by
  -- letters that belong to a flag do not begin like an option of a test run
  have htest : Bytes.startsWith (l :: ls) (Bytes.ofString "test.") = false := by
    rw [Bool.eq_false_iff]
    intro hstarts
    obtain ⟨more, hmore⟩ := List.isPrefixOf_iff_prefix.mp hstarts
    have hhead : l = 0x74 := (List.head_eq_of_cons_eq hmore).symm
    exact f.letter?_ne.1 (hhead ▸ hl)
  have hfind : known.find? (·.letter? == some l) = some f := find?_letter?.mpr ⟨hf, hl⟩
  have hchecked : ∀ v, f.kind ≠ .switch → checked f v = .ok (f, v) :=
    fun v hkind => checked_eq_ok_iff.mpr ⟨rfl, fun h => absurd h hkind⟩
  have hequals : ((ls.head? == some 0x3D && decide (1 < ls.length)) = true) =
      (ls.head? = some 0x3D ∧ 1 < ls.length) := by simp
  rw [letterFlags]
  simp only [htest, hfind, hequals, bind, Except.bind]
  rw [if_neg (by decide)]
  split
  . cases checked f (ls.drop 1) <;> rfl
  . split
    . cases letterFlags known next? ls <;> rfl
    . next hkind =>
      rw [hchecked _ hkind]
      cases ls with
      | cons c ls => rfl
      | nil =>
        cases next? with
        | none => rfl
        | some v =>
          simp only [hchecked v hkind]
          rfl

theorem lettered_of_letterFlags {fs : List (Flag × Bytes)} {used : Bool}
    (h : letterFlags known next? ls = .ok (fs, used)) :
    ∃ taken?, Lettered known ls fs taken? ∧ used = taken?.isSome ∧ ∀ w ∈ taken?, next? = some w := by
  induction ls generalizing fs used with
  | nil =>
    cases h
    exact ⟨none, .done, rfl, by simp⟩
  | cons l ls ih =>
    by_cases htest : Bytes.startsWith (l :: ls) (Bytes.ofString "test.")
    . rw [letterFlags, if_pos htest] at h
      cases h
      exact ⟨none, .ignored htest, rfl, by simp⟩
    . cases hfind : known.find? (·.letter? == some l) with
      | none =>
        rw [letterFlags, if_neg htest, hfind] at h
        contradiction
      | some f =>
        obtain ⟨hf, hl⟩ := find?_letter?.mp hfind
        rw [letterFlags_cons hf hl] at h
        -- the value is behind an equals sign, not needed, the rest of the letters, or the next argument
        split_ifs at h with hvalue hkind hls
        . -- an equals sign, and the value behind it
          obtain ⟨v, rfl⟩ := List.head?_eq_some_iff.1 hvalue.1
          have hv : v ≠ [] := by
            rintro rfl
            simp at hvalue
          obtain ⟨p, hchecked, heq⟩ := Except.map_eq_ok_iff.1 h
          obtain ⟨rfl, htakes⟩ := checked_eq_ok_iff.mp hchecked
          cases heq
          exact ⟨none, .assigned hf hl hv htakes, rfl, by simp⟩
        . obtain ⟨r, hmore, heq⟩ := Except.map_eq_ok_iff.1 h
          cases heq
          obtain ⟨taken?, hlettered, hused, hnext⟩ := ih hmore
          exact ⟨taken?, .switched hf hl hvalue hkind hlettered, hused, hnext⟩
        . cases h
          exact ⟨none, .attached hf hl hvalue hkind hls, rfl, by simp⟩
        . cases next? with
          | none => contradiction
          | some v =>
            cases h
            rw [not_not] at hls
            exact ⟨some v, hls ▸ .followed hf hl hkind, rfl, by simp⟩

theorem letterFlags_of_lettered {fs : List (Flag × Bytes)} {taken? : Option Bytes} (h : Lettered known ls fs taken?)
    (hnext : ∀ w ∈ taken?, next? = some w) : letterFlags known next? ls = .ok (fs, taken?.isSome) := by
  induction h with
  | done => rfl
  | @ignored ls htest =>
    cases ls with
    | nil => rfl
    | cons l ls =>
      rw [letterFlags, if_pos htest]
      rfl
  | assigned hf hl hv htakes =>
    have hlength := List.length_pos_iff.mpr hv
    rw [letterFlags_cons hf hl, if_pos ⟨rfl, by simpa using hlength⟩]
    simp [checked_eq_ok_iff.mpr ⟨rfl, htakes⟩, Except.map]
  | switched hf hl hvalue hkind _ ih =>
    rw [letterFlags_cons hf hl, if_neg hvalue, if_pos hkind, ih hnext]
    rfl
  | attached hf hl hvalue hkind hv =>
    rw [letterFlags_cons hf hl, if_neg hvalue, if_neg hkind, if_pos hv]
    rfl
  | followed hf hl hkind =>
    rw [letterFlags_cons hf hl, if_neg (by simp), if_neg hkind, if_neg (by simp), hnext _ rfl]
    rfl

end Lettered

section Read

variable {known : List Flag}

theorem eq_taken_append {taken? : Option Bytes} {args : List Bytes} (h : ∀ w ∈ taken?, args.head? = some w) :
    args = taken?.toList ++ if taken?.isSome then args.drop 1 else args := by
  cases taken? with
  | none => rfl
  | some w =>
    cases args with
    | nil => simpa using h w rfl
    | cons v args =>
      cases h w rfl
      rfl

theorem head?_taken {taken? : Option Bytes} (args : List Bytes) :
    ∀ w ∈ taken?, (taken?.toList ++ args).head? = some w := by
  rintro w rfl
  rfl

theorem after_taken (taken? : Option Bytes) (args : List Bytes) :
    (if taken?.isSome then (taken?.toList ++ args).drop 1 else taken?.toList ++ args) = args := by
  cases taken? <;> rfl

theorem head?_ne_or_eq {w : Bytes} (hsingle : ∀ b v, w ≠ 0x2D :: b :: v) : w.head? ≠ some 0x2D ∨ w = [0x2D] := by
  cases w with
  | nil => exact .inl (by simp)
  | cons b w =>
    by_cases hb : b = 0x2D
    . cases w with
      | nil => exact .inr (by rw [hb])
      | cons c w => exact absurd (by rw [hb]) (hsingle c w)
    . exact .inl (by simpa using hb)

theorem spells_of_readFlags {args : List Bytes} {a : Arguments} (h : readFlags known args = .ok a) :
    Spells known args a.flags a.words := by
  -- the induction is that of the reader, which goes on behind the argument that a flag takes
  induction args using readFlags.induct generalizing a with
  | case1 =>
    rw [readFlags] at h
    cases h
    exact .done
  | case2 rest =>
    rw [readFlags] at h
    cases h
    exact .ended rest
  | case3 rest body hbody ih =>
    rw [readFlags] at h
    . obtain ⟨⟨f, v, used⟩, hlong, hrest⟩ := Except.bind_eq_ok_iff.1 h
      obtain ⟨taken?, hnamed, rfl, hnext⟩ := named_of_longFlag hlong
      obtain ⟨more, hmore, heq⟩ := Except.bind_eq_ok_iff.1 hrest
      cases heq
      rw [eq_taken_append hnext]
      exact .named hnamed (ih _ hmore)
    . exact hbody
  | case4 rest l ls _ hl ih =>
    rw [readFlags] at h
    . obtain ⟨⟨gs, used⟩, hletters, hrest⟩ := Except.bind_eq_ok_iff.1 h
      obtain ⟨taken?, hlettered, rfl, hnext⟩ := lettered_of_letterFlags hletters
      obtain ⟨more, hmore, heq⟩ := Except.bind_eq_ok_iff.1 hrest
      cases heq
      rw [eq_taken_append hnext]
      exact .lettered hl hlettered (ih _ hmore)
    . exact fun h _ => hl h
    . exact hl
  | case5 w rest _ _ hsingle ih =>
    rw [readFlags] at h
    . obtain ⟨more, hmore, heq⟩ := Except.bind_eq_ok_iff.1 h
      cases heq
      exact .word (head?_ne_or_eq hsingle) (ih hmore)
    all_goals assumption

theorem readFlags_of_spells {args words : List Bytes} {fs : List (Flag × Bytes)} (h : Spells known args fs words) :
    readFlags known args = .ok ⟨fs, words⟩ := by
  induction h with
  | done => rw [readFlags]
  | ended words => rw [readFlags]
  | @word w args fs words hw _ ih =>
    -- a word does not begin with a dash, so that no other case of the reader applies
    have hletter : ∀ b v, w ≠ 0x2D :: b :: v := by
      rintro b v rfl
      simp at hw
    rw [readFlags, ih]
    . rfl
    . exact hletter _ _
    . exact fun v => hletter _ v
    . exact hletter
  | @named body f next? args fs words hnamed _ ih =>
    have hbody : body ≠ [] := by
      cases hnamed <;> obtain ⟨b, name, hname, -⟩ := Flag.exists_longName (by assumption) <;> simp [hname]
    rw [readFlags, longFlag_of_named hnamed (head?_taken args)]
    . simp only [bind, Except.bind, after_taken, ih]
      rfl
    . exact hbody
  | @lettered l ls gs next? args fs words hl hlettered _ ih =>
    rw [readFlags, letterFlags_of_lettered hlettered (head?_taken args)]
    . simp only [bind, Except.bind, after_taken, ih]
      rfl
    . exact fun h _ => hl h
    . exact hl

/-- Arguments are read exactly if they spell flags, and as what they spell. -/
theorem readFlags_eq_ok_iff {args : List Bytes} {a : Arguments} :
    readFlags known args = .ok a ↔ Spells known args a.flags a.words :=
  ⟨spells_of_readFlags, readFlags_of_spells⟩

end Read

end VerboseExpr.CommandLine
