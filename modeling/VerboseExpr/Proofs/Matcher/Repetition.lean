import Mathlib
import VerboseExpr.Proofs.Matcher.Quotation
import VerboseExpr.Proofs.Pattern.Correct
import VerboseExpr.Proofs.Regex.Counting
import VerboseExpr.Proofs.Regex.Repetition

/-!
Counted repetitions of one character from end to end: the counts are taken as they are written, read by an engine
and carried out in a search. Main statement: an engine finds the first and longest copies of the character that
the numbers allow, except that the automaton engine does so only if no number has a leading zero.
-/

namespace VerboseExpr

open Element Pattern Regex

/-- Does the result tell where the first and longest copies of a text stand in the subject? -/
def MatchResult.LocatesCopies (r : MatchResult) (xs subject : Bytes) (least : Nat) (most : Option Nat) : Prop :=
  if r.found then ∃ n, LongestAt xs subject least most r.offset n ∧ r.text = copies xs n
  else ∀ n, Between least most n → ¬copies xs n <:+: subject

/-- Does the matcher find the first and longest copies of a text in every subject of valid text? -/
def Matcher.FindsCopies (m : Matcher) (xs : Bytes) (least : Nat) (most : Option Nat) : Prop :=
  ∀ subject, Utf8.isValid subject → (m.find subject).LocatesCopies xs subject least most

namespace Regex.Counts

def command {α : Type} : Counts α → Command
  | exactly _ => .times
  | atLeast _ => .minTimes
  | between _ _ => .minMaxTimes

/-- The tree of a repetition of one character. -/
def tree (c : Counts Element) (x : Char) : Element :=
  Element.command c.command.name (c.toList ++ [literal (Bytes.ofChar x)])

def characters (c : Counts Element) : Counts (List Char) := c.map fun e => Utf8.decode e.value

def numbers (c : Counts Element) : Counts Nat := c.map number

end Regex.Counts

section Emission

theorem ofChars_decode_integer {v : Bytes} (h : isInteger v) : Bytes.ofChars (Utf8.decode v) = v := by
  obtain ⟨ds, rfl, -⟩ := exists_digits h
  rw [Utf8.decode_ofChars]

theorem isNumeral_decode {v : Bytes} (h : isInteger v) : isNumeral (Utf8.decode v) := by
  obtain ⟨ds, rfl, hne, hdigits, -⟩ := exists_digits h
  rw [Utf8.decode_ofChars, isNumeral, hdigits]
  simpa using hne

theorem bareCommand?_integer {e : Element} (h : isInteger e.value) : e.bareCommand? = none := by
  cases hbare : e.bareCommand? with
  | none => rfl
  | some c =>
    have hname := (bareCommand?_eq_some hbare).2.1
    rw [ofName?_integer h] at hname
    contradiction

theorem emitAll_integers {name : Bytes} {counts index : Nat} {es rest : List Element} {parts : List Bytes}
    (hes : ∀ e ∈ es, isInteger e.value) (hcounts : counts = index + es.length)
    (hrest : emitAll name counts counts rest = .ok parts) :
    emitAll name counts index (es ++ rest) = .ok (es.map value ++ parts) := by
  induction es generalizing index with
  | nil =>
    rw [List.length_nil, Nat.add_zero] at hcounts
    rw [← hcounts]
    exact hrest
  | cons e es ih =>
    obtain ⟨he, hes⟩ := List.forall_mem_cons.1 hes
    rw [List.length_cons] at hcounts
    rw [List.cons_append, emitAll_cons_eq_ok_iff]
    refine ⟨e.value, es.map value ++ parts, ?_, ih hes (by omega), rfl⟩
    exact (operand_of_lt (by omega) name e e.value).2 ⟨he, rfl⟩

theorem render_counts {c : Counts Element} (hc : ∀ e ∈ c.toList, isInteger e.value) (x : Char) :
    c.command.render c.command.name (c.toList.map value ++ [escape (Bytes.ofChar x)]) =
      some (Bytes.ofChars (repetitionChars x c.characters)) := by
  rw [escape_ofChar, repetitionChars]
  cases c with
  | exactly e =>
    have he := ofChars_decode_integer (hc e List.mem_cons_self)
    have hwrap := wrap_count [escapeChar x] (Utf8.decode e.value ++ ['\x7d'])
    rw [Bytes.ofChars_append, he, ← List.append_assoc, List.flatten_singleton] at hwrap
    exact congrArg some hwrap
  | atLeast e =>
    have he := ofChars_decode_integer (hc e List.mem_cons_self)
    have hwrap := wrap_count [escapeChar x] (Utf8.decode e.value ++ [',', '\x7d'])
    rw [Bytes.ofChars_append, he, ← List.append_assoc, List.flatten_singleton] at hwrap
    exact congrArg some hwrap
  | between e f =>
    obtain ⟨he, hf⟩ : isInteger e.value ∧ isInteger f.value := by simpa [Counts.toList] using hc
    have hwrap := wrap_count [escapeChar x] (Utf8.decode e.value ++ ',' :: (Utf8.decode f.value ++ ['\x7d']))
    rw [Bytes.ofChars_append, ofChars_decode_integer he, Bytes.ofChars_cons, Bytes.ofChars_append,
      ofChars_decode_integer hf, ← List.append_assoc, ← List.append_assoc, ← List.append_assoc,
      List.flatten_singleton] at hwrap
    exact congrArg some hwrap

theorem emit_tree {c : Counts Element} (hc : ∀ e ∈ c.toList, isInteger e.value) (x : Char) :
    emit (c.tree x) = .ok (Bytes.ofChars (repetitionChars x c.characters)) := by
  have hfold : fold (c.toList ++ [literal (Bytes.ofChar x)]) = c.toList ++ [literal (Bytes.ofChar x)] := by
    apply fold_eq_self
    intro e he
    rw [List.dropLast_concat] at he
    exact bareCommand?_integer (hc e he)
  have hlast : emitAll c.command.name c.command.counts c.command.counts [literal (Bytes.ofChar x)] =
      .ok [escape (Bytes.ofChar x)] := by
    rw [emitAll_cons_eq_ok_iff]
    refine ⟨_, [], ?_, by rw [emitAll], rfl⟩
    rw [operand_of_le (Nat.le_refl _), literal, emit_literal]
  have hcounts : c.command.counts = 0 + c.toList.length := by cases c <;> rfl
  have hparts := emitAll_integers hc hcounts hlast
  rw [Counts.tree, Element.command, emit_of_ne_literal (by decide), hfold]
  apply assemble_eq (ofName?_name c.command) _ hparts (render_counts hc x)
  cases c with
  | exactly _ | atLeast _ => exact accepts_atLeast.2 (Nat.le_refl 2)
  | between _ _ => exact accepts_atLeast.2 (Nat.le_refl 3)

end Emission

namespace Matcher

theorem ofChar_eq (x : Char) : Bytes.ofChar x = Bytes.ofChars [x] := by
  simp [Bytes.ofChars]

theorem search_repetition (engine : Engine) (x : Char) {c : Counts Nat}
    (hsmall : Automaton.countAllowed c.least c.most) (subject : Array Char) :
    search engine (repetition x c) subject = firstRun? c.least c.most x subject := by
  obtain ⟨-, hmost⟩ := Automaton.countAllowed_iff.1 hsmall
  obtain ⟨-, -, hleast⟩ := Backtracking.countAllowed_of_small hsmall
  have hle : ∀ m ∈ c.most, c.least ≤ m := fun m hm => (hmost m hm).2
  cases engine with
  | automaton => exact Automaton.find?_rep x subject hle
  | backtracking => exact Backtracking.find?_rep x subject hle hleast

theorem find_repetition (pattern : Bytes) (engine : Engine) (x : Char) {c : Counts Nat}
    (hsmall : Automaton.countAllowed c.least c.most) (cs : List Char) :
    (find ⟨pattern, engine, repetition x c⟩ (Bytes.ofChars cs)).LocatesCopies (Bytes.ofChar x) (Bytes.ofChars cs)
      c.least c.most := by
  obtain ⟨-, hmost⟩ := Automaton.countAllowed_iff.1 hsmall
  have hspec := firstRun?_spec (fun m hm => (hmost m hm).2) x cs.toArray
  rw [find_eq, search_repetition engine x hsmall, ofChar_eq]
  cases hrun : firstRun? c.least c.most x cs.toArray with
  | none =>
    rw [hrun] at hspec
    intro n hn
    rw [copies_ofChars, Utf8.isInfix_ofChars_iff]
    exact hspec n hn
  | some span =>
    obtain ⟨start, stop⟩ := span
    rw [hrun] at hspec
    obtain ⟨n, hlongest, rfl⟩ := hspec
    refine ⟨n, hlongest.ofChars, ?_⟩
    rw [copies_ofChars]
    exact congrArg Bytes.ofChars (drop_take_of_prefix_drop hlongest.here)

theorem not_infix_replicate (x : Char) (c : Counts (List Char)) (n : Nat) :
    ¬x :: '\x7b' :: c.braces <:+: List.replicate n x := by
  intro h
  have hall : ∀ d ∈ x :: '\x7b' :: c.braces, d = x := fun d hd => List.eq_of_mem_replicate (h.subset hd)
  have hopen : '\x7b' = x := hall '\x7b' (by simp)
  have hclose : '\x7d' = x := hall '\x7d' (by cases c <;> simp [Counts.braces])
  rw [← hclose] at hopen
  simp at hopen

theorem not_locatesCopies_text (pattern : Bytes) (engine : Engine) (x : Char) {c : Counts Nat}
    (hsmall : Automaton.countAllowed c.least c.most) (ds : Counts (List Char)) :
    ¬(find ⟨pattern, engine, text (x :: '\x7b' :: ds.braces)⟩ (Bytes.ofChars (List.replicate c.least x))).LocatesCopies
      (Bytes.ofChar x) (Bytes.ofChars (List.replicate c.least x)) c.least c.most := by
  obtain ⟨-, hmost⟩ := Automaton.countAllowed_iff.1 hsmall
  have hleast : Between c.least c.most c.least := ⟨Nat.le_refl _, fun m hm => (hmost m hm).2⟩
  have hsubject : copies (Bytes.ofChar x) c.least = Bytes.ofChars (List.replicate c.least x) := by
    rw [ofChar_eq, copies_ofChars, copies_singleton]
  intro hlocates
  obtain ⟨-, hfound⟩ | ⟨i, hfirst, -⟩ :=
    find_text pattern engine (x :: '\x7b' :: ds.braces) (List.replicate c.least x)
  . rw [MatchResult.LocatesCopies, hfound] at hlocates
    apply hlocates c.least hleast
    simp only [hsubject, List.infix_rfl]
  . exact not_infix_replicate x ds c.least (isInfix_of_prefix_drop hfirst.here)

theorem findsCopies_repetition (pattern : Bytes) (engine : Engine) (x : Char) {c : Counts Nat}
    (hsmall : Automaton.countAllowed c.least c.most) :
    FindsCopies ⟨pattern, engine, repetition x c⟩ (Bytes.ofChar x) c.least c.most := by
  intro subject hsubject
  rw [← Utf8.ofChars_decode hsubject]
  exact find_repetition pattern engine x hsmall _

theorem forEngine_repetition_iff {c : Counts (List Char)} (hc : c.toList.all isNumeral)
    (hsmall : Automaton.countAllowed (c.map decimal).least (c.map decimal).most) (x : Char) (engine : Engine) :
    (∃ m, forEngine (Bytes.ofChars (repetitionChars x c)) engine = .ok m ∧
        m.FindsCopies (Bytes.ofChar x) (c.map decimal).least (c.map decimal).most) ↔
      (engine = .automaton → c.toList.all isCanonical) := by
  cases engine with
  | backtracking =>
    have hengine : forEngine (Bytes.ofChars (repetitionChars x c)) .backtracking =
        .ok ⟨Bytes.ofChars (repetitionChars x c), .backtracking, repetition x (c.map decimal)⟩ := by
      simp only [forEngine, Backtracking.read?_repetition x hc hsmall]
    constructor
    . intro _ hautomaton
      cases hautomaton
    . intro _
      exact ⟨_, hengine, findsCopies_repetition _ _ x hsmall⟩
  | automaton =>
    constructor
    . rintro ⟨m, hm, hfinds⟩ -
      -- with a zero in front the count is read as a text, which is not what is to be found
      refine Decidable.byContradiction fun hzero => ?_
      cases hread : Automaton.read? (Bytes.ofChars (repetitionChars x c)) with
      | none => simp [forEngine, hread] at hm
      | some r =>
        obtain rfl := Automaton.eq_of_read?_repetition hc hzero hread
        simp only [forEngine, hread, Except.ok.injEq] at hm
        subst hm
        exact not_locatesCopies_text _ .automaton x hsmall c (hfinds _ (Utf8.isValid_ofChars _))
    . intro hcanonical
      have hengine : forEngine (Bytes.ofChars (repetitionChars x c)) .automaton =
          .ok ⟨Bytes.ofChars (repetitionChars x c), .automaton, repetition x (c.map decimal)⟩ := by
        simp only [forEngine, Automaton.read?_repetition x hc (hcanonical rfl) hsmall]
      exact ⟨_, hengine, findsCopies_repetition _ _ x hsmall⟩

end Matcher

theorem Regex.Counts.countAllowed_of_le {c : Counts Nat} (hle : ∀ m ∈ c.most, c.least ≤ m)
    (hsmall : ∀ n ∈ c.toList, n ≤ 1000) : Automaton.countAllowed c.least c.most := by
  rw [Automaton.countAllowed_iff, Automaton.maxCount]
  cases c with
  | exactly n | atLeast n => simpa [least, most, toList] using hsmall
  | between n m =>
    obtain ⟨hn, hm⟩ : n ≤ 1000 ∧ m ≤ 1000 := by simpa [toList] using hsmall
    have := hle m rfl
    simpa [least, most] using ⟨hn, hm, this⟩

/-- The pattern of a repetition of one character finds the first and longest copies that its counts allow, except
that the automaton engine takes counts with a leading zero for text. -/
theorem findsCopies_tree_iff {c : Counts Element} (hc : ∀ e ∈ c.toList, isInteger e.value)
    (hle : ∀ m ∈ c.numbers.most, c.numbers.least ≤ m) (hsmall : ∀ n ∈ c.numbers.toList, n ≤ 1000) (x : Char)
    (engine : Engine) :
    ∃ p, emit (c.tree x) = .ok p ∧
      ((∃ m, Matcher.forEngine p engine = .ok m ∧
          m.FindsCopies (Bytes.ofChar x) c.numbers.least c.numbers.most) ↔
        (engine = .automaton → ∀ e ∈ c.toList, isCanonical (Utf8.decode e.value))) := by
  have hallowed := Counts.countAllowed_of_le hle hsmall
  have hlist : c.characters.toList = c.toList.map fun e => Utf8.decode e.value := by cases c <;> rfl
  have hnumbers : c.characters.map decimal = c.numbers := by cases c <;> rfl
  have hnumerals : c.characters.toList.all isNumeral := by
    rw [hlist, List.all_map, List.all_eq_true]
    exact fun e he => isNumeral_decode (hc e he)
  rw [← hnumbers] at hallowed ⊢
  refine ⟨_, emit_tree hc x, ?_⟩
  rw [Matcher.forEngine_repetition_iff hnumerals hallowed, hlist, List.all_map, List.all_eq_true]
  rfl

def quotedCounts : Counts Element := .between (command "0" []) (literal "12")

theorem findsCopies_tree_iff_quoted :
    (∀ e ∈ quotedCounts.toList, isInteger e.value) ∧
      (∀ m ∈ quotedCounts.numbers.most, quotedCounts.numbers.least ≤ m) ∧
      (∀ n ∈ quotedCounts.numbers.toList, n ≤ 1000) ∧
      ∃ p, emit (quotedCounts.tree '+') = .ok p ∧
        ∃ m, Matcher.forEngine p .automaton = .ok m ∧ m.FindsCopies (Bytes.ofChar '+') 0 (some 12) := by
  have hc : ∀ e ∈ quotedCounts.toList, isInteger e.value := by decide +kernel
  have hsmall : ∀ n ∈ quotedCounts.numbers.toList, n ≤ 1000 := by decide +kernel
  have hleast : quotedCounts.numbers.least = 0 := by decide +kernel
  have hmost : quotedCounts.numbers.most = some 12 := by decide +kernel
  have hle : ∀ m ∈ quotedCounts.numbers.most, quotedCounts.numbers.least ≤ m := by
    rw [hleast]
    exact fun m _ => Nat.zero_le m
  obtain ⟨p, hp, hfinds⟩ := findsCopies_tree_iff hc hle hsmall '+' .automaton
  rw [hleast, hmost] at hfinds
  exact ⟨hc, hle, hsmall, p, hp, hfinds.2 fun _ => by decide +kernel⟩

def bracedText : Matcher := ⟨"(?:x)\x7b03\x7d", .automaton, text "x\x7b03\x7d".toList⟩

theorem matchSource_leadingZero :
    compile "(times 03 'x')" = .ok bracedText.pattern ∧
      ∃ r, matchSource "(times 03 'x')" "xxx" = .ok r ∧ r.engine = .automaton ∧ r.found = false ∧
        ¬r.LocatesCopies "x" "xxx" 3 (some 3) := by
  have hcompile : compile "(times 03 'x')" = .ok bracedText.pattern := by decide +kernel
  have hread : Automaton.read? bracedText.pattern = some bracedText.regex := by cbv
  have hmake : Matcher.make bracedText.pattern .auto = .ok bracedText := by
    simp only [Matcher.make, Matcher.forEngine, hread]
    rfl
  have hmatch : matchSource "(times 03 'x')" "xxx" = .ok (bracedText.find "xxx") := by
    simp only [matchSource, hcompile, Except.mapError, bind, Except.bind, hmake]
    rfl
  have hfind : bracedText.find "xxx" = ⟨false, 0, [], .automaton⟩ := by cbv
  have hcopies : copies (Bytes.ofString "x") 3 <:+: Bytes.ofString "xxx" := by decide +kernel
  rw [hfind] at hmatch
  exact ⟨hcompile, _, hmatch, rfl, rfl, fun h => h 3 ⟨Nat.le_refl 3, by simp⟩ hcopies⟩

end VerboseExpr
