import VerboseExpr.Proofs.Compilation.Append
import VerboseExpr.Proofs.Matcher.Offset
import VerboseExpr.Proofs.Regex.Literal

namespace VerboseExpr

open Element Pattern

section Compiling

theorem read_quotation {d : UInt8} (hd : Token.isQuote d) (s : Bytes) :
    Token.read (d :: Token.doubled d s ++ [d]) = .ok [⟨d :: s ++ [d], 0⟩] := by
  have hread := Token.readQuotation_doubled d s [] (by simp)
  rw [Token.read, List.cons_append, Token.readFrom_quotation hd 0 hread, Token.readFrom]
  rfl

theorem parse_quotation {d : UInt8} (hd : Token.isQuote d) (s : Bytes) :
    parse (d :: Token.doubled d s ++ [d]) = .ok (command rootName [literal s]) := by
  rw [parse_eq_ok_iff_items (read_quotation hd s)]
  exact ⟨[literal s], Items.leaf (Leaf.quoted hd rfl) Items.nil, rfl⟩

theorem compile_quotation {d : UInt8} (hd : Token.isQuote d) (s : Bytes) :
    compile (d :: Token.doubled d s ++ [d]) = .ok (escape s) := by
  have hfold : fold [literal s] = [literal s] := by
    rw [fold, fold]
    rfl
  rw [compile_eq_bind, parse_quotation hd]
  show emit (command rootName [literal s]) = _
  rw [emit_root, hfold, List.mapM_cons, literal, emit_literal]
  simp [bind, Except.bind, pure, Except.pure, Except.map]

end Compiling

theorem matchSource_eq_ok_iff {source subject : Bytes} {r : MatchResult} :
    matchSource source subject = .ok r ↔
      ∃ p m, compile source = .ok p ∧ Matcher.make p .auto = .ok m ∧ m.find subject = r := by
  rw [matchSource]
  simp only [bind, pure, Except.pure, Except.bind_eq_ok_iff, Except.mapError_eq_ok_iff, Except.ok.injEq,
    exists_and_left]

theorem matchSource_of_read? {source p : Bytes} {tree : Element} {r : Regex} (htree : parse source = .ok tree)
    (hp : emit tree = .ok p) (hr : Regex.Automaton.read? p = some r) (subject : Bytes) :
    matchSource source subject = .ok (Matcher.find ⟨p, .automaton, r⟩ subject) := by
  have hcompile : compile source = .ok p := by rw [compile_eq_bind, htree, Except.bind, hp]
  have hmake : Matcher.make p .auto = .ok ⟨p, .automaton, r⟩ := by
    simp only [Matcher.make, Matcher.forEngine, hr]
  exact matchSource_eq_ok_iff.2 ⟨p, _, hcompile, hmake, rfl⟩

namespace Matcher

/-- What one engine reads a pattern as, if it does. -/
def read? (engine : Engine) (pattern : Bytes) : Option Regex :=
  match engine with
  | .automaton => Regex.Automaton.read? pattern
  | .backtracking => Regex.Backtracking.read? pattern

theorem read?_of_make {p : Bytes} {m : Matcher} (h : make p .auto = .ok m) : read? m.engine p = some m.regex := by
  simp only [make, forEngine] at h
  cases hread : Regex.Automaton.read? p with
  | some r =>
    simp only [hread, Except.ok.injEq] at h
    rw [← h]
    exact hread
  | none =>
    simp only [hread] at h
    cases hread' : Regex.Backtracking.read? p with
    | none => simp [hread'] at h
    | some r =>
      simp only [hread', Except.ok.injEq] at h
      rw [← h]
      exact hread'

theorem exists_make {p : Bytes} {r : Regex}
    (hautomaton : Regex.Automaton.read? p = some r ∨ Regex.Automaton.read? p = none)
    (hbacktracking : Regex.Backtracking.read? p = some r) : ∃ engine, make p .auto = .ok ⟨p, engine, r⟩ := by
  rw [make]
  cases hautomaton with
  | inl hread =>
    refine ⟨.automaton, ?_⟩
    simp only [forEngine, hread]
  | inr hread =>
    refine ⟨.backtracking, ?_⟩
    simp only [forEngine, hread, hbacktracking]

theorem make_escape (cs : List Char) :
    ∃ engine, make (escape (Bytes.ofChars cs)) .auto =
      .ok ⟨escape (Bytes.ofChars cs), engine, Regex.text cs⟩ :=
  exists_make (Regex.Automaton.read?_escape cs) (Regex.Backtracking.read?_escape cs)

theorem matchText_ofChars (engine : Engine) (cs : List Char) (start stop : Nat) :
    matchText engine (Utf8.units (Bytes.ofChars cs)) start stop =
      Bytes.ofChars ((cs.take stop).drop start) := by
  rw [Utf8.units_ofChars]
  cases engine with
  | automaton =>
    rw [matchText, ← List.map_take, ← List.map_drop, List.flatMap_map]
    rfl
  | backtracking =>
    rw [matchText, ← List.map_take, ← List.map_drop, List.map_map]
    exact congrArg Bytes.ofChars (List.map_id _)

/-- The search of an engine, by the places of characters. -/
def search (engine : Engine) (r : Regex) (subject : Array Char) : Option (Nat × Nat) :=
  match engine with
  | .automaton => Regex.Automaton.find? r subject
  | .backtracking => Regex.Backtracking.find? r subject

theorem find_eq (pattern : Bytes) (engine : Engine) (r : Regex) (cs : List Char) :
    find ⟨pattern, engine, r⟩ (Bytes.ofChars cs) =
      match search engine r cs.toArray with
      | none => ⟨false, 0, [], engine⟩
      | some (start, stop) =>
        ⟨true, Utf8.offset (Bytes.ofChars cs) start, Bytes.ofChars ((cs.take stop).drop start), engine⟩ := by
  have hchars : (Utf8.units (Bytes.ofChars cs)).map (·.char) = cs := Utf8.decode_ofChars cs
  simp only [← matchText_ofChars engine]
  cases engine with
  | automaton =>
    cases hspan : Regex.Automaton.find? r cs.toArray with
    | none | some span => simp only [find, hchars, search, hspan, matchOffset_eq]
  | backtracking =>
    cases hspan : Regex.Backtracking.find? r cs.toArray with
    | none | some span => simp only [find, hchars, search, hspan, matchOffset_eq]

theorem search_text (engine : Engine) (cs : List Char) (subject : Array Char) :
    Locates cs subject.toList (search engine (Regex.text cs) subject) := by
  cases engine with
  | automaton => exact Regex.Automaton.find?_text cs subject
  | backtracking => exact Regex.Backtracking.find?_text cs subject

theorem find_text (pattern : Bytes) (engine : Engine) (cs ds : List Char) :
    (¬ cs <:+: ds ∧ (find ⟨pattern, engine, Regex.text cs⟩ (Bytes.ofChars ds)).found = false) ∨
    ∃ i, FirstAt cs ds i ∧ find ⟨pattern, engine, Regex.text cs⟩ (Bytes.ofChars ds) =
      ⟨true, Utf8.offset (Bytes.ofChars ds) i, Bytes.ofChars cs, engine⟩ := by
  have hlocates := search_text engine cs ds.toArray
  rw [find_eq]
  cases hsearch : search engine (Regex.text cs) ds.toArray with
  | none =>
    rw [hsearch] at hlocates
    exact Or.inl ⟨hlocates, rfl⟩
  | some span =>
    obtain ⟨i, stop⟩ := span
    rw [hsearch] at hlocates
    obtain ⟨hfirst, rfl⟩ := hlocates
    refine Or.inr ⟨i, hfirst, ?_⟩
    dsimp only
    rw [hfirst.eq_drop_take]

end Matcher

/-- A quotation matches the quoted text itself, where it stands first in the subject. -/
theorem matchSource_quotation {d : UInt8} {s subject : Bytes} (hd : Token.isQuote d) (hs : Utf8.isValid s)
    (hsubject : Utf8.isValid subject) :
    ∃ r, matchSource (d :: Token.doubled d s ++ [d]) subject = .ok r ∧ (r.found ↔ s <:+: subject) ∧
      (r.found → FirstAt s subject r.offset ∧ r.text = s) := by
  rw [matchSource, compile_quotation hd]
  rw [← Utf8.ofChars_decode hs, ← Utf8.ofChars_decode hsubject, Utf8.isInfix_ofChars_iff]
  generalize Utf8.decode s = cs
  generalize Utf8.decode subject = ds
  obtain ⟨engine, hmake⟩ := Matcher.make_escape cs
  refine ⟨Matcher.find ⟨escape (Bytes.ofChars cs), engine, Regex.text cs⟩ (Bytes.ofChars ds), ?_, ?_⟩
  . simp only [Except.mapError, bind, Except.bind, hmake]
    rfl
  . obtain ⟨hnot, hfound⟩ | ⟨i, hfirst, hfind⟩ := Matcher.find_text (escape (Bytes.ofChars cs)) engine cs ds
    . rw [hfound]
      simp [hnot]
    . rw [hfind]
      have hoccurs := isInfix_of_prefix_drop hfirst.here
      simp [hoccurs, Utf8.firstAt_ofChars hfirst]

theorem matchSource_quotation_special :
    let s := Bytes.ofString "é''[.*"
    let subject := Bytes.ofString "é'é''[.*"
    Token.isQuote 0x27 ∧ Utf8.isValid s ∧ Utf8.isValid subject ∧
      ∃ r, matchSource (0x27 :: Token.doubled 0x27 s ++ [0x27]) subject = .ok r ∧
        r.found ∧ r.offset = 3 ∧ r.text = s := by
  have hs : Utf8.isValid (Bytes.ofString "é''[.*") := by decide +kernel
  have hsubject : Utf8.isValid (Bytes.ofString "é'é''[.*") := by decide +kernel
  have hthree : FirstAt (Bytes.ofString "é''[.*") (Bytes.ofString "é'é''[.*") 3 :=
    ⟨by decide +kernel, by decide +kernel⟩
  obtain ⟨r, hr, hfound, hfirst⟩ := matchSource_quotation (d := 0x27) (by decide) hs hsubject
  have hyes := hfound.2 (isInfix_of_prefix_drop hthree.here)
  obtain ⟨hoffset, htext⟩ := hfirst hyes
  exact ⟨by decide, hs, hsubject, r, hr, hyes, hoffset.unique hthree, htext⟩

end VerboseExpr
