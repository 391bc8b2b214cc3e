import VerboseExpr.Proofs.Analysis.References
import VerboseExpr.Proofs.Matcher.Quotation
import VerboseExpr.Proofs.Regex.Anchored

/-!
Expressions that an analysis calls anchored. Their pattern begins with a start anchor, and no pattern begins with a
quantifier, so the anchor is not repeated. Main statement: such an expression is found at the start of a subject
only, unless the automaton engine reads a class into its pattern that was not written.
-/

namespace VerboseExpr

open Element Pattern

namespace Pattern

/-- The bytes that quantifiers begin with. -/
def quantifierBytes : Bytes := Bytes.ofString "*+?\x7b"

def Unquantified (p : Bytes) : Prop := ∀ b ∈ p.head?, b ∉ quantifierBytes

namespace Unquantified

variable {p q : Bytes}

theorem nil : Unquantified [] := by simp [Unquantified]

theorem cons {b : UInt8} (hb : b ∉ quantifierBytes) (p : Bytes) : Unquantified (b :: p) := by
  simpa [Unquantified] using hb

theorem append (hp : Unquantified p) (hq : Unquantified q) : Unquantified (p ++ q) := by
  cases p with
  | nil => exact hq
  | cons b p => exact cons (hp b rfl) _

theorem flatten {parts : List Bytes} (h : ∀ q ∈ parts, Unquantified q) : Unquantified parts.flatten := by
  induction parts with
  | nil => exact nil
  | cons q parts ih =>
    rw [List.forall_mem_cons] at h
    exact h.1.append (ih h.2)

theorem of_escape (v : Bytes) : Unquantified (escape v) := by
  cases v with
  | nil =>
    rw [escape_nil]
    exact nil
  | cons b v =>
    rw [escape_cons]
    split
    . exact cons (by decide) _
    . next hb =>
      have hspecial : ∀ b ∈ quantifierBytes, isSpecial b := by decide +kernel
      exact cons (fun hmem => hb (hspecial b hmem)) _

theorem of_render {c : Command} {called : Bytes} {parts : List Bytes} (hcalled : called ∈ c.names)
    (hparts : ∀ q ∈ parts.drop c.counts, Unquantified q) (h : c.render called parts = some p) : Unquantified p := by
  cases c with
  | concatenation =>
    obtain rfl := Option.some.inj h
    exact (flatten hparts).append nil
  | control =>
    obtain rfl : called = p := by simpa [Command.render] using h
    have hnames : ∀ v ∈ Command.control.names, ∀ b ∈ v.head?, b ∉ quantifierBytes := by decide +kernel
    exact hnames called hcalled
  | range | minMaxTimes =>
    obtain _ | ⟨n, _ | ⟨m, rest⟩⟩ := parts
    . contradiction
    . contradiction
    . obtain rfl := Option.some.inj h
      exact cons (by decide) _
  | reference | times | minTimes =>
    obtain _ | ⟨n, rest⟩ := parts
    . contradiction
    . obtain rfl := Option.some.inj h
      exact cons (by decide) _
  | anyCharacter | start | finish | except | group | oneOrMore | optional | alternation | zeroOrMore =>
    obtain rfl := Option.some.inj h
    exact cons (by decide) _

theorem of_emit {e : Element} (h : emit e = .ok p) : Unquantified p :=
  emitInduction of_escape (fun _ _ _ _ hcalled _ => of_render hcalled) h

end Unquantified

theorem exists_of_isAnchored {e : Element} {p : Bytes} (hanchored : (normalize e).isAnchored) (h : emit e = .ok p) :
    ∃ rest, p = 0x5E :: rest ∧ Unquantified rest := by
  -- The induction follows the first operands down to the command that the anchor comes from.
  induction e using foldInduction generalizing p with
  | literal v args =>
    rw [normalize_literal] at hanchored
    contradiction
  | operands k v args hk ih =>
    rw [normalize_of_ne_literal hk, normalizeAll_eq_map, isAnchored.eq_def] at hanchored
    dsimp only at hanchored
    rw [emit_of_ne_literal hk] at h
    obtain ⟨c, parts, hc, harity, hparts, hrender⟩ := exists_of_assemble h
    split at hanchored
    . next hroot =>
      simp only [isNamed, value, Bool.and_eq_true, areNames_root v, hc, Option.any_some, beq_iff_eq] at hroot
      obtain rfl := hroot.2
      obtain rfl := Option.some.inj hrender
      generalize fold args = operands at hanchored ih hparts
      cases operands with
      | nil => contradiction
      | cons first others =>
        obtain ⟨part, more, hpart, hmore, rfl⟩ := emitAll_cons_eq_ok_iff.1 hparts
        have hcounts : Command.concatenation.counts ≤ 0 := Nat.le_refl 0
        rw [operand_of_le hcounts] at hpart
        obtain ⟨rest, rfl, hrest⟩ := ih first List.mem_cons_self hanchored hpart
        have hothers := emitAll_forall (fun e _ q hq => Unquantified.of_emit hq) hmore
        have hjoined : Command.wrap "" "" ((0x5E :: rest) :: more) = 0x5E :: (rest ++ more.flatten) :=
          List.append_nil _
        exact ⟨_, hjoined, hrest.append (.flatten hothers.2)⟩
    . simp only [isNamed, value, Bool.and_eq_true, areNames_anchor v, hc, Option.any_some, beq_iff_eq] at hanchored
      obtain rfl := hanchored.2
      have hnone : (fold args).length = 0 := accepts_exactly.1 harity
      rw [List.eq_nil_of_length_eq_zero hnone, emitAll, Except.ok.injEq] at hparts
      subst hparts
      obtain rfl := Option.some.inj hrender
      exact ⟨[], rfl, .nil⟩

theorem Unquantified.decode {p : Bytes} (h : Unquantified p) :
    ∀ c ∈ (Utf8.decode p).head?, c ∉ Regex.Dialect.quantifierChars := by
  have hall : Regex.Dialect.quantifierChars.all fun c =>
      c.toNat < 0x80 && quantifierBytes.contains c.toNat.toUInt8 := by decide
  have hbytes : ∀ c ∈ Regex.Dialect.quantifierChars, c.toNat < 0x80 ∧ c.toNat.toUInt8 ∈ quantifierBytes := by
    simpa using hall
  cases p with
  | nil => simp [Utf8.decode, Utf8.units]
  | cons b p =>
    by_cases hlt : b.toNat < 0x80
    . rw [Utf8.decode_cons_ascii hlt]
      rintro c ⟨⟩ hmem
      have hbyte := (hbytes _ hmem).2
      rw [Utf8.toNat_asciiChar hlt, Utf8.toUInt8_eq rfl] at hbyte
      exact h b rfl hbyte
    . obtain ⟨c, n, hdecode, hc, -⟩ := Utf8.exists_decode_cons (by omega : 0x80 ≤ b.toNat) p
      rw [hdecode]
      rintro d ⟨⟩ hmem
      have := (hbytes _ hmem).1
      omega

end Pattern

namespace Matcher

open Regex

theorem engine_find (m : Matcher) (subject : Bytes) : (m.find subject).engine = m.engine := by
  rw [find]
  split <;> rfl

theorem offset_of_led {m : Matcher} (h : m.regex.Led) (subject : Bytes) : (m.find subject).offset = 0 := by
  rw [find]
  split
  . rfl
  . next start stop hspan =>
    have hzero : start = 0 := by
      split at hspan
      . exact Automaton.eq_zero_of_find? h hspan
      . exact Backtracking.eq_zero_of_find? h hspan
    rw [hzero]
    exact matchOffset_eq m.engine subject 0

theorem led_of_make {rest : Bytes} {m : Matcher} (hnested : Nested false [] (Utf8.decode (0x5E :: rest)))
    (hrest : Unquantified rest)
    (hvoid : m.engine = .automaton → hasVoidClass (Utf8.decode (0x5E :: rest)) = false)
    (hm : make (0x5E :: rest) .auto = .ok m) : m.regex.Led := by
  have hdecode : Utf8.decode (0x5E :: rest) = '^' :: Utf8.decode rest := Utf8.decode_cons_ascii (by decide) rest
  rw [hdecode] at hnested hvoid
  have hread := read?_of_make hm
  cases hengine : m.engine with
  | automaton =>
    rw [hengine] at hread
    have hstrict := (hnested.strict (hvoid hengine)).of_plain (by decide)
    exact Automaton.led_of_read? hdecode hstrict hrest.decode hread
  | backtracking =>
    rw [hengine] at hread
    exact Backtracking.led_of_read? hdecode (hnested.of_plain (by decide)) hrest.decode hread

end Matcher

/-- What is called anchored is found at the start of a subject only, unless the automaton engine runs it and a
class of its pattern has nothing but a circumflex in it. -/
theorem offset_of_isAnchored {source subject : Bytes} {a : Analysis} {r : MatchResult}
    (ha : Analysis.run source = .ok a) (hanchored : a.isAnchored) (hr : matchSource source subject = .ok r)
    (hvoid : r.engine = .automaton → Regex.hasVoidClass (Utf8.decode a.pattern) = false) : r.offset = 0 := by
  obtain ⟨p, m, hcompile, hm, rfl⟩ := matchSource_eq_ok_iff.1 hr
  rw [Matcher.engine_find] at hvoid
  rw [compile_eq_bind] at hcompile
  cases htree : parse source with
  | error f => simp [htree, Except.bind] at hcompile
  | ok tree =>
    rw [htree] at hcompile
    obtain ⟨p', hp, rfl⟩ := Analysis.exists_of_run htree ha
    obtain rfl : p = p' := Except.ok.inj (hcompile.symm.trans hp)
    obtain ⟨rest, rfl, hrest⟩ := exists_of_isAnchored hanchored hp
    apply Matcher.offset_of_led
    exact Matcher.led_of_make (Regex.nested_of_emit hp) hrest hvoid hm

def barTree : Element := command rootName [command "begin" [], command "or" [literal "a", literal "bc"]]

def barMatcher : Matcher :=
  ⟨"^(?:a|bc)", .automaton, .cat (.anchor .textStart) (.alt (.char 'a') (Regex.text ['b', 'c']))⟩

theorem offset_of_isAnchored_bar :
    let a := Analysis.ofTree barTree.normalize barMatcher.pattern
    ∃ r, Analysis.run "begin (or 'a' 'bc')" = .ok a ∧ a.isAnchored ∧
      matchSource "begin (or 'a' 'bc')" "bca" = .ok r ∧ Regex.hasVoidClass (Utf8.decode a.pattern) = false ∧
      r.found ∧ r.offset = 0 := by
  intro a
  have htree : parse "begin (or 'a' 'bc')" = .ok barTree := by decide +kernel
  have hemit : emit barTree = .ok barMatcher.pattern := by decide +kernel
  have ha : Analysis.run "begin (or 'a' 'bc')" = .ok a := Analysis.run_of_emit htree hemit
  have hanchored : a.isAnchored := by decide +kernel
  have hread : Regex.Automaton.read? barMatcher.pattern = some barMatcher.regex := by cbv
  have hfind : barMatcher.find "bca" = ⟨true, 0, "bc", .automaton⟩ := by cbv
  have hvoid : Regex.hasVoidClass (Utf8.decode a.pattern) = false := by decide +kernel
  have hr : matchSource "begin (or 'a' 'bc')" "bca" = .ok (barMatcher.find "bca") :=
    matchSource_of_read? htree hemit hread "bca"
  refine ⟨barMatcher.find "bca", ha, hanchored, hr, hvoid, ?_, offset_of_isAnchored ha hanchored hr fun _ => hvoid⟩
  rw [hfind]

def voidClass : Element := command "except" [literal ""]

def voidSource : Bytes := "begin (except '') (or (except '') (except '')) (except '')"

def voidTree : Element :=
  command rootName [command "begin" [], voidClass, command "or" [voidClass, voidClass], voidClass]

def voidMatcher : Matcher :=
  ⟨"^[^](?:[^]|[^])[^]", .automaton,
    .alt (.cat (.anchor .textStart)
        (.set (.ranges true [(']', ']'), ('(', '('), ('?', '?'), (':', ':'), ('[', '['), ('^', '^')])))
      (.set (.ranges true [(']', ']'), (')', ')'), ('[', '['), ('^', '^')]))⟩

theorem offset_of_voidClass :
    ∃ a r, Analysis.run voidSource = .ok a ∧ a.isAnchored ∧ matchSource voidSource "]z" = .ok r ∧ r.found ∧
      r.offset = 1 := by
  -- The class runs on past the bracket of the group, so that the bar stands outside all groups.
  have htree : parse voidSource = .ok voidTree := by decide +kernel
  have hemit : emit voidTree = .ok voidMatcher.pattern := by decide +kernel
  have hread : Regex.Automaton.read? voidMatcher.pattern = some voidMatcher.regex := by cbv
  have hfind : voidMatcher.find "]z" = ⟨true, 1, "z", .automaton⟩ := by cbv
  have hr : matchSource voidSource "]z" = .ok (voidMatcher.find "]z") := matchSource_of_read? htree hemit hread "]z"
  rw [hfind] at hr
  exact ⟨_, _, Analysis.run_of_emit htree hemit, by decide +kernel, hr, rfl, rfl⟩

end VerboseExpr
