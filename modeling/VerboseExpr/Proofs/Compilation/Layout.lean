import VerboseExpr.Proofs.Compilation.Append
import VerboseExpr.Proofs.Element.Layout

namespace VerboseExpr

open Element Pattern

namespace Compilation

/-- Faults of two lists of tokens that differ in their offsets at most: both offsets are unknown, or they are those
of the tokens at one place of the two lists. -/
structure Corresponds (ts us : List Token) (f g : Fault) : Prop where
  stage : f.stage = g.stage
  cause : f.cause = g.cause
  token : f.token = g.token
  offset : (f.offset = -1 ∧ g.offset = -1) ∨
    ∃ (i : Nat) (t u : Token), ts[i]? = some t ∧ us[i]? = some u ∧ f.offset = t.offset ∧ g.offset = u.offset

theorem Corresponds.of_emit {e : Element} {f : Fault} (h : emit e = .error f) (ts us : List Token) :
    Corresponds ts us f f :=
  ⟨rfl, rfl, rfl, .inl ⟨offset_of_emit h, offset_of_emit h⟩⟩

theorem Corresponds.of_relocate {ts us : List Token} (h : ts.length = us.length) (f : Fault) :
    Corresponds ts us (f.relocate (offsetAt ts)) (f.relocate (offsetAt us)) :=
  ⟨rfl, rfl, rfl, offsetAt_cases h f.offset⟩

theorem run_of_read {source : Bytes} {ts : List Token} (h : Token.read source = .ok ts) :
    run source = (arguments ts).bind fun es =>
      (emit (command rootName es)).map fun pattern => ⟨source, ts, command rootName es, pattern⟩ := by
  rw [run, h]
  simp only [bind, Except.bind, represent_seed]
  cases arguments ts with
  | error f => rfl
  | ok es =>
    simp only [Except.map]
    cases emit (command rootName es) <;> rfl

/-- Sources whose tokens have the same texts are compiled alike: they have the same tree and the same pattern, or
faults that correspond. -/
theorem run_of_texts_eq {a b : Bytes} {ts us : List Token} (ha : Token.read a = .ok ts) (hb : Token.read b = .ok us)
    (htexts : ts.map (·.text) = us.map (·.text)) :
    (∃ tree pattern, run a = .ok ⟨a, ts, tree, pattern⟩ ∧ run b = .ok ⟨b, us, tree, pattern⟩) ∨
      ∃ f g, run a = .error f ∧ run b = .error g ∧ Corresponds ts us f g := by
  rw [run_of_read ha, run_of_read hb]
  obtain ⟨es, hts, hus⟩ | ⟨f, hts, hus⟩ := arguments_of_texts_eq htexts
  . rw [hts, hus]
    dsimp only [Except.bind]
    cases hemit : emit (command rootName es) with
    | ok pattern => exact .inl ⟨_, pattern, rfl, rfl⟩
    | error f => exact .inr ⟨f, f, rfl, rfl, .of_emit hemit ts us⟩
  . have hlength : ts.length = us.length := by simpa using congrArg List.length htexts
    rw [hts, hus]
    exact .inr ⟨_, _, rfl, rfl, .of_relocate hlength f⟩

def crossedTokens : List Token :=
  [⟨[0x28], 0⟩, ⟨Bytes.ofString "or", 1⟩, ⟨[0x5B], 4⟩, ⟨Bytes.ofString "a", 5⟩, ⟨[0x28], 7⟩,
    ⟨Bytes.ofString "'b'", 8⟩, ⟨[0x5D], 11⟩, ⟨[0x29], 12⟩]

def crossedTokensSpread : List Token :=
  [⟨[0x28], 1⟩, ⟨Bytes.ofString "or", 2⟩, ⟨[0x5B], 5⟩, ⟨Bytes.ofString "a", 7⟩, ⟨[0x28], 9⟩,
    ⟨Bytes.ofString "'b'", 11⟩, ⟨[0x5D], 14⟩, ⟨[0x29], 16⟩]

theorem run_of_texts_eq_mismatched :
    Token.read "(or [a ('b'])" = .ok crossedTokens ∧ Token.read " (or\n[ a\t( 'b']\n)" = .ok crossedTokensSpread ∧
      crossedTokens.map (·.text) = crossedTokensSpread.map (·.text) ∧
      ∃ f g, run "(or [a ('b'])" = .error f ∧ run " (or\n[ a\t( 'b']\n)" = .error g ∧
        Corresponds crossedTokens crossedTokensSpread f g := by
  have ha : Token.read "(or [a ('b'])" = .ok crossedTokens := by decide +kernel
  have hb : Token.read " (or\n[ a\t( 'b']\n)" = .ok crossedTokensSpread := by decide +kernel
  have htexts : crossedTokens.map (·.text) = crossedTokensSpread.map (·.text) := rfl
  have hrun : (run "(or [a ('b'])").isOk = false := by decide +kernel
  refine ⟨ha, hb, htexts, ?_⟩
  obtain ⟨tree, pattern, hok, _⟩ | hfaults := run_of_texts_eq ha hb htexts
  . rw [hok] at hrun
    cases hrun
  . exact hfaults

end Compilation

end VerboseExpr
