import VerboseExpr.Proofs.Element.Layout
import VerboseExpr.Proofs.Element.Parse

namespace VerboseExpr.Element

/-- The tokens with round brackets and the name of the root command for square brackets. -/
def spelledOut (ts : List Token) : List Token :=
  ts.flatMap fun t =>
    if t.text = [0x5B] then [⟨[0x28], t.offset⟩, Token.synthetic rootName]
    else if t.text = [0x5D] then [⟨[0x29], t.offset⟩]
    else [t]

theorem spelledOut_eq_rounded (ts : List Token) : spelledOut ts = rounded ts := by
  apply List.flatMap_congr
  intro t _
  by_cases hopen : t.isOpen
  . rcases (isOpen_iff t).1 hopen with h | h
    . have ht : t = ⟨[0x28], t.offset⟩ := by rw [← h]
      simp [opening, hopen, h, ← ht]
    . simp [opening, hopen, h]
  . by_cases hclose : t.isClose
    . rcases (isClose_iff t).1 hclose with h | h
      . have ht : t = ⟨[0x29], t.offset⟩ := by rw [← h]
        simp [hopen, hclose, h, ← ht]
      . simp [hopen, hclose, h]
    . rw [isOpen_iff, not_or] at hopen
      rw [isClose_iff, not_or] at hclose
      simp [Token.isOpen, Token.isClose, hopen, hclose]

/-- Tokens whose brackets are matched have a tree exactly if they have one with round brackets and the name of the
root command for square brackets, wherever the tokens then stand, and it is the same tree. If the brackets stay where
they are, then so does the fault of tokens that have no tree. -/
theorem represent_spelledOut {ts us : List Token} (hts : Dyck (bracketWord ts))
    (hus : us.map (·.text) = (spelledOut ts).map (·.text)) :
    (∀ e, represent (seed us) = .ok e ↔ represent (seed ts) = .ok e) ∧
      represent (seed (spelledOut ts)) = represent (seed ts) := by
  have hsame : represent (seed (spelledOut ts)) = represent (seed ts) := by
    rw [represent_seed, represent_seed, spelledOut_eq_rounded, (balanced_of_dyck hts ts rfl).arguments_rounded]
  refine ⟨?_, hsame⟩
  intro e
  rw [represent_eq_ok_iff_of_texts_eq hus, hsame]

def nestedSquares : List Token :=
  [⟨[0x5B], 0⟩, ⟨Bytes.ofString "a", 1⟩, ⟨[0x28], 3⟩, ⟨Bytes.ofString "or", 4⟩, ⟨[0x5B], 7⟩, ⟨[0x5B], 8⟩,
    ⟨[0x5D], 9⟩, ⟨Bytes.ofString "'['", 10⟩, ⟨[0x5D], 13⟩, ⟨[0x29], 14⟩, ⟨[0x5D], 15⟩]

def nestedMatches : List Token :=
  [⟨[0x28], 0⟩, ⟨Bytes.ofString "match", 1⟩, ⟨Bytes.ofString "a", 7⟩, ⟨[0x28], 9⟩, ⟨Bytes.ofString "or", 10⟩,
    ⟨[0x28], 13⟩, ⟨Bytes.ofString "match", 14⟩, ⟨[0x28], 20⟩, ⟨Bytes.ofString "match", 21⟩, ⟨[0x29], 26⟩,
    ⟨Bytes.ofString "'['", 27⟩, ⟨[0x29], 30⟩, ⟨[0x29], 31⟩, ⟨[0x29], 32⟩]

def nestedMatchesTree : Element :=
  command rootName [command rootName [command "a" [],
    command "or" [command rootName [command rootName [], literal "["]]]]

theorem represent_spelledOut_nested :
    Token.read "[a (or [[]'['])]" = .ok nestedSquares ∧
      Token.read "(match a (or (match (match)'[')))" = .ok nestedMatches ∧
      Dyck (bracketWord nestedSquares) ∧ nestedMatches.map (·.text) = (spelledOut nestedSquares).map (·.text) ∧
      represent (seed nestedMatches) = .ok nestedMatchesTree ∧
      represent (seed nestedSquares) = .ok nestedMatchesTree := by
  have hread : Token.read "[a (or [[]'['])]" = .ok nestedSquares := by decide +kernel
  have hread' : Token.read "(match a (or (match (match)'[')))" = .ok nestedMatches := by decide +kernel
  have hdyck : Dyck (bracketWord nestedSquares) :=
    Dyck.square (Dyck.round (Dyck.square (Dyck.square Dyck.nil Dyck.nil) Dyck.nil) Dyck.nil) Dyck.nil
  have htexts : nestedMatches.map (·.text) = (spelledOut nestedSquares).map (·.text) := by decide +kernel
  have htree : represent (seed nestedSquares) = .ok nestedMatchesTree := by decide +kernel
  have hspelled := ((represent_spelledOut hdyck htexts).1 nestedMatchesTree).2 htree
  exact ⟨hread, hread', hdyck, htexts, hspelled, htree⟩

end VerboseExpr.Element
