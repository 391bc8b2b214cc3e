import VerboseExpr.Config.Store
import VerboseExpr.Proofs.Config.Toml
import VerboseExpr.Proofs.Config.Yaml.Settings

namespace VerboseExpr.Config

/-- Valid settings come back from the document that is made of them, though it is read on top of the defaults. -/
theorem parse_marshal {c : Config} (h : c.validate = .ok ()) (htexts : ∀ b ∈ c.texts, Utf8.isValid b) :
    (∃ data, c.marshal .toml = .ok data ∧ parse data .toml = .ok c) ∧
      (Yaml.keepsTexts c → ∃ data, c.marshal .yaml = .ok data ∧ parse data .yaml = .ok c) := by
  have hparse : ∀ {data : Bytes} {format : Format}, decode data format = .ok c → parse data format = .ok c := by
    intro data format hdecode
    unfold parse
    rw [hdecode]
    change (c.validate.mapError ParseError.invalid).bind _ = _
    rw [h]
    rfl
  constructor
  . refine ⟨Toml.write c, rfl, hparse ?_⟩
    rw [decode, Toml.read?_write htexts]
  . intro hkeeps
    refine ⟨Yaml.write c, rfl, hparse ?_⟩
    rw [decode, Yaml.read_write htexts hkeeps]

def intricate : Config where
  name := "null"
  package := " a: 'b'\n\n\"c\"\n\n"
  output := []
  engine := "auto"
  verbose := true
  noColor := false
  testFile := true
  inputs := ["", "- 1", "# \t\\", "0x1F", "é\u2028ü \n"]

theorem parse_marshal_intricate : intricate.validate = .ok () ∧ (∀ b ∈ intricate.texts, Utf8.isValid b) ∧
    Yaml.keepsTexts intricate ∧ (∃ data, intricate.marshal .toml = .ok data ∧ parse data .toml = .ok intricate) ∧
      ∃ data, intricate.marshal .yaml = .ok data ∧ parse data .yaml = .ok intricate := by
  have h : intricate.validate = .ok () := by decide +kernel
  have htexts : ∀ b ∈ intricate.texts, Utf8.isValid b := by decide +kernel
  have hkeeps : Yaml.keepsTexts intricate := by decide +kernel
  exact ⟨h, htexts, hkeeps, (parse_marshal h htexts).1, (parse_marshal h htexts).2 hkeeps⟩

def broken : Config := { default with name := "\nx" }

theorem parse_marshal_broken : broken.validate = .ok () ∧ (∀ b ∈ broken.texts, Utf8.isValid b) ∧
    ∃ data, broken.marshal .yaml = .ok data ∧ parse data .yaml = .ok { broken with name := "x" } ∧
      parse data .yaml ≠ .ok broken := by
  -- The line break is lost: in the block it is the one that ends the header.
  have hparse : parse (Yaml.write broken) .yaml = .ok { broken with name := "x" } := by decide +kernel
  refine ⟨by decide +kernel, by decide +kernel, Yaml.write broken, rfl, hparse, ?_⟩
  rw [hparse]
  decide +kernel

end VerboseExpr.Config
