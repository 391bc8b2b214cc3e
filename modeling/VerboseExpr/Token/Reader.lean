import VerboseExpr.Fault
import VerboseExpr.Token.Basic

/-!
Splitting a source text into tokens. Blanks separate tokens, a bracket is a token of its own, and a
quotation runs to the next delimiter of its kind that is not doubled; a doubled one stands for itself.
Every other run of bytes is a word, as long as it can be.
-/

namespace VerboseExpr.Token

/-- What follows an opening delimiter. -/
structure Quotation where
  /-- The text with doubled delimiters written once. -/
  body : Bytes
  rest : Option Bytes
  deriving DecidableEq, Repr

def Quotation.cons (c : UInt8) (q : Quotation) : Quotation := { q with body := c :: q.body }

/-- Reads a quotation after its opening delimiter `d`. -/
def readQuotation (d : UInt8) : Bytes → Quotation
  | [] => ⟨[], none⟩
  | c :: rest =>
    if c = d then
      match rest with
      | [] => ⟨[], some []⟩
      | e :: more => if e = d then (readQuotation d more).cons d else ⟨[], some (e :: more)⟩
    else (readQuotation d rest).cons c

theorem length_rest_readQuotation (d : UInt8) (src rest : Bytes)
    (h : (readQuotation d src).rest = some rest) : rest.length ≤ src.length := by
  fun_induction readQuotation d src with
  | case1 => simp at h
  | case2 => simp_all
  | case3 more ih =>
    have := ih h
    simp only [List.length_cons]
    omega
  | case4 e more _ =>
    simp only [Option.some.injEq] at h
    subst h
    simp
  | case5 c more _ ih =>
    have := ih h
    simp only [List.length_cons]
    omega

def unterminated (offset : Nat) (token : Bytes) : Fault :=
  { stage := .tokenize, cause := .unterminatedQuotation, offset := offset, token := token }

/-- The tokens of a text whose first byte has the given offset. -/
def readFrom (offset : Nat) (src : Bytes) : Except Fault (List Token) :=
  match src with
  | [] => .ok []
  | c :: rest =>
    if isBlank c then readFrom (offset + 1) rest
    else if isQuote c then
      let q := readQuotation c rest
      match _h : q.rest with
      | none => .error (unterminated offset (c :: q.body))
      | some after =>
        -- a delimiter in the body took two bytes of the source
        (readFrom (offset + (q.body.length + q.body.count c + 2)) after).map
          (⟨c :: q.body ++ [c], offset⟩ :: ·)
    else if isBracket c then (readFrom (offset + 1) rest).map (⟨[c], offset⟩ :: ·)
    else
      let word := c :: rest.takeWhile isWordByte
      (readFrom (offset + word.length) (rest.dropWhile isWordByte)).map (⟨word, offset⟩ :: ·)
termination_by src.length
decreasing_by
  · simp
  · have := length_rest_readQuotation c rest after _h
    simp only [List.length_cons]
    omega
  · simp
  · have := (List.dropWhile_suffix isWordByte (l := rest)).length_le
    simp only [List.length_cons]
    omega

def read (source : Bytes) : Except Fault (List Token) := readFrom 0 source

end VerboseExpr.Token
