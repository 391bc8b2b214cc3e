import VerboseExpr.Proofs.Pattern.Escape

/-!
Escaped text read back. A backslash belongs to the byte after it, whatever that is, so that the bytes which stand after
a backslash and those which do not can be told apart from left to right. Main statement: escaping goes through a text
byte by byte and loses nothing, and it does so also where it gives the text back as it is.
-/

namespace VerboseExpr.Pattern

/-- The bytes of a text without the backslashes before them, each with whether there was one. A backslash at the end
stands before no byte. -/
def marked : Bytes → List (Bool × UInt8)
  | [] => []
  | [b] => [(false, b)]
  | b :: c :: rest => if b = 0x5C then (true, c) :: marked rest else (false, b) :: marked (c :: rest)

/-- The text without the backslashes that stand before other bytes. -/
def unescape (b : Bytes) : Bytes := (marked b).map (·.2)

/-- The bytes that no backslash stands before. -/
def unescaped (b : Bytes) : Bytes := ((marked b).filter (!·.1)).map (·.2)

theorem marked_backslash (b : UInt8) (rest : Bytes) : marked (0x5C :: b :: rest) = (true, b) :: marked rest := by
  rw [marked, if_pos rfl]

theorem marked_ordinary {b : UInt8} (hb : b ≠ 0x5C) (rest : Bytes) :
    marked (b :: rest) = (false, b) :: marked rest := by
  cases rest with
  | nil => rfl
  | cons c rest => rw [marked, if_neg hb]

theorem ne_backslash_of_not_isSpecial {b : UInt8} (h : ¬isSpecial b) : b ≠ 0x5C := by
  intro heq
  apply h
  rw [heq]
  decide

theorem marked_escape (v : Bytes) : marked (escape v) = v.map fun b => (isSpecial b, b) := by
  induction v with
  | nil =>
    rw [escape_nil]
    rfl
  | cons b v ih =>
    rw [escape_cons, List.map_cons]
    split
    . next hb =>
      rw [List.cons_append, List.singleton_append, marked_backslash, ih, hb]
    . next hb =>
      rw [List.singleton_append, marked_ordinary (ne_backslash_of_not_isSpecial hb), ih]
      rw [Bool.not_eq_true] at hb
      rw [hb]

theorem unescape_escape (v : Bytes) : unescape (escape v) = v := by
  rw [unescape, marked_escape, List.map_map]
  apply List.map_id

theorem unescaped_escape (v : Bytes) : unescaped (escape v) = v.filter (!isSpecial ·) := by
  rw [unescaped, marked_escape, List.filter_map, List.map_map]
  apply List.map_id

theorem length_escapeBytes (v : Bytes) : (escapeBytes v).length = v.length + v.countP isSpecial := by
  induction v with
  | nil => rfl
  | cons b v ih =>
    rw [escapeBytes] at ih ⊢
    rw [List.flatMap_cons, List.length_append, ih, List.length_cons, List.countP_cons]
    split
    . dsimp
      omega
    . dsimp
      omega

theorem containsAny_eq_false_iff (v : Bytes) : Utf8.containsAny v specialBytes = false ↔ escapeBytes v = v := by
  rw [← Bool.not_eq_true, containsAny_specialBytes_iff]
  constructor
  . intro hnone
    apply escapeBytes_eq_self
    intro b hb
    rw [← Bool.not_eq_true]
    exact fun hspecial => hnone ⟨b, hb, hspecial⟩
  . rintro hsame ⟨b, hb, hspecial⟩
    have hlength := length_escapeBytes v
    have hpos : 0 < v.countP isSpecial := List.countP_pos_iff.2 ⟨b, hb, hspecial⟩
    rw [hsame] at hlength
    omega

/-- Escaping is compatible with appending. What it gives can be read back, so that different texts stay different, and
no byte in it is syntax unless a backslash stands before it. The shortcut for texts without syntax, which looks for
characters, gives what going through the bytes gives, and is taken exactly where that changes nothing. -/
theorem escape_homomorphism :
    (∀ v w, escape (v ++ w) = escape v ++ escape w) ∧ (∀ v, unescape (escape v) = v) ∧
      (∀ v w, escape v = escape w → v = w) ∧ (∀ v, ∀ b ∈ unescaped (escape v), b ∉ specialBytes) ∧
      ∀ v, escape v = escapeBytes v ∧ (Utf8.containsAny v specialBytes = false ↔ escapeBytes v = v) := by
  refine ⟨escape_append, unescape_escape, ?_, ?_, ?_⟩
  . intro v w h
    rw [← unescape_escape v, h, unescape_escape]
  . intro v b hb
    rw [unescaped_escape, List.mem_filter, isSpecial, Bool.not_eq_true', ← Bool.not_eq_true,
      List.contains_iff_mem] at hb
    exact hb.2
  . intro v
    exact ⟨escape_eq_escapeBytes v, containsAny_eq_false_iff v⟩

theorem escape_homomorphism_backslashes :
    let v : Bytes := [0xC3, 0x5C, 0x5C]
    let w : Bytes := [0x2E, 0xFF, 0x5C]
    escape (v ++ w) = [0xC3, 0x5C, 0x5C, 0x5C, 0x5C, 0x5C, 0x2E, 0xFF, 0x5C, 0x5C] ∧
      unescape (escape (v ++ w)) = v ++ w ∧
      escape v ≠ escape w ∧ 0xC3 ∈ unescaped (escape v) ∧ 0xC3 ∉ specialBytes ∧
      Utf8.containsAny [0xC3, 0xFF] specialBytes = false ∧ escape [0xC3, 0xFF] = [0xC3, 0xFF] := by
  intro v w
  obtain ⟨happend, hback, hinjective, hplain, hshortcut⟩ := escape_homomorphism
  have hescape : escape v ++ escape w = [0xC3, 0x5C, 0x5C, 0x5C, 0x5C, 0x5C, 0x2E, 0xFF, 0x5C, 0x5C] := by
    decide +kernel
  have hmem : 0xC3 ∈ unescaped (escape v) := by decide +kernel
  have hbytes : escapeBytes [0xC3, 0xFF] = [0xC3, 0xFF] := by decide +kernel
  refine ⟨?_, hback (v ++ w), ?_, hmem, hplain v 0xC3 hmem, ?_, ?_⟩
  . rw [happend, hescape]
  . intro heq
    exact absurd (hinjective v w heq) (by decide)
  . exact (hshortcut [0xC3, 0xFF]).2.2 hbytes
  . rw [(hshortcut [0xC3, 0xFF]).1, hbytes]

end VerboseExpr.Pattern
