import VerboseExpr.Generated.Name
import VerboseExpr.Proofs.Text.Quoted

namespace VerboseExpr.Generated

/-- The numbers of the characters that part the words of a text or begin something else than a word, and of those
that no text may hold. -/
def separators : List Nat := [0x00, 0x09, 0x0A, 0x0D, 0x20, 0x22, 0x27, 0x2F, 0x5C, 0x60, 0xFEFF, 0xFFFD]

theorem not_mem_separators {c : Char} (hc : isNameChar c) : c.toNat ∉ separators := by
  intro hmem
  have hletter : ∀ n ∈ separators, (Unicode.letters.toList.any fun r => r.1 ≤ n && n ≤ r.2) = false := by
    decide +kernel
  have hdigit : ∀ n ∈ separators, (Unicode.digits.toList.any fun r => r.1 ≤ n && n ≤ r.2) = false := by
    decide +kernel
  have hline : c ≠ '_' := by
    rintro rfl
    revert hmem
    decide
  unfold isNameChar isInitial Unicode.isLetter Unicode.isDigit at hc
  rw [Unicode.Ranges.contains_eq, Unicode.Ranges.contains_eq, hletter _ hmem, hdigit _ hmem] at hc
  simp [hline] at hc

theorem isNameChar_of_isInitial {c : Char} (hc : isInitial c) : isNameChar c := by
  unfold isNameChar
  rw [hc, Bool.true_or]

theorem isNameChar_eq_false {c : Char} (hc : c.toNat ∈ separators) : isNameChar c = false := by
  rw [Bool.eq_false_iff]
  exact fun hname => not_mem_separators hname hc

theorem ne_of_isNameChar {c d : Char} (hc : isNameChar c) (hd : d.toNat ∈ separators) : c ≠ d := by
  rintro rfl
  exact not_mem_separators hc hd

theorem toNat_not_mem_separators {cs : List Char} (hcs : ∀ c ∈ cs, isNameChar c) {b : UInt8}
    (hb : b ∈ Bytes.ofChars cs) :
    b.toNat ∉ separators := by
  obtain ⟨c, hc, hbc⟩ := List.mem_flatMap.mp hb
  by_cases hascii : c.toNat < 0x80
  . rw [Utf8.ofChar_of_lt hascii, List.mem_singleton] at hbc
    rw [hbc, UInt8.toNat_ofNat_of_lt' (by omega : _ < 256)]
    exact not_mem_separators (hcs c hc)
  . have hle := Utf8.le_of_mem_ofChar hascii hbc
    have hlt := b.toNat_lt
    have hfar : ∀ n ∈ separators, n < 0x80 ∨ 256 ≤ n := by decide
    intro hmem
    have := hfar _ hmem
    omega

theorem isValid_of_decode {b : Bytes} (h : Utf8.replacement ∉ Utf8.decode b) : Utf8.isValid b := by
  unfold Utf8.isValid
  rw [List.all_eq_true]
  intro u hu
  cases Utf8.of_mem_units hu with
  | inl hchar => rw [hchar]
  | inr hbad =>
    obtain ⟨c, rfl⟩ := hbad
    exact absurd (List.mem_map_of_mem hu) h

theorem exists_chars {b : Bytes} (h : isIdentifier b) :
    ∃ c cs, b = Bytes.ofChars (c :: cs) ∧ isInitial c ∧ ∀ d ∈ cs, isNameChar d := by
  unfold isIdentifier at h
  split at h
  . contradiction
  . next c cs hdecode =>
    simp only [Bool.and_eq_true, List.all_eq_true] at h
    obtain ⟨hc, hcs⟩ := h
    have hnames : ∀ d ∈ c :: cs, isNameChar d := List.forall_mem_cons.mpr ⟨isNameChar_of_isInitial hc, hcs⟩
    have hvalid : Utf8.isValid b := by
      apply isValid_of_decode
      rw [hdecode]
      intro hmem
      exact ne_of_isNameChar (hnames _ hmem) (by decide) rfl
    refine ⟨c, cs, ?_, hc, hcs⟩
    rw [← hdecode, Utf8.ofChars_decode hvalid]

theorem isDeclarable_of_letters {c : Char} {cs : List Char}
    (h : (c :: cs).all fun d => Unicode.letters.toList.any fun r => r.1 ≤ d.toNat && d.toNat ≤ r.2)
    (hword : Bytes.ofChars (c :: cs) ∉ keywords) : isDeclarable (Bytes.ofChars (c :: cs)) := by
  have hinitial : ∀ d ∈ c :: cs, isInitial d := by
    intro d hd
    unfold isInitial Unicode.isLetter
    rw [Unicode.Ranges.contains_eq, List.all_eq_true.mp h d hd, Bool.or_true]
  have hchars : cs.all isNameChar := by
    rw [List.all_eq_true]
    exact fun d hd => isNameChar_of_isInitial (hinitial d (List.mem_cons_of_mem c hd))
  unfold isDeclarable isIdentifier
  rw [Utf8.decode_ofChars]
  simpa [hinitial c List.mem_cons_self, hchars] using hword

section Words

variable {c : Char} {cs k : List Char} (hc : isInitial c) (hcs : ∀ d ∈ cs, isNameChar d)
include hc hcs

theorem lexemesFrom?_word (hk : ∀ d ∈ k.head?, isNameChar d = false) (line : Nat) (canStop : Bool)
    (comments : List Comment) :
    lexemesFrom? line canStop comments (c :: (cs ++ k)) =
      (lexemesFrom? line (Lexeme.word (Bytes.ofChars (c :: cs))).endsStatement [] k).map fun x =>
        (⟨comments, line, .word (Bytes.ofChars (c :: cs))⟩ :: x.1, x.2) := by
  have hname := isNameChar_of_isInitial hc
  have hbreak : c ≠ '\n' := ne_of_isNameChar hname (by decide)
  have hslash : c ≠ '/' := ne_of_isNameChar hname (by decide)
  -- a character of a name is no separator, so that none of the earlier cases applies
  have hblank : isLineBlank c = false := by
    unfold isLineBlank
    simp [ne_of_isNameChar hname (show ' '.toNat ∈ separators by decide),
      ne_of_isNameChar hname (show '\t'.toNat ∈ separators by decide),
      ne_of_isNameChar hname (show '\r'.toNat ∈ separators by decide)]
  have hmore : (cs ++ k).takeWhile isNameChar = cs := by
    rw [List.takeWhile_append_of_pos hcs]
    cases k with
    | nil => simp
    | cons d k => simp [hk d rfl]
  have hlexeme : lexeme? c (cs ++ k) = some (.word (Bytes.ofChars (c :: cs)), cs.length) := by
    unfold lexeme?
    rw [if_pos hc, hmore]
  rw [lexemesFrom?, if_neg hbreak, if_neg (by rw [hblank]; decide), if_neg hslash, hlexeme]
  simp only [Option.bind_eq_bind, Option.bind_some, List.drop_left, reduceCtorEq, if_false]
  cases lexemesFrom? line (Lexeme.word (Bytes.ofChars (c :: cs))).endsStatement [] k <;> rfl

theorem any_isForbidden_eq_false : (c :: cs).any isForbidden = false := by
  rw [List.any_eq_false]
  intro d hd
  have hname : isNameChar d := by
    rw [List.mem_cons] at hd
    obtain rfl | hd := hd
    . exact isNameChar_of_isInitial hc
    . exact hcs d hd
  unfold isForbidden
  simp [ne_of_isNameChar hname (show '\x00'.toNat ∈ separators by decide),
    ne_of_isNameChar hname (show (Char.ofNat 0xFEFF).toNat ∈ separators by decide)]

end Words

section Identifier

variable {b : Bytes} (h : isIdentifier b)
include h

theorem lexemes?_identifier_append {k : List Char} (hforbidden : k.any isForbidden = false)
    (hk : ∀ d ∈ k.head?, isNameChar d = false) :
    lexemes? (b ++ Bytes.ofChars k) = (lexemesFrom? 0 (Lexeme.word b).endsStatement [] k).map fun x =>
      (⟨[], 0, .word b⟩ :: x.1, x.2) := by
  obtain ⟨c, cs, rfl, hc, hcs⟩ := exists_chars h
  unfold lexemes?
  dsimp only
  rw [← Bytes.ofChars_append, Utf8.decode_ofChars, Utf8.isValid_ofChars, List.any_append,
    any_isForbidden_eq_false hc hcs, hforbidden, List.cons_append, lexemesFrom?_word hc hcs hk]
  rfl

theorem lexemes?_identifier : lexemes? b = some ([⟨[], 0, .word b⟩], []) := by
  have hword := lexemes?_identifier_append h (k := []) rfl (by simp)
  rw [show Bytes.ofChars [] = [] from rfl, List.append_nil] at hword
  rw [hword]
  simp [lexemesFrom?]

theorem lexemes?_identifier_break :
    lexemes? (b ++ [0x0A]) =
      some (⟨[], 0, .word b⟩ :: if keywords.contains b then [] else [⟨[], 0, .stop⟩], []) := by
  have hword := lexemes?_identifier_append h (k := ['\n']) (by decide) (by simpa using isNameChar_eq_false (by decide))
  rw [show Bytes.ofChars ['\n'] = [0x0A] from rfl] at hword
  rw [hword]
  cases hkeyword : keywords.contains b <;> simp_all [lexemesFrom?, Lexeme.endsStatement]

theorem lexemes?_identifier_blank : lexemes? (b ++ [0x20] ++ [0x0A]) = lexemes? (b ++ [0x0A]) := by
  have hword := lexemes?_identifier_append h (k := [' ', '\n']) (by decide)
    (by simpa using isNameChar_eq_false (by decide))
  have hbreak := lexemes?_identifier_append h (k := ['\n']) (by decide)
    (by simpa using isNameChar_eq_false (by decide))
  rw [lexemesFrom?, if_neg (by decide), if_pos (by decide)] at hword
  rw [List.append_assoc]
  exact hword.trans hbreak.symm

theorem isDeclarable_of_readName {name : WrittenName} (hread : WrittenName.read? b = some name) : isDeclarable b := by
  unfold isDeclarable
  cases hkeyword : keywords.contains b with
  | false =>
    rw [h]
    rfl
  | true =>
    unfold WrittenName.read? at hread
    rw [lexemes?_identifier h] at hread
    simp only [Option.bind_eq_bind, Option.bind_some, hkeyword, Bool.true_or, if_true] at hread
    contradiction

theorem isDeclarable_of_readHeading {heading : Heading} (hread : Heading.read? b = some heading) :
    isDeclarable b := by
  unfold isDeclarable
  cases hkeyword : keywords.contains b with
  | false =>
    rw [h]
    rfl
  | true =>
    unfold Heading.read? at hread
    rw [lexemes?_identifier_break h] at hread
    simp only [Option.bind_eq_bind, Option.bind_some, hkeyword, if_true, statements, reduceCtorEq, false_and,
      if_false, Bool.true_or] at hread
    contradiction

theorem Heading.read?_blank : Heading.read? (b ++ [0x20]) = Heading.read? b := by
  unfold Heading.read?
  rw [lexemes?_identifier_blank h]

end Identifier

section Declarable

variable {b : Bytes} (h : isDeclarable b)
include h

theorem not_mem_keywords : b ∉ keywords := by
  unfold isDeclarable at h
  simpa using (Bool.and_eq_true_iff.mp h).2

theorem byte_not_mem_separators {x : UInt8} (hx : x ∈ b) : x.toNat ∉ separators := by
  unfold isDeclarable at h
  obtain ⟨c, cs, rfl, hc, hcs⟩ := exists_chars (Bool.and_eq_true_iff.mp h).1
  exact toNat_not_mem_separators (List.forall_mem_cons.mpr ⟨isNameChar_of_isInitial hc, hcs⟩) hx

theorem lexemes?_declarable : lexemes? b = some ([⟨[], 0, .word b⟩], []) :=
  lexemes?_identifier (Bool.and_eq_true_iff.mp h).1

theorem lexemes?_declarable_break :
    lexemes? (b ++ [0x0A]) = some ([⟨[], 0, .word b⟩, ⟨[], 0, .stop⟩], []) := by
  have hkeyword : keywords.contains b = false := by simpa using not_mem_keywords h
  rw [lexemes?_identifier_break (Bool.and_eq_true_iff.mp h).1, hkeyword]
  rfl

theorem WrittenName.read?_declarable : WrittenName.read? b = some { identifier := b } := by
  have hkeyword := not_mem_keywords h
  have hends : Bytes.endsWith b b := List.isSuffixOf_iff_suffix.mpr List.suffix_rfl
  have hhead : b.head? ≠ some 0x2F := by
    intro heq
    exact byte_not_mem_separators h (List.mem_of_mem_head? heq) (by decide)
  have hdrop : Bytes.dropSuffix b b = [] := by
    unfold Bytes.dropSuffix
    rw [if_pos hends, Nat.sub_self, List.take_zero]
  unfold WrittenName.read?
  rw [lexemes?_declarable h]
  simp [hkeyword, hends, hhead, hdrop]

theorem Heading.read?_declarable : Heading.read? b = some ⟨[], 0, b, [], []⟩ := by
  have hkeyword := not_mem_keywords h
  unfold Heading.read?
  rw [lexemes?_declarable_break h]
  simp [statements, hkeyword]

end Declarable

end VerboseExpr.Generated
