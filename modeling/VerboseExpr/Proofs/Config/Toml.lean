import VerboseExpr.Config.Toml.Reader
import VerboseExpr.Config.Toml.Writer
import VerboseExpr.Proofs.Pattern.Escape
import VerboseExpr.Proofs.Text.Quoted

/-!
Settings written as a TOML document and read back. A text between double quotes is read up to its closing quote, a line
is one assignment, and keys that differ are put into the root table one after the other. Main statement: reading gives
back the settings that were written, if their texts are UTF-8.
-/

namespace VerboseExpr.Toml

section Texts

def escapeChar (c : Char) : List Char :=
  if c.toNat < 0x80 then (escapeByte c.toNat.toUInt8).map Utf8.asciiChar else [c]

/-- The character `c` is read from `w`: it stands for itself, after a backslash for a letter, or is numbered. -/
def isEscape (w : List Char) (c : Char) : Bool :=
  match w with
  | [d] => d = c && d ≠ '"' && !isBreak d && d ≠ '\\'
  | ['\\', e] => escapeWidth? e = none && escaped? e = some c
  | '\\' :: 'u' :: ds => ds.length = 4 && Numeral.number? 16 ds = some c.toNat
  | _ => false

theorem isEscape_escapeChar (c : Char) : isEscape (escapeChar c) c := by
  unfold escapeChar
  split
  . next hascii =>
    have hall : ∀ n ∈ List.range 0x80, isEscape ((escapeByte n.toUInt8).map Utf8.asciiChar) (Char.ofNat n) := by
      decide +kernel
    have h := hall c.toNat (List.mem_range.mpr hascii)
    rwa [Char.ofNat_toNat] at h
  . next hascii =>
    have hne : ∀ d : Char, d.toNat < 0x80 → c ≠ d := by
      rintro d hd rfl
      exact hascii hd
    unfold isEscape isBreak
    simp [hne '"' (by decide), hne '\n' (by decide), hne '\r' (by decide), hne '\\' (by decide)]

theorem basic?_of_isEscape {w : List Char} {c : Char} (h : isEscape w c) (k : List Char) :
    basic? (w ++ k) = (basic? k).map fun (t, r) => (c :: t, r) := by
  unfold isEscape at h
  -- a character stands for itself, has a short escape, or is given by four digits
  split at h
  . simp only [Bool.and_eq_true, decide_eq_true_eq, Bool.not_eq_true'] at h
    obtain ⟨⟨⟨rfl, hquote⟩, hbreak⟩, hslash⟩ := h
    rw [List.singleton_append, basic?.eq_def]
    simp [hquote, hbreak, hslash]
  . next e =>
    simp only [Bool.and_eq_true, decide_eq_true_eq] at h
    rw [List.cons_append, List.cons_append, List.nil_append, basic?.eq_def]
    simp only [h.1, h.2, isBreak]
    cases basic? k <;> rfl
  . next ds _ =>
    simp only [Bool.and_eq_true, decide_eq_true_eq] at h
    have hnumbered : numbered? 4 (ds ++ k) = some c := by
      unfold numbered?
      rw [List.length_append, if_neg (by omega), List.take_left' h.1, h.2]
      simp [Quoted.Spells.isScalar_toNat]
    have hwidth : escapeWidth? 'u' = some 4 := rfl
    rw [List.cons_append, List.cons_append, basic?.eq_def]
    simp only [hwidth, hnumbered, isBreak, List.drop_left' h.1]
    cases basic? k <;> rfl
  . contradiction

theorem basic?_quoted (cs k : List Char) : basic? (cs.flatMap escapeChar ++ '"' :: k) = some (cs, k) := by
  induction cs with
  | nil =>
    rw [List.flatMap_nil, List.nil_append, basic?.eq_def]
    rfl
  | cons c cs ih =>
    rw [List.flatMap_cons, List.append_assoc, basic?_of_isEscape (isEscape_escapeChar c), ih, Option.map]

theorem escapeByte_high {b : UInt8} (h : 0x80 ≤ b.toNat) : escapeByte b = [b] := by
  unfold escapeByte
  split
  all_goals first | omega | skip
  rw [if_neg]
  simp
  omega

theorem flatMap_escapeByte_ofChar (c : Char) : (Bytes.ofChar c).flatMap escapeByte = Bytes.ofChars (escapeChar c) := by
  unfold escapeChar
  split
  . next hascii =>
    have hall : (List.range 0x80).all fun n => (escapeByte n.toUInt8).all fun b => b.toNat < 0x80 := by decide +kernel
    have hbytes : ∀ b ∈ escapeByte c.toNat.toUInt8, b.toNat < 0x80 := by
      simpa using List.all_eq_true.mp hall c.toNat (List.mem_range.mpr hascii)
    rw [Utf8.ofChar_of_lt hascii, Utf8.ofChars_map_asciiChar hbytes]
    simp
  . next hascii =>
    have hplain : ∀ b ∈ Bytes.ofChar c, escapeByte b = [b] := fun b hb =>
      escapeByte_high (Utf8.le_of_mem_ofChar hascii hb)
    rw [Bytes.ofChars_cons, Bytes.ofChars_nil, List.append_nil, List.flatMap_congr hplain, List.flatMap_singleton']

def quotedChars (cs : List Char) : List Char := '"' :: (cs.flatMap escapeChar ++ ['"'])

theorem quoted_ofChars (cs : List Char) : quoted (Bytes.ofChars cs) = Bytes.ofChars (quotedChars cs) := by
  have hbody : (Bytes.ofChars cs).flatMap escapeByte = Bytes.ofChars (cs.flatMap escapeChar) := by
    induction cs with
    | nil => rfl
    | cons c cs ih =>
      rw [Bytes.ofChars_cons, List.flatMap_append, flatMap_escapeByte_ofChar, ih, List.flatMap_cons,
        Bytes.ofChars_append]
  unfold quoted quotedChars
  rw [hbody, Bytes.ofChars_cons, Bytes.ofChars_append]
  rfl

theorem exists_of_isEscape {w : List Char} {c : Char} (h : isEscape w c) : ∃ d more, w = d :: more ∧ d ≠ '"' := by
  unfold isEscape at h
  split at h
  . simp only [Bool.and_eq_true, decide_eq_true_eq] at h
    exact ⟨_, [], rfl, h.1.1.2⟩
  . exact ⟨'\\', _, rfl, by decide⟩
  . exact ⟨'\\', _, rfl, by decide⟩
  . contradiction

theorem text?_quotedChars (cs : List Char) {k : List Char} (hk : k.head? ≠ some '"') :
    text? (quotedChars cs ++ k) = some (cs, k) := by
  -- only the empty text begins like three quotes, and then the third is missing
  have hsingle : ∀ more, cs.flatMap escapeChar ++ '"' :: k ≠ '"' :: '"' :: more := by
    intro more heq
    cases cs with
    | nil =>
      cases heq
      contradiction
    | cons c cs =>
      obtain ⟨d, w, hw, hd⟩ := exists_of_isEscape (isEscape_escapeChar c)
      rw [List.flatMap_cons, hw] at heq
      exact hd (List.head_eq_of_cons_eq heq)
  have hbasic := basic?_quoted cs k
  unfold quotedChars
  rw [List.cons_append, List.append_assoc, List.singleton_append]
  generalize cs.flatMap escapeChar ++ '"' :: k = body at hbasic hsingle ⊢
  unfold text?
  split
  . next more heq => exact absurd (List.cons.inj heq).2 (hsingle more)
  . next heq => cases heq
  . next heq =>
    cases heq
    exact hbasic
  . next heq => cases heq
  . next _ hnone _ => exact (hnone body rfl).elim

end Texts

section Lines

theorem value?_blank (cs : List Char) (fuel : Nat) : value? (' ' :: cs) fuel = value? cs fuel := by
  cases fuel with
  | zero => rw [value?, value?]
  | succ fuel => rw [value?, value?, List.dropWhile_cons_of_pos (by decide)]

theorem value?_quotedChars (cs : List Char) {k : List Char} (hk : k.head? ≠ some '"') (fuel : Nat) :
    value? (quotedChars cs ++ k) (fuel + 1) = some (.text cs, k) := by
  have htext := text?_quotedChars cs hk
  obtain ⟨body, hbody⟩ : ∃ body, quotedChars cs ++ k = '"' :: body := ⟨_, rfl⟩
  rw [hbody] at htext ⊢
  rw [value?, List.dropWhile_cons_of_neg (by decide)]
  split
  . next heq => simp at heq
  . next heq => simp at heq
  . next heq =>
    cases heq
    rw [htext]
    rfl
  . next heq => simp at heq

def boolChars (b : Bool) : List Char := if b then ['t', 'r', 'u', 'e'] else ['f', 'a', 'l', 's', 'e']

theorem value?_boolChars (b : Bool) (k : List Char) (fuel : Nat) :
    value? (boolChars b ++ '\n' :: k) (fuel + 1) = some (.bool b, '\n' :: k) := by
  -- the word is all letters and ends with the line, so that it is read as it is
  have hletters : ∀ c ∈ boolChars b, Unicode.isLetter c := by
    have hall : (boolChars true ++ boolChars false).all fun c =>
        Unicode.letters.toList.any fun r => r.1 ≤ c.toNat && c.toNat ≤ r.2 := by
      decide +kernel
    intro c hc
    unfold Unicode.isLetter
    rw [Unicode.Ranges.contains_eq]
    apply List.all_eq_true.mp hall
    cases b <;> simp [hc]
  have hbreak : Unicode.isLetter '\n' = false := by
    unfold Unicode.isLetter
    rw [Unicode.Ranges.contains_eq]
    decide +kernel
  have hword : (boolChars b ++ '\n' :: k).takeWhile Unicode.isLetter = boolChars b := by
    rw [List.takeWhile_append_of_pos hletters]
    simp [hbreak]
  have hbool : bool? (boolChars b ++ '\n' :: k) = some (.bool b, '\n' :: k) := by
    unfold bool?
    dsimp only
    rw [hword, List.drop_left]
    cases b <;> rfl
  obtain ⟨c, w, hw, hc⟩ : ∃ c w, boolChars b ++ '\n' :: k = c :: w ∧ (c = 't' ∨ c = 'f') := by
    cases b
    . exact ⟨'f', _, rfl, .inr rfl⟩
    . exact ⟨'t', _, rfl, .inl rfl⟩
  have hblank : isBlank c = false := by
    obtain rfl | rfl := hc <;> rfl
  rw [hw] at hbool ⊢
  rw [value?, List.dropWhile_cons_of_neg (by simp [hblank])]
  split
  . next heq => simp_all
  . next heq => simp_all
  . next heq =>
    cases heq
    rw [if_neg (by obtain rfl | rfl := hc <;> decide), hbool]
    rfl
  . next heq => cases heq

def itemsChars : List (List Char) → List Char
  | [] => []
  | [t] => quotedChars t
  | t :: ts => quotedChars t ++ ',' :: ' ' :: itemsChars ts

theorem skipLines_quotedChars (t k : List Char) : skipLines false (quotedChars t ++ k) = quotedChars t ++ k := by
  unfold quotedChars
  rw [List.cons_append, skipLines]
  simp [isBreak, isBlank]

theorem items?_blank (cs : List Char) (fuel : Nat) : items? (' ' :: cs) fuel = items? cs fuel := by
  cases fuel with
  | zero => rw [items?, items?]
  | succ fuel => rw [items?, items?, skipLines, if_neg (by decide), if_pos (by decide)]

theorem items?_itemsChars (t : List Char) (ts : List (List Char)) (k : List Char) (fuel : Nat)
    (hfuel : ts.length + 2 ≤ fuel) :
    items? (itemsChars (t :: ts) ++ ']' :: k) fuel = some ((t :: ts).map .text, k) := by
  -- the fuel goes down with the items, and two steps are left for the last one
  induction ts generalizing t fuel with
  | nil =>
    obtain ⟨fuel, rfl⟩ : ∃ n, fuel = n + 2 := ⟨fuel - 2, by simp at hfuel; omega⟩
    have hvalue := value?_quotedChars t (k := ']' :: k) (by simp) fuel
    obtain ⟨body, hbody⟩ : ∃ body, quotedChars t ++ ']' :: k = '"' :: body := ⟨_, rfl⟩
    unfold itemsChars
    rw [items?, skipLines_quotedChars]
    rw [hbody] at hvalue ⊢
    split
    . next heq => simp at heq
    . simp [hvalue, skipLines, isBreak, isBlank]
  | cons u ts ih =>
    obtain ⟨fuel, rfl⟩ : ∃ n, fuel = n + 2 := ⟨fuel - 2, by simp at hfuel; omega⟩
    have hvalue := value?_quotedChars t (k := ',' :: ' ' :: (itemsChars (u :: ts) ++ ']' :: k)) (by simp) fuel
    have hmore := ih u (fuel + 1) (by simp at hfuel; omega)
    obtain ⟨body, hbody⟩ : ∃ body, quotedChars t ++ ',' :: ' ' :: (itemsChars (u :: ts) ++ ']' :: k) = '"' :: body :=
      ⟨_, rfl⟩
    unfold itemsChars
    rw [List.append_assoc, List.cons_append, List.cons_append, items?, skipLines_quotedChars]
    rw [hbody] at hvalue ⊢
    split
    . next heq => simp at heq
    . simp [hvalue, skipLines, isBreak, isBlank, items?_blank, hmore]

theorem length_le_itemsChars (ts : List (List Char)) : ts.length ≤ (itemsChars ts).length := by
  induction ts using itemsChars.induct with
  | case1 => simp
  | case2 t => simp [itemsChars, quotedChars]
  | case3 t ts hne ih =>
    simp only [itemsChars, List.length_append, List.length_cons]
    omega

def arrayChars (ts : List (List Char)) : List Char := '[' :: (itemsChars ts ++ [']'])

theorem value?_arrayChars (t : List Char) (ts : List (List Char)) (k : List Char) (fuel : Nat)
    (hfuel : ts.length + 3 ≤ fuel) :
    value? (arrayChars (t :: ts) ++ k) fuel = some (.array ((t :: ts).map .text), k) := by
  obtain ⟨fuel, rfl⟩ : ∃ n, fuel = n + 1 := ⟨fuel - 1, by omega⟩
  have hitems := items?_itemsChars t ts k fuel (by omega)
  unfold arrayChars
  rw [List.cons_append, List.append_assoc, List.singleton_append, value?, List.dropWhile_cons_of_neg (by decide)]
  split
  . next heq =>
    cases heq
    rw [hitems]
    rfl
  . next heq => simp at heq
  . next heq =>
    cases heq
    contradiction
  . next heq => cases heq

/-- A line of a document that sets one key, and the value that it is meant to set. -/
structure Line where
  key : List Char
  written : List Char
  value : Value

def Line.chars (l : Line) : List Char := l.key ++ ' ' :: '=' :: ' ' :: (l.written ++ ['\n'])

/-- The key is one name, and its value is read up to the end of the line. -/
structure Line.IsRead (l : Line) : Prop where
  key_ne_nil : l.key ≠ []
  key_all : l.key.all isKeyChar
  value?_eq : ∀ (k : List Char) (fuel : Nat), l.written.length < fuel →
    value? (l.written ++ '\n' :: k) fuel = some (l.value, '\n' :: k)

variable {l : Line}

theorem Line.IsRead.exists_cons (h : l.IsRead) :
    ∃ c name, l.key = c :: name ∧ isKeyChar c ∧ isBlank c = false ∧ isBreak c = false ∧ c ≠ '#' ∧ c ≠ '"' ∧
      c ≠ '\'' ∧ c ≠ '[' := by
  obtain ⟨c, name, hkey⟩ := List.exists_cons_of_ne_nil h.key_ne_nil
  have hc : isKeyChar c := List.all_eq_true.mp h.key_all c (by simp [hkey])
  refine ⟨c, name, hkey, hc, ?_, ?_, ?_⟩
  . unfold isBlank
    simp only [Bool.or_eq_false_iff, decide_eq_false_iff_not]
    constructor <;> (rintro rfl; exact absurd hc (by decide))
  . unfold isBreak
    simp only [Bool.or_eq_false_iff, decide_eq_false_iff_not]
    constructor <;> (rintro rfl; exact absurd hc (by decide))
  . refine ⟨?_, ?_, ?_, ?_⟩ <;> (rintro rfl; exact absurd hc (by decide))

theorem Line.IsRead.key?_eq (h : l.IsRead) (k : List Char) (fuel : Nat) :
    key? (l.key ++ ' ' :: '=' :: k) (fuel + 1) = some ([l.key], '=' :: k) := by
  obtain ⟨c, name, hkey, -, hblank, -, -, hdouble, hsingle, -⟩ := h.exists_cons
  have hname : (l.key ++ ' ' :: '=' :: k).takeWhile isKeyChar = l.key := by
    rw [List.takeWhile_append_of_pos (List.all_eq_true.mp h.key_all)]
    simp [show isKeyChar ' ' = false by decide]
  -- a key that is read begins with none of the characters at which a key is read another way
  have hpart : keyPart? (l.key ++ ' ' :: '=' :: k) = some (l.key, ' ' :: '=' :: k) := by
    unfold keyPart?
    rw [show (l.key ++ ' ' :: '=' :: k).dropWhile isBlank = l.key ++ ' ' :: '=' :: k by
      rw [hkey, List.cons_append, List.dropWhile_cons_of_neg (by simp [hblank])]]
    split
    . next heq =>
      rw [hkey] at heq
      exact absurd (List.cons.inj heq).1 hdouble
    . next heq =>
      rw [hkey] at heq
      exact absurd (List.cons.inj heq).1 hsingle
    . dsimp only
      rw [hname, List.drop_left]
      simp [h.key_ne_nil]
  rw [key?, hpart]
  rfl

theorem Line.IsRead.statement?_eq (h : l.IsRead) (k : List Char) :
    statement? (l.chars ++ k) = some (.assignment [l.key] l.value, '\n' :: k) := by
  obtain ⟨c, name, hkey, -, -, -, -, -, -, hbracket⟩ := h.exists_cons
  have hchars : l.chars ++ k = l.key ++ ' ' :: '=' :: ' ' :: (l.written ++ '\n' :: k) := by simp [Line.chars]
  have hlength : (l.chars ++ k).length = name.length + (l.written.length + (k.length + 4)) + 1 := by
    rw [hchars, hkey]
    simp only [List.length_append, List.length_cons]
    omega
  have hparsed := h.key?_eq (' ' :: (l.written ++ '\n' :: k)) (name.length + (l.written.length + (k.length + 4)))
  have hvalue := h.value?_eq k (2 * (' ' :: (l.written ++ '\n' :: k)).length + 2) (by
    simp only [List.length_append, List.length_cons]
    omega)
  have hfirst : l.chars ++ k = c :: (name ++ ' ' :: '=' :: ' ' :: (l.written ++ '\n' :: k)) := by
    rw [hchars, hkey, List.cons_append]
  rw [← hchars, ← hlength] at hparsed
  unfold statement?
  -- the first two branches are for headers, which begin with a bracket
  split
  . next heq =>
    rw [hfirst] at heq
    exact absurd (List.cons.inj heq).1 hbracket
  . next heq =>
    rw [hfirst] at heq
    exact absurd (List.cons.inj heq).1 hbracket
  . rw [hparsed]
    simp only [Option.bind_eq_bind, Option.bind_some, value?_blank, hvalue]
    simp [lineEnd?, isBreak, isBlank]

theorem skipLines_chars (h : l.IsRead) (k : List Char) : skipLines false (l.chars ++ k) = l.chars ++ k := by
  obtain ⟨c, name, hkey, -, hblank, hbreak, hnumber, -, -, -⟩ := h.exists_cons
  have hfirst : l.chars ++ k = c :: (name ++ ' ' :: '=' :: ' ' :: (l.written ++ '\n' :: k)) := by
    simp [Line.chars, hkey]
  rw [hfirst, skipLines]
  simp [hbreak, hblank, hnumber]

theorem statements?_break (k : List Char) (fuel : Nat) : statements? ('\n' :: k) fuel = statements? k fuel := by
  cases fuel with
  | zero => rw [statements?, statements?]
  | succ fuel => rw [statements?, statements?, skipLines, if_pos (by decide)]

theorem statements?_flatMap {ls : List Line} (h : ∀ l ∈ ls, l.IsRead) {fuel : Nat} (hfuel : ls.length < fuel) :
    statements? (ls.flatMap Line.chars) fuel = some (ls.map fun l => .assignment [l.key] l.value) := by
  induction ls generalizing fuel with
  | nil =>
    obtain ⟨n, rfl⟩ : ∃ n, fuel = n + 1 := ⟨fuel - 1, by omega⟩
    rfl
  | cons l ls ih =>
    obtain ⟨n, rfl⟩ : ∃ n, fuel = n + 2 := ⟨fuel - 2, by simp at hfuel; omega⟩
    have hl := h l (by simp)
    have hrest := ih (fun l hl => h l (by simp [hl])) (by simp at hfuel; omega : _ < n + 1)
    have hstatement := hl.statement?_eq (ls.flatMap Line.chars)
    have hskipped := skipLines_chars hl (ls.flatMap Line.chars)
    rw [List.flatMap_cons, statements?, hskipped]
    generalize l.chars ++ ls.flatMap Line.chars = cs at hstatement ⊢
    split
    . cases hstatement
    . simp [hstatement, statements?_break, hrest]

end Lines

section Tables

def Value.isSimple : Value → Bool
  | .text _ | .bool _ => true
  | _ => false

def Value.isFlat : Value → Bool
  | .array items => items.all isSimple
  | v => v.isSimple

theorem visit?_isSimple {v : Value} (h : v.isSimple) (b : Build) (k : List Char) (inArray : Bool) :
    b.visit? k inArray v = some (b, .value v) := by
  cases v with
  | text cs => rw [Build.visit?] <;> simp
  | bool t => rw [Build.visit?] <;> simp
  | _ => exact absurd h (by simp [Value.isSimple])

/-- The build holds the same tables, and keys belong to the same one. -/
def Build.Agree (b b' : Build) : Prop := b'.root = b.root ∧ b'.context = b.context

theorem visitItems?_isFlat {items : List Value} (h : (Value.array items).isFlat) (b : Build) (k : List Char) :
    b.visitItems? k items = some b := by
  induction items with
  | nil => rw [Build.visitItems?]
  | cons v items ih =>
    rw [Value.isFlat, List.all_cons, Bool.and_eq_true] at h
    rw [Build.visitItems?, visit?_isSimple h.1]
    exact ih h.2

theorem visit?_isFlat {v : Value} (h : v.isFlat) (b : Build) (k : List Char) :
    ∃ b', b.visit? k false v = some (b', .value v) ∧ b.Agree b' := by
  cases v with
  | array items =>
    refine ⟨b.note k true, ?_, rfl, rfl⟩
    rw [Build.visit?, visitItems?_isFlat h]
    rfl
  | _ => exact ⟨b, visit?_isSimple (by simpa [Value.isFlat] using h) b k false, rfl, rfl⟩

theorem run?_assignment {b : Build} {k : List Char} {v : Value} (hcontext : b.context = [])
    (hfresh : b.root.any (·.1 == k) = false) (hflat : v.isFlat) :
    ∃ b', b.run? (.assignment [k] v) = some b' ∧ b'.root = b.root ++ [(k, Entry.value v)] ∧ b'.context = [] := by
  obtain ⟨b₁, hvisit, hroot, hcontext₁⟩ := visit?_isFlat hflat b k
  rw [hcontext] at hcontext₁
  have hlookup : b.root.lookup k = none := by
    rw [List.lookup_eq_none_iff]
    intro p hp
    have hne := List.any_eq_false.mp hfresh p hp
    simp only [beq_iff_eq] at hne
    simp [Ne.symm hne]
  have hdefine : b₁.define? k (.value v) = some { b₁ with root := b.root ++ [(k, Entry.value v)] } := by
    unfold Build.define?
    simp [hcontext₁, hroot, Table.at?, Table.modifyAt?, Table.put, hlookup, hfresh]
  unfold Build.run?
  simp only [Build.visitEntries?, List.dropLast_singleton, List.getLastD_cons, List.getLastD_nil, Build.enterDotted?,
    hvisit, hdefine, Option.bind_eq_bind, Option.bind_some, Table.putAt?, hcontext]
  exact ⟨_, rfl, rfl, rfl⟩

theorem table?_map {ls : List Line} (hkeys : (ls.map (·.key)).Nodup) (hflat : ∀ l ∈ ls, l.value.isFlat) :
    table? (ls.map fun l => .assignment [l.key] l.value) = some (ls.map fun l => (l.key, .value l.value)) := by
  -- The statements add to any build whose keys are different from theirs.
  have hrun : ∀ b : Build, b.context = [] → (∀ l ∈ ls, b.root.any (·.1 == l.key) = false) →
      ∃ b', (ls.map fun l => Statement.assignment [l.key] l.value).foldlM Build.run? b = some b' ∧
        b'.root = b.root ++ ls.map fun l => (l.key, Entry.value l.value) := by
    induction ls with
    | nil =>
      intro b _ _
      exact ⟨b, rfl, by simp⟩
    | cons l ls ih =>
      intro b hcontext hfresh
      rw [List.map_cons, List.nodup_cons] at hkeys
      obtain ⟨b₁, hstep, hroot, hcontext₁⟩ := run?_assignment hcontext (hfresh l (by simp)) (hflat l (by simp))
      obtain ⟨b', hrest, hroot'⟩ := ih hkeys.2 (fun l hl => hflat l (by simp [hl])) b₁ hcontext₁ (by
        intro l' hl'
        have hne : l.key ≠ l'.key := fun heq => hkeys.1 (List.mem_map.mpr ⟨l', hl', heq.symm⟩)
        rw [hroot, List.any_append, hfresh l' (by simp [hl'])]
        simp [hne])
      refine ⟨b', ?_, ?_⟩
      . rw [List.map_cons, List.foldlM_cons, hstep]
        exact hrest
      . rw [hroot', hroot]
        simp
  obtain ⟨b', hfold, hroot⟩ := hrun {} rfl (by intros; rfl)
  unfold table?
  rw [hfold, Option.map_some, hroot]
  rfl

end Tables

section Documents

def textLine (key : String) (cs : List Char) : Line := ⟨key.toList, quotedChars cs, .text cs⟩

def boolLine (key : String) (b : Bool) : Line := ⟨key.toList, boolChars b, .bool b⟩

def textsLine (key : String) (ts : List (List Char)) : Line := ⟨key.toList, arrayChars ts, .array (ts.map .text)⟩

def lines (c : Config) : List Line :=
  [textLine "name" (Utf8.decode c.name), textLine "package" (Utf8.decode c.package),
    textLine "output" (Utf8.decode c.output), textLine "engine" (Utf8.decode c.engine),
    boolLine "verbose" c.verbose, boolLine "no_color" c.noColor, boolLine "test_file" c.testFile] ++
    if c.inputs.isEmpty then [] else [textsLine "inputs" (c.inputs.map Utf8.decode)]

def isKey (key : String) : Bool := key.toList ≠ [] && key.toList.all isKeyChar

theorem of_mem_lines {c : Config} {l : Line} (h : l ∈ lines c) : ∃ key, isKey key ∧
    ((∃ cs, l = textLine key cs) ∨ (∃ b, l = boolLine key b) ∨ ∃ t ts, l = textsLine key (t :: ts)) := by
  obtain h | h := List.mem_append.mp h
  . simp only [List.mem_cons, List.not_mem_nil, or_false] at h
    obtain rfl | rfl | rfl | rfl | rfl | rfl | rfl := h
    all_goals first
      | exact ⟨_, by decide, .inl ⟨_, rfl⟩⟩
      | exact ⟨_, by decide, .inr (.inl ⟨_, rfl⟩)⟩
  . cases hinputs : c.inputs with
    | nil => simp [hinputs] at h
    | cons t ts =>
      simp only [hinputs, List.isEmpty_cons, Bool.false_eq_true, if_false, List.mem_singleton] at h
      exact ⟨_, by decide, .inr (.inr ⟨_, _, h⟩)⟩

theorem isRead_of_mem_lines {c : Config} {l : Line} (h : l ∈ lines c) : l.IsRead := by
  obtain ⟨key, hkey, h⟩ := of_mem_lines h
  simp only [isKey, Bool.and_eq_true, decide_eq_true_eq] at hkey
  obtain ⟨cs, rfl⟩ | ⟨b, rfl⟩ | ⟨t, ts, rfl⟩ := h
  . refine ⟨hkey.1, hkey.2, fun k fuel hfuel => ?_⟩
    obtain ⟨n, rfl⟩ : ∃ n, fuel = n + 1 := ⟨fuel - 1, by omega⟩
    exact value?_quotedChars cs (by simp) n
  . refine ⟨hkey.1, hkey.2, fun k fuel hfuel => ?_⟩
    obtain ⟨n, rfl⟩ : ∃ n, fuel = n + 1 := ⟨fuel - 1, by omega⟩
    exact value?_boolChars b k n
  . refine ⟨hkey.1, hkey.2, fun k fuel hfuel => value?_arrayChars t ts _ fuel ?_⟩
    have hlength := length_le_itemsChars (t :: ts)
    simp only [textsLine, arrayChars, List.length_append, List.length_cons] at hfuel hlength
    omega

theorem isFlat_of_mem_lines {c : Config} {l : Line} (h : l ∈ lines c) : l.value.isFlat := by
  obtain ⟨key, -, ⟨cs, rfl⟩ | ⟨b, rfl⟩ | ⟨t, ts, rfl⟩⟩ := of_mem_lines h
  . rfl
  . rfl
  . simp [textsLine, Value.isFlat, Value.isSimple]

theorem nodup_lines (c : Config) : ((lines c).map (·.key)).Nodup := by
  have hkeys : (["name", "package", "output", "engine", "verbose", "no_color", "test_file", "inputs"].map
      String.toList).Nodup := by
    decide +kernel
  unfold lines
  cases c.inputs with
  | nil => exact hkeys.sublist (List.sublist_append_left _ ["inputs".toList])
  | cons t ts => exact hkeys

/-- May the character stand in a document, other than as a carriage return? -/
def isClean (c : Char) : Bool := isAllowed c && c ≠ '\r'

theorem isClean_escapeChar (c : Char) : (escapeChar c).all isClean := by
  unfold escapeChar
  split
  . next hascii =>
    have hall : ∀ n ∈ List.range 0x80, ((escapeByte n.toUInt8).map Utf8.asciiChar).all isClean := by decide +kernel
    exact hall c.toNat (List.mem_range.mpr hascii)
  . next hascii =>
    have hreturn : c ≠ '\r' := by
      rintro rfl
      exact hascii (by decide)
    have hdelete : c.toNat ≠ 0x7F := by omega
    have hblank : 0x20 ≤ c.toNat := by omega
    simp [isClean, isAllowed, hreturn, hdelete, hblank]

theorem isClean_quotedChars (cs : List Char) : (quotedChars cs).all isClean := by
  have hbody : (cs.flatMap escapeChar).all isClean := by
    simpa [List.all_flatMap] using fun c (_ : c ∈ cs) => List.all_eq_true.mp (isClean_escapeChar c)
  unfold quotedChars
  rw [List.all_cons, List.all_append, hbody]
  rfl

theorem isClean_itemsChars (ts : List (List Char)) : (itemsChars ts).all isClean := by
  induction ts using itemsChars.induct with
  | case1 => rfl
  | case2 t => exact isClean_quotedChars t
  | case3 t ts hne ih =>
    rw [itemsChars, List.all_append, isClean_quotedChars, List.all_cons, List.all_cons, ih]
    . rfl
    . exact hne

theorem isClean_of_isKeyChar {d : Char} (h : isKeyChar d) : isClean d := by
  have hbounds : 0x20 ≤ d.toNat ∧ d.toNat < 0x7F := by
    unfold isKeyChar Char.isAlphanum Char.isAlpha Char.isUpper Char.isLower Char.isDigit at h
    simp only [Bool.or_eq_true, Bool.and_eq_true, decide_eq_true_eq, ge_iff_le, UInt32.le_iff_toNat_le] at h
    obtain (((h | h) | h) | rfl) | rfl := h
    . exact ⟨Nat.le_trans (by decide) h.1, Nat.lt_of_le_of_lt h.2 (by decide)⟩
    . exact ⟨Nat.le_trans (by decide) h.1, Nat.lt_of_le_of_lt h.2 (by decide)⟩
    . exact ⟨Nat.le_trans (by decide) h.1, Nat.lt_of_le_of_lt h.2 (by decide)⟩
    . decide
    . decide
  have hreturn : d ≠ '\r' := by
    rintro rfl
    exact absurd hbounds (by decide)
  have hdelete : d.toNat ≠ 0x7F := by omega
  simp [isClean, isAllowed, hreturn, hdelete, hbounds.1]

theorem isClean_chars {c : Config} {l : Line} (h : l ∈ lines c) : l.chars.all isClean := by
  have hkey : l.key.all isClean :=
    List.all_eq_true.mpr fun d hd => isClean_of_isKeyChar (List.all_eq_true.mp (isRead_of_mem_lines h).key_all d hd)
  have hwritten : l.written.all isClean := by
    obtain ⟨-, -, ⟨cs, rfl⟩ | ⟨b, rfl⟩ | ⟨t, ts, rfl⟩⟩ := of_mem_lines h
    . exact isClean_quotedChars cs
    . cases b <;> rfl
    . unfold textsLine arrayChars
      rw [List.all_cons, List.all_append, isClean_itemsChars]
      rfl
  unfold Line.chars
  simp only [List.all_append, List.all_cons, hkey, hwritten]
  rfl

theorem returnsPaired_of_isClean {cs : List Char} (h : cs.all isClean) : returnsPaired cs := by
  induction cs using returnsPaired.induct with
  | case1 => rfl
  | case2 rest ih => exact absurd h (by simp [isClean])
  | case3 c rest hc ih =>
    rw [List.all_cons, Bool.and_eq_true] at h
    rw [returnsPaired]
    . exact ih h.2
    . exact hc

theorem entry_ofChars (key : String) (w : List Char) (v : Value) :
    entry key (Bytes.ofChars w) = Bytes.ofChars (Line.chars ⟨key.toList, w, v⟩) := by
  unfold entry Line.chars Bytes.ofString
  simp only [Bytes.ofChars_append, Bytes.ofChars_cons]
  simp [Bytes.ofChars_cons, Bytes.ofChars_nil, Bytes.ofChar]

theorem quoted_decode {b : Bytes} (h : Utf8.isValid b) : quoted b = Bytes.ofChars (quotedChars (Utf8.decode b)) := by
  rw [← quoted_ofChars, Utf8.ofChars_decode h]

theorem ofBool_eq (b : Bool) : Bytes.ofBool b = Bytes.ofChars (boolChars b) := by cases b <;> rfl

theorem join_quoted {ts : List Bytes} (h : ∀ t ∈ ts, Utf8.isValid t) :
    Bytes.join (Bytes.ofString ", ") (ts.map quoted) = Bytes.ofChars (itemsChars (ts.map Utf8.decode)) := by
  induction ts with
  | nil => rfl
  | cons t ts ih =>
    have ht := quoted_decode (h t (by simp))
    have hts := ih fun t ht => h t (by simp [ht])
    cases ts with
    | nil => exact ht
    | cons u us =>
      have hcomma : Bytes.ofString ", " = [0x2C, 0x20] := by decide
      have hascii : Bytes.ofChar ',' = [0x2C] ∧ Bytes.ofChar ' ' = [0x20] := by decide
      simp only [List.map_cons, Bytes.join, itemsChars, Bytes.ofChars_append, Bytes.ofChars_cons] at hts ⊢
      rw [ht, hts, hcomma, hascii.1, hascii.2]
      simp

theorem write_eq {c : Config} (h : ∀ b ∈ c.texts, Utf8.isValid b) :
    write c = Bytes.ofChars ((lines c).flatMap Line.chars) := by
  simp only [Config.texts, List.mem_append, List.mem_cons, List.not_mem_nil, or_false] at h
  -- the list of inputs is the one setting that is left out where it is empty
  have hinputs : (if c.inputs.isEmpty then [] else entry "inputs" (Bytes.ofString "[" ++
      Bytes.join (Bytes.ofString ", ") (c.inputs.map quoted) ++ Bytes.ofString "]")) =
      Bytes.ofChars ((if c.inputs.isEmpty then [] else [textsLine "inputs" (c.inputs.map Utf8.decode)]).flatMap
        Line.chars) := by
    have hopen : Bytes.ofString "[" = Bytes.ofChars ['['] := rfl
    have hclose : Bytes.ofString "]" = Bytes.ofChars [']'] := rfl
    split
    . rfl
    . rw [join_quoted fun t ht => h t (.inr ht), hopen, hclose, ← Bytes.ofChars_append, ← Bytes.ofChars_append,
        entry_ofChars _ _ (.array ((c.inputs.map Utf8.decode).map .text))]
      simp [textsLine, arrayChars]
  unfold write lines
  rw [hinputs, List.flatMap_append, Bytes.ofChars_append, quoted_decode (h _ (.inl (.inl rfl))),
    quoted_decode (h _ (.inl (.inr (.inl rfl)))), quoted_decode (h _ (.inl (.inr (.inr (.inl rfl))))),
    quoted_decode (h _ (.inl (.inr (.inr (.inr rfl))))), ofBool_eq, ofBool_eq, ofBool_eq,
    entry_ofChars "name" _ (.text (Utf8.decode c.name)), entry_ofChars "package" _ (.text (Utf8.decode c.package)),
    entry_ofChars "output" _ (.text (Utf8.decode c.output)), entry_ofChars "engine" _ (.text (Utf8.decode c.engine)),
    entry_ofChars "verbose" _ (.bool c.verbose), entry_ofChars "no_color" _ (.bool c.noColor),
    entry_ofChars "test_file" _ (.bool c.testFile)]
  simp [textLine, boolLine, Bytes.ofChars_append]

theorem characters?_write {c : Config} (h : ∀ b ∈ c.texts, Utf8.isValid b) :
    characters? (write c) = some ((lines c).flatMap Line.chars) := by
  have hclean : ((lines c).flatMap Line.chars).all isClean := by
    rw [List.all_flatMap]
    exact List.all_eq_true.mpr fun l hl => isClean_chars hl
  have hallowed : ((lines c).flatMap Line.chars).all isAllowed := by
    refine List.all_eq_true.mpr fun d hd => ?_
    have := List.all_eq_true.mp hclean d hd
    simp only [isClean, Bool.and_eq_true] at this
    exact this.1
  have hmark : dropMark (write c) = write c := by
    obtain ⟨rest, hrest⟩ : ∃ rest, write c = 0x6E :: rest := ⟨_, rfl⟩
    rw [hrest]
    rfl
  unfold characters?
  dsimp only
  rw [hmark, write_eq h, Utf8.decode_ofChars, Utf8.isValid_ofChars, hallowed, returnsPaired_of_isClean hclean]
  rfl

theorem foldlM_assign? {c : Config} (h : ∀ b ∈ c.texts, Utf8.isValid b) :
    ((lines c).map fun l => (l.key, Entry.value l.value)).foldlM assign? Config.default = some c := by
  simp only [Config.texts, List.mem_append, List.mem_cons, List.not_mem_nil, or_false] at h
  have htext : ∀ {b : Bytes}, Utf8.isValid b → asText? (.value (.text (Utf8.decode b))) = some b := by
    intro b hb
    rw [asText?, Utf8.ofChars_decode hb]
  have htexts : ∀ {ts : List Bytes}, (∀ t ∈ ts, Utf8.isValid t) →
      asTexts? (.value (.array ((ts.map Utf8.decode).map .text))) = some ts := by
    intro ts hts
    induction ts with
    | nil => rfl
    | cons t ts ih =>
      have hmore := ih fun t ht => hts t (by simp [ht])
      rw [asTexts?] at hmore ⊢
      rw [List.map_cons, List.map_cons, List.mapM_cons, htext (hts t (by simp)), hmore]
      rfl
  -- one equation for each key, so that the fold goes on without comparing the names again
  have hname : ∀ c₀ e, assign? c₀ ("name".toList, e) = (asText? e).map ({ c₀ with name := · }) := fun _ _ => rfl
  have hpackage : ∀ c₀ e, assign? c₀ ("package".toList, e) = (asText? e).map ({ c₀ with package := · }) :=
    fun _ _ => rfl
  have houtput : ∀ c₀ e, assign? c₀ ("output".toList, e) = (asText? e).map ({ c₀ with output := · }) :=
    fun _ _ => rfl
  have hengine : ∀ c₀ e, assign? c₀ ("engine".toList, e) = (asText? e).map ({ c₀ with engine := · }) :=
    fun _ _ => rfl
  have hverbose : ∀ c₀ e, assign? c₀ ("verbose".toList, e) = (asBool? e).map ({ c₀ with verbose := · }) :=
    fun _ _ => rfl
  have hnoColor : ∀ c₀ e, assign? c₀ ("no_color".toList, e) = (asBool? e).map ({ c₀ with noColor := · }) :=
    fun _ _ => rfl
  have htestFile : ∀ c₀ e, assign? c₀ ("test_file".toList, e) = (asBool? e).map ({ c₀ with testFile := · }) :=
    fun _ _ => rfl
  have hinputs : ∀ c₀ e, assign? c₀ ("inputs".toList, e) = (asTexts? e).map ({ c₀ with inputs := · }) :=
    fun _ _ => rfl
  unfold lines
  simp only [textLine, boolLine, List.cons_append, List.nil_append, List.map_cons, List.foldlM_cons, hname, hpackage,
    houtput, hengine, hverbose, hnoColor, htestFile, htext (h _ (.inl (.inl rfl))),
    htext (h _ (.inl (.inr (.inl rfl)))), htext (h _ (.inl (.inr (.inr (.inl rfl))))),
    htext (h _ (.inl (.inr (.inr (.inr rfl))))), asBool?, Option.map_some, Option.bind_eq_bind, Option.bind_some]
  split
  . next hempty =>
    have hnone : c.inputs = [] := List.isEmpty_iff.mp hempty
    cases c
    cases hnone
    rfl
  . simp only [textsLine, List.map_cons, List.map_nil, List.foldlM_cons, List.foldlM_nil, hinputs,
      htexts fun t ht => h t (.inr ht)]
    rfl

/-- Settings are read as they were written. -/
theorem read?_write {c : Config} (h : ∀ b ∈ c.texts, Utf8.isValid b) : read? (write c) = some c := by
  -- Every statement takes at least one character, so that there is fuel for all of them.
  have hlength : (lines c).length < ((lines c).flatMap Line.chars).length + 1 := by
    have hle : ∀ ls : List Line, ls.length ≤ (ls.flatMap Line.chars).length := by
      intro ls
      induction ls with
      | nil => simp
      | cons l ls ih =>
        rw [List.flatMap_cons, List.length_append]
        simp only [Line.chars, List.length_append, List.length_cons]
        omega
    exact Nat.lt_succ_of_le (hle _)
  unfold read?
  rw [characters?_write h]
  simp only [Option.bind_eq_bind, Option.bind_some, statements?_flatMap (fun l hl => isRead_of_mem_lines hl) hlength,
    table?_map (nodup_lines c) fun l hl => isFlat_of_mem_lines hl]
  exact foldlM_assign? h

end Documents

end VerboseExpr.Toml
