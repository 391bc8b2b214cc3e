import VerboseExpr.Proofs.Pattern.Escape
import VerboseExpr.Regex.Automaton.Limits

/-!
The automaton engine knows no back references. It reads a backslash and a digit as an octal escape, which begins
with a zero or with two octal digits, and refuses all others. Main statement: whatever it accepts has only
octal escapes, wherever the backslash stands.
-/

namespace VerboseExpr.Regex.Automaton

def isOctalByte (b : UInt8) : Bool := 0x30 ≤ b && b ≤ 0x37

/-- Can the text after a backslash only be a reference to a group? It begins with a digit, which is not zero
and not the first of two octal digits. -/
def beginsReference : Bytes → Bool
  | [] => false
  | d :: rest => 0x31 ≤ d && d ≤ 0x39 && !(isOctalByte d && rest.head?.any isOctalByte)

/-- No backslash begins a reference. What follows a backslash is not one itself. -/
inductive Unreferring : Bytes → Prop where
  | nil : Unreferring []
  | plain {b : UInt8} {bs : Bytes} : b ≠ 0x5C → Unreferring bs → Unreferring (b :: bs)
  | escape {d : UInt8} {bs : Bytes} :
    beginsReference (d :: bs) = false → Unreferring bs → Unreferring (0x5C :: d :: bs)

section Bytes

variable {b d : UInt8} {bs cs v : Bytes}

theorem isOctalByte_iff (b : UInt8) : isOctalByte b ↔ 0x30 ≤ b.toNat ∧ b.toNat ≤ 0x37 := by
  simp [isOctalByte, UInt8.le_iff_toNat_le]

theorem beginsReference_cons (d : UInt8) (rest : Bytes) :
    beginsReference (d :: rest) ↔
      0x31 ≤ d.toNat ∧ d.toNat ≤ 0x39 ∧ ¬(isOctalByte d ∧ rest.head?.any isOctalByte) := by
  rw [beginsReference, Bool.and_eq_true, Bool.and_eq_true, decide_eq_true_eq, decide_eq_true_eq,
    Bool.not_eq_true', ← Bool.not_eq_true, Bool.and_eq_true, UInt8.le_iff_toNat_le, UInt8.le_iff_toNat_le,
    and_assoc]
  rfl

theorem Unreferring.append_left (hbs : ∀ b ∈ bs, b ≠ 0x5C) (h : Unreferring cs) :
    Unreferring (bs ++ cs) := by
  induction bs with
  | nil => exact h
  | cons b bs ih =>
    apply Unreferring.plain (hbs b List.mem_cons_self)
    apply ih
    intro c hc
    exact hbs c (List.mem_cons_of_mem b hc)

theorem ne_of_mem_ofChar {c : Char} {b : UInt8} (hc : c ≠ '\\') (hb : b ∈ Bytes.ofChar c) : b ≠ 0x5C := by
  rintro rfl
  by_cases hascii : c.toNat < 0x80
  . rw [Utf8.ofChar_of_lt hascii, List.mem_singleton] at hb
    apply hc
    apply Char.toNat_inj.1
    have hbyte : c.toNat.toUInt8.toNat = c.toNat := UInt8.toNat_ofNat_of_lt' (by omega : c.toNat < 256)
    rw [← hbyte, ← hb]
    rfl
  . have hle := Utf8.le_of_mem_ofChar hascii hb
    exact absurd hle (by decide)

theorem Unreferring.of_cons (hb : b ≠ 0x5C) (h : Unreferring (b :: bs)) : Unreferring bs := by
  cases h with
  | plain _ h => exact h
  | escape _ _ => contradiction

theorem Unreferring.of_append (hbs : 0x5C ∉ bs) (h : Unreferring (bs ++ cs)) : Unreferring cs := by
  induction bs with
  | nil => exact h
  | cons b bs ih =>
    rw [List.mem_cons, not_or] at hbs
    exact ih hbs.2 (h.of_cons (Ne.symm hbs.1))

theorem Unreferring.of_backslash (h : Unreferring (0x5C :: d :: bs)) :
    beginsReference (d :: bs) = false ∧ Unreferring bs := by
  cases h with
  | plain hne _ => contradiction
  | escape hd h => exact ⟨hd, h⟩

theorem Unreferring.of_escape (h : Unreferring (Pattern.escape v ++ bs)) : Unreferring bs := by
  induction v with
  | nil =>
    rw [Pattern.escape_nil] at h
    exact h
  | cons b v ih =>
    rw [Pattern.escape_cons] at h
    split at h
    . exact ih h.of_backslash.2
    . next hspecial =>
      apply ih
      apply h.of_cons
      rintro rfl
      exact hspecial (by decide)

theorem not_mem_of_isInteger (h : Pattern.isInteger v) : 0x5C ∉ v := by
  intro hmem
  have hdigit := ((Pattern.isInteger_iff v).1 h).2 _ hmem
  exact absurd hdigit (by decide)

end Bytes

section Characters

def Plain (cs : List Char) : Prop := Unreferring (Bytes.ofChars cs)

variable {c d : Char} {cs rest : List Char} {n : Nat}

theorem Plain.cons (hc : c ≠ '\\') (h : Plain cs) : Plain (c :: cs) :=
  Unreferring.append_left (fun _ hb => ne_of_mem_ofChar hc hb) h

theorem Plain.append {ds : List Char} (hcs : '\\' ∉ cs) (h : Plain ds) : Plain (cs ++ ds) := by
  induction cs with
  | nil => exact h
  | cons c cs ih =>
    rw [List.mem_cons, not_or] at hcs
    exact (ih hcs.2).cons (Ne.symm hcs.1)

theorem Plain.of_drop (htake : '\\' ∉ cs.take n) (h : Plain (cs.drop n)) : Plain cs := by
  rw [← List.take_append_drop n cs]
  exact h.append htake

theorem Plain.escape (hascii : d.toNat < 0x80) (hd : beginsReference (Bytes.ofChars (d :: rest)) = false)
    (h : Plain rest) : Plain ('\\' :: d :: rest) := by
  rw [Bytes.ofChars_cons, Utf8.ofChar_of_lt hascii] at hd
  rw [Plain, Bytes.ofChars_cons, Bytes.ofChars_cons, Utf8.ofChar_of_lt hascii]
  exact Unreferring.escape hd h

theorem isOctal_iff : isOctal c ↔ 0x30 ≤ c.toNat ∧ c.toNat ≤ 0x37 := by
  rw [isOctal, Bool.and_eq_true, decide_eq_true_eq, decide_eq_true_eq]
  rfl

theorem isOctalByte_toUInt8 (hascii : c.toNat < 0x80) : isOctalByte c.toNat.toUInt8 = isOctal c := by
  rw [Bool.eq_iff_iff, isOctalByte_iff, isOctal_iff, UInt8.toNat_ofNat_of_lt' (by omega : _ < 256)]

theorem beginsReference_ofChars_of_not (hascii : d.toNat < 0x80) (hd : d.isDigit = false ∨ d = '0') :
    beginsReference (Bytes.ofChars (d :: rest)) = false := by
  rw [Bytes.ofChars_cons, Utf8.ofChar_of_lt hascii, List.singleton_append]
  rw [Bool.eq_false_iff, ne_eq, beginsReference_cons, UInt8.toNat_ofNat_of_lt' (by omega : _ < 256)]
  rintro ⟨hlo, hhi, -⟩
  cases hd with
  | inl hdigit =>
    rw [Bool.eq_false_iff, ne_eq, Char.isDigit_iff_toNat] at hdigit
    have hle : '0'.toNat ≤ d.toNat := Nat.le_of_lt hlo
    exact hdigit ⟨hle, hhi⟩
  | inr hzero =>
    rw [hzero] at hlo
    exact absurd hlo (by decide)

theorem beginsReference_ofChars_octal (hc : isOctal c) (hd : isOctal d) :
    beginsReference (Bytes.ofChars (c :: d :: rest)) = false := by
  have hc' := isOctal_iff.1 hc
  have hd' := isOctal_iff.1 hd
  rw [Bytes.ofChars_cons, Bytes.ofChars_cons, Utf8.ofChar_of_lt (by omega), Utf8.ofChar_of_lt (by omega)]
  rw [Bool.eq_false_iff, ne_eq, List.singleton_append, beginsReference_cons, List.singleton_append,
    List.head?_cons, Option.any_some, isOctalByte_toUInt8 (by omega), isOctalByte_toUInt8 (by omega)]
  rintro ⟨-, -, hnot⟩
  exact hnot ⟨hc, hd⟩

end Characters

section Readers

variable {c d : Char} {cs rest : List Char} {n : Nat}

theorem Plain.of_some_eq {α : Type} {a b : α} {m : Nat} (h : some (a, m) = some (b, n))
    (hrest : Plain (cs.drop n)) : Plain (cs.drop m) := by
  rw [Option.some.injEq, Prod.mk.injEq] at h
  rwa [h.2]

theorem isSome_of_hexChar? (h : hexChar? cs = some c) : ∀ d ∈ cs, (hexValue? d).isSome := by
  rw [hexChar?] at h
  obtain ⟨n, hn, -⟩ := Option.bind_eq_some_iff.1 h
  clear h
  generalize 0 = start at hn
  induction cs generalizing start with
  | nil => simp
  | cons d cs ih =>
    rw [List.foldlM_cons] at hn
    obtain ⟨m, hm, hn⟩ := Option.bind_eq_some_iff.1 hn
    obtain ⟨v, hv, -⟩ := Option.map_eq_some_iff.1 hm
    rw [List.forall_mem_cons, hv]
    exact ⟨rfl, ih m hn⟩

/-- A backslash and `n` characters from `d` on are an escape. -/
structure Escapes (d : Char) (rest : List Char) (n : Nat) : Prop where
  ascii : d.toNat < 0x80
  noReference : beginsReference (Bytes.ofChars (d :: rest)) = false
  bare : '\\' ∉ rest.take (n - 1)
  pos : 0 < n

theorem Escapes.plain (h : Escapes d rest n) (hrest : Plain ((d :: rest).drop n)) :
    Plain ('\\' :: d :: rest) := by
  obtain ⟨m, rfl⟩ := Nat.exists_eq_succ_of_ne_zero (Nat.ne_of_gt h.pos)
  rw [List.drop_succ_cons] at hrest
  exact hrest.of_drop h.bare |>.escape h.ascii h.noReference

theorem escapes_one (hascii : d.toNat < 0x80) (hd : d.isDigit = false) (rest : List Char) : Escapes d rest 1 where
  ascii := hascii
  noReference := beginsReference_ofChars_of_not hascii (.inl hd)
  bare := List.not_mem_nil
  pos := Nat.one_pos

theorem take_takeWhile_length (p : Char → Bool) (k : Nat) (cs : List Char) :
    cs.take ((cs.take k).takeWhile p).length = (cs.take k).takeWhile p :=
  (List.prefix_iff_eq_take.1 ((List.takeWhile_prefix p).trans (List.take_prefix k cs))).symm

theorem escapes_octal (hd : isOctal d)
    (h : d = '0' ∨ 2 ≤ (((d :: rest).take 3).takeWhile isOctal).length) :
    Escapes d rest (((d :: rest).take 3).takeWhile isOctal).length := by
  have hrange := isOctal_iff.1 hd
  have hsplit : ((d :: rest).take 3).takeWhile isOctal = d :: (rest.take 2).takeWhile isOctal := by
    rw [List.take_succ_cons, List.takeWhile_cons, if_pos hd]
  rw [hsplit, List.length_cons] at h ⊢
  refine ⟨by omega, ?_, ?_, Nat.succ_pos _⟩
  . cases h with
    | inl hzero => exact beginsReference_ofChars_of_not (by omega) (.inr hzero)
    | inr htwo =>
      cases rest with
      | nil => simp at htwo
      | cons e rest =>
        rw [List.take_succ_cons, List.takeWhile_cons] at htwo
        split at htwo
        . next he => exact beginsReference_ofChars_octal hd he
        . simp at htwo
  . rw [Nat.add_sub_cancel, take_takeWhile_length]
    intro hmem
    have hall : ∀ e ∈ (rest.take 2).takeWhile isOctal, isOctal e := List.all_eq_true.1 List.all_takeWhile
    exact absurd (hall _ hmem) (by decide)

theorem escapes_hex (h : '\\' ∉ rest.take n) : Escapes 'x' rest (n + 1) :=
  { escapes_one (by decide : 'x'.toNat < 0x80) (by decide) rest with bare := h, pos := Nat.succ_pos n }

theorem not_mem_takeWhile_hex : '\\' ∉ cs.takeWhile fun d => (hexValue? d).isSome := by
  intro hmem
  have hall := List.all_eq_true.1 (List.all_takeWhile (p := fun d => (hexValue? d).isSome) (l := cs))
  exact absurd (hall _ hmem) (by decide)

theorem not_mem_take_hexBraces {ds : List Char} (hopen : rest.head? = some '\x7b')
    (hds : (rest.drop 1).takeWhile (fun d => (hexValue? d).isSome) = ds)
    (hclose : (rest.drop (ds.length + 1)).head? = some '\x7d') : '\\' ∉ rest.take (ds.length + 2) := by
  obtain ⟨more, rfl⟩ := List.head?_eq_some_iff.1 hopen
  rw [List.drop_succ_cons, List.drop_zero] at hds
  rw [List.drop_succ_cons] at hclose
  obtain ⟨more', hmore'⟩ := List.head?_eq_some_iff.1 hclose
  have hmore : more = ds ++ '\x7d' :: more' := by
    rw [← hmore', ← hds, List.prefix_iff_eq_append.1 (List.takeWhile_prefix _)]
  have hbare : '\\' ∉ ds := by
    rw [← hds]
    exact not_mem_takeWhile_hex
  rw [hmore, List.take_succ_cons, List.take_length_add_append]
  simpa using hbare

theorem escape?_eq_some (h : escape? (d :: rest) = some (c, n)) : Escapes d rest n := by
  rw [escape?.eq_def] at h
  dsimp only at h
  split at h
  . next hoctal =>
    rw [Option.some.injEq, Prod.mk.injEq] at h
    rw [← h.2]
    rw [Bool.or_eq_true, Bool.and_eq_true, decide_eq_true_eq, decide_eq_true_eq] at hoctal
    apply escapes_octal
    . obtain rfl | hoctal := hoctal
      . rfl
      . exact hoctal.1
    . exact hoctal.imp_right And.right
  . split at h
    case h_7 =>
      -- hexadecimal digits, between braces or exactly two of them
      split at h
      . next hbrace =>
        split at h
        . simp at h
        . next hclose =>
          rw [Bool.or_eq_true, not_or, decide_eq_true_eq, Decidable.not_not] at hclose
          obtain ⟨_, -, heq⟩ := Option.map_eq_some_iff.1 h
          rw [Prod.mk.injEq] at heq
          rw [← heq.2]
          exact escapes_hex (not_mem_take_hexBraces hbrace rfl hclose.2)
      . split at h
        . obtain ⟨v, hv, heq⟩ := Option.map_eq_some_iff.1 h
          rw [Prod.mk.injEq] at heq
          rw [← heq.2]
          apply escapes_hex
          intro hmem
          exact absurd (isSome_of_hexChar? hv _ hmem) (by decide)
        . simp at h
    case h_8 =>
      -- a mark that stands for itself
      split at h
      . next hplain =>
        rw [Bool.and_eq_true, decide_eq_true_eq] at hplain
        rw [Option.some.injEq, Prod.mk.injEq] at h
        rw [← h.2]
        rw [Bool.not_eq_true', Char.isAlphanum, Bool.or_eq_false_iff] at hplain
        exact escapes_one hplain.1 hplain.2.2 rest
      . simp at h
    all_goals
      rw [Option.some.injEq, Prod.mk.injEq] at h
      rw [← h.2]
      exact escapes_one (by decide) (by decide) rest

theorem Plain.of_escape? (h : escape? cs = some (c, n)) (hrest : Plain (cs.drop n)) : Plain ('\\' :: cs) := by
  cases cs with
  | nil => simp [escape?] at h
  | cons d rest => exact (escape?_eq_some h).plain hrest

theorem escapes_letterClass {items : List (Char × Char)} (h : letterClass? d = some items) (rest : List Char) :
    Escapes d rest 1 := by
  rw [letterClass?.eq_def] at h
  split at h
  case h_7 => simp at h
  all_goals exact escapes_one (by decide) (by decide) rest

theorem Plain.of_classChar? {lo : Char} (h : classChar? c rest = some (lo, n)) (hrest : Plain (rest.drop n)) :
    Plain (c :: rest) := by
  rw [classChar?] at h
  split at h
  . next hc =>
    rw [hc]
    exact hrest.of_escape? h
  . next hc => exact (hrest.of_some_eq h).cons hc

theorem Plain.of_classRange? {item : List (Char × Char)} (h : classRange? c rest = some (item, n))
    (hrest : Plain (rest.drop n)) : Plain (c :: rest) := by
  rw [classRange?] at h
  obtain ⟨⟨lo, k⟩, hlo, h⟩ := Option.bind_eq_some_iff.1 h
  apply Plain.of_classChar? hlo
  dsimp only at h
  split at h
  . next d more hdrop =>
    split at h
    . exact hrest.of_some_eq h
    . obtain ⟨⟨hi, m⟩, hhi, h⟩ := Option.bind_eq_some_iff.1 h
      dsimp only at h
      split at h
      . simp at h
      . have hmore := hrest.of_some_eq h
        rw [← List.drop_drop, ← List.drop_drop, hdrop] at hmore
        rw [hdrop]
        exact (hmore.of_classChar? hhi).cons (by decide)
  . exact hrest.of_some_eq h

theorem not_mem_of_namedRanges? {name : String} {items : List (Char × Char)} (h : namedRanges? name = some items) :
    '\\' ∉ name.toList := by
  rw [namedRanges?.eq_def] at h
  split at h
  case h_15 => simp at h
  all_goals decide

theorem not_mem_of_namedClass? {name : List Char} {items : List (Char × Char)} (h : namedClass? name = some items) :
    '\\' ∉ name := by
  rw [namedClass?.eq_def] at h
  split at h
  . next base =>
    obtain ⟨ranges, hranges, -⟩ := Option.map_eq_some_iff.1 h
    have hbase := not_mem_of_namedRanges? hranges
    rw [String.toList_ofList] at hbase
    simpa using hbase
  . have hname := not_mem_of_namedRanges? h
    rwa [String.toList_ofList] at hname

theorem eq_of_nameBefore? {name : List Char} (h : nameBefore? cs = some name) :
    ∃ more, cs = name ++ ':' :: ']' :: more := by
  fun_induction nameBefore? cs generalizing name with
  | case1 more =>
    obtain rfl := Option.some.inj h
    exact ⟨more, rfl⟩
  | case2 c rest _ ih =>
    obtain ⟨name, hname, rfl⟩ := Option.map_eq_some_iff.1 h
    obtain ⟨more, rfl⟩ := ih hname
    exact ⟨more, rfl⟩
  | case3 => simp at h

theorem Plain.of_classItem? {item : List (Char × Char)} (h : classItem? c rest = some (item, n))
    (hrest : Plain (rest.drop n)) : Plain (c :: rest) := by
  rw [classItem?.eq_def] at h
  split at h
  . next more _ =>
    split at h
    . next name hname =>
      obtain ⟨ranges, hranges, heq⟩ := Option.map_eq_some_iff.1 h
      obtain ⟨rest, hmore⟩ := eq_of_nameBefore? hname
      rw [Prod.mk.injEq] at heq
      rw [hmore, ← heq.2] at hrest
      have hbare := not_mem_of_namedClass? hranges
      rw [List.drop_succ_cons, List.drop_length_add_append] at hrest
      rw [hmore]
      apply Plain.cons (by decide)
      apply Plain.cons (by decide)
      apply Plain.append hbare
      apply Plain.cons (by decide)
      exact hrest.cons (by decide)
    . exact hrest.of_classRange? h
  . next d more =>
    split at h
    . next items hletter => exact (escapes_letterClass hletter more).plain (hrest.of_some_eq h)
    . exact hrest.of_classRange? h
  . exact hrest.of_classRange? h

theorem Plain.of_classItems? {first : Bool} {items : List (Char × Char)}
    (h : classItems? first cs = some (items, n)) (hrest : Plain (cs.drop n)) : Plain cs := by
  fun_induction classItems? first cs generalizing items n with
  | case1 => simp at h
  | case2 first c rest hclose =>
    rw [Bool.and_eq_true, decide_eq_true_eq] at hclose
    rw [hclose.1]
    exact (hrest.of_some_eq h).cons (by decide)
  | case3 first c rest _ ih =>
    obtain ⟨⟨item, k⟩, hitem, h⟩ := Option.bind_eq_some_iff.1 h
    obtain ⟨⟨more, m⟩, hmore, h⟩ := Option.bind_eq_some_iff.1 h
    have hlast := hrest.of_some_eq h
    rw [Nat.add_right_comm, List.drop_succ_cons, ← List.drop_drop] at hlast
    exact (ih k hmore hlast).of_classItem? hitem

theorem Plain.of_class? {s : CharSet} (h : class? cs = some (s, n)) (hrest : Plain (cs.drop n)) : Plain cs := by
  rw [class?.eq_def] at h
  split at h
  . obtain ⟨⟨items, m⟩, hitems, heq⟩ := Option.map_eq_some_iff.1 h
    rw [Prod.mk.injEq] at heq
    rw [← heq.2, List.drop_succ_cons] at hrest
    exact (hrest.of_classItems? hitems).cons (by decide)
  . obtain ⟨⟨items, m⟩, hitems, heq⟩ := Option.map_eq_some_iff.1 h
    rw [Prod.mk.injEq] at heq
    rw [← heq.2] at hrest
    exact hrest.of_classItems? hitems

theorem Plain.of_number? {v : Nat} (h : number? cs = some (v, n)) (hrest : Plain (cs.drop n)) : Plain cs := by
  have htake : '\\' ∉ cs.take (cs.takeWhile Char.isDigit).length := by
    rw [← List.prefix_iff_eq_take.1 (List.takeWhile_prefix _)]
    intro hmem
    have hall := List.all_eq_true.1 (List.all_takeWhile (p := Char.isDigit) (l := cs))
    exact absurd (hall _ hmem) (by decide)
  rw [number?.eq_def] at h
  split at h
  . simp at h
  . simp at h
  . exact (hrest.of_some_eq h).of_drop htake

theorem Plain.of_count_eq {α β : Type} {a a' : α} {b b' : β} {m : Nat}
    (h : some (a, b, m) = some (a', b', n)) (hrest : Plain (cs.drop n)) : Plain (cs.drop m) := by
  rw [Option.some.injEq, Prod.mk.injEq] at h
  exact hrest.of_some_eq (congrArg some h.2)

theorem Plain.of_count? {min : Nat} {max : Option Nat} (h : count? cs = some (min, max, n))
    (hrest : Plain (cs.drop n)) : Plain cs := by
  rw [count?] at h
  obtain ⟨⟨v, k⟩, hv, h⟩ := Option.bind_eq_some_iff.1 h
  apply Plain.of_number? hv
  dsimp only at h
  split at h
  . next hdrop =>
    have hmore := hrest.of_count_eq h
    rw [← List.drop_drop, hdrop] at hmore
    rw [hdrop]
    exact hmore.cons (by decide)
  . next hdrop =>
    have hmore := hrest.of_count_eq h
    rw [← List.drop_drop, hdrop] at hmore
    rw [hdrop]
    exact (hmore.cons (by decide)).cons (by decide)
  . next more _ hdrop =>
    obtain ⟨⟨w, m⟩, hw, h⟩ := Option.bind_eq_some_iff.1 h
    dsimp only at h
    split at h
    . next hdrop' =>
      have hlast := hrest.of_count_eq h
      have hsum : k + m + 2 = k + 1 + m + 1 := by omega
      rw [hsum, ← List.drop_drop, ← List.drop_drop, ← List.drop_drop, hdrop, List.drop_succ_cons,
        List.drop_zero, hdrop'] at hlast
      rw [hdrop]
      apply Plain.cons (by decide)
      apply Plain.of_number? hw
      rw [hdrop']
      exact hlast.cons (by decide)
    . simp at h
  . simp at h

theorem Plain.of_quantifier {min : Nat} {max : Option Nat} {k : Nat} {l : Lexeme}
    (h : quantifier min max k cs = (l, n)) (hrest : Plain (cs.drop n)) : Plain (cs.drop k) := by
  rw [quantifier, greedy.eq_def] at h
  rw [Prod.mk.injEq] at h
  rw [← h.2] at hrest
  split at hrest
  . next hdrop =>
    rw [← List.drop_drop, hdrop] at hrest
    rw [hdrop]
    exact hrest.cons (by decide)
  . exact hrest

theorem Plain.of_backslash? {l : Lexeme} (h : backslash? cs = some (l, n)) (hrest : Plain (cs.drop n)) :
    Plain ('\\' :: cs) := by
  rw [backslash?.eq_def] at h
  split at h
  case h_5 d rest _ _ _ _ =>
    split at h
    . next items hletter => exact (escapes_letterClass hletter rest).plain (hrest.of_some_eq h)
    . obtain ⟨⟨e, m⟩, hescape, h⟩ := Option.map_eq_some_iff.1 h
      rw [Prod.mk.injEq] at h
      rw [← h.2] at hrest
      exact hrest.of_escape? hescape
  case h_6 => simp at h
  all_goals exact (escapes_one (by decide) (by decide) _).plain (hrest.of_some_eq h)

theorem Plain.of_lexeme? {l : Lexeme} (h : lexeme? c rest = some (l, n)) (hrest : Plain (rest.drop n)) :
    Plain (c :: rest) := by
  rw [lexeme?.eq_def] at h
  -- each lexeme leaves a plain rest behind, and the characters of its own hold no reference
  split at h
  case h_1 =>
    apply Plain.cons (by decide)
    split at h
    . exact ((hrest.of_some_eq h).cons (by decide)).cons (by decide)
    . simp at h
    . exact hrest.of_some_eq h
  case h_7 =>
    obtain ⟨⟨s, m⟩, hclass, h⟩ := Option.map_eq_some_iff.1 h
    rw [Prod.mk.injEq] at h
    rw [← h.2] at hrest
    exact (hrest.of_class? hclass).cons (by decide)
  case h_8 | h_9 | h_10 => exact (hrest.of_quantifier (Option.some.inj h)).cons (by decide)
  case h_11 =>
    apply Plain.cons (by decide)
    split at h
    . next min max m hcount =>
      split at h
      . exact (hrest.of_quantifier (Option.some.inj h)).of_count? hcount
      . simp at h
    . exact hrest.of_some_eq h
  case h_12 => exact hrest.of_backslash? h
  case h_13 hc => exact (hrest.of_some_eq h).cons hc
  all_goals exact (hrest.of_some_eq h).cons (by decide)

end Readers

theorem plain_of_lexemes? {cs : List Char} {ls : List Lexeme} (h : lexemes? cs = some ls) : Plain cs := by
  fun_induction lexemes? cs generalizing ls with
  | case1 => exact Unreferring.nil
  | case2 c rest ih =>
    obtain ⟨⟨l, n⟩, hl, h⟩ := Option.bind_eq_some_iff.1 h
    obtain ⟨ls, hls, -⟩ := Option.bind_eq_some_iff.1 h
    exact (ih n hls).of_lexeme? hl

/-- No backslash of a pattern that the engine accepts begins a reference. -/
theorem unreferring_of_read? {p : Bytes} {r : Regex} (h : read? p = some r) : Unreferring p := by
  rw [read?] at h
  obtain ⟨ls, hls, -⟩ := Option.bind_eq_some_iff.1 h
  rw [patternLexemes?] at hls
  split at hls
  . next hvalid =>
    have hplain := plain_of_lexemes? hls
    rwa [Plain, Utf8.ofChars_decode hvalid] at hplain
  . simp at hls

end VerboseExpr.Regex.Automaton
