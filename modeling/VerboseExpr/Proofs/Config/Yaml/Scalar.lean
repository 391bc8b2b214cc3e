import VerboseExpr.Proofs.Config.Yaml.Reading

namespace VerboseExpr.Yaml

/-- The reader between two tokens: which ones wait, and which blocks are open. No flow collection is open, and only the
last token may be noted as a possible key. -/
structure Reading.Stands (r : Reading) (q : List Token) (blocks : List Nat) : Prop where
  queue_eq : r.queue = q
  blocks_eq : r.blocks = blocks
  outer_eq : r.outer = []
  number_eq : r.candidate.possible → r.candidate.number + 1 = r.nextNumber
  noted_eq : r.noted = if r.candidate.possible then [(r.candidate.number, 0)] else []

/-- Nothing requires that the last token is a key. -/
def Reading.Loose (r : Reading) : Prop := r.candidate.possible → r.candidate.required = false

namespace ReadM

variable {r : Reading} {q : List Token} {blocks : List Nat} {p : Place} {k : List Char} {n : Nat}

/-- The reader once it has given up the candidate for a key. -/
def dropped (r : Reading) : Reading := { r with candidate := { r.candidate with possible := false }, noted := [] }

theorem dropCandidate_eq (hnoted : r.noted = if r.candidate.possible then [(r.candidate.number, 0)] else [])
    (hr : r.Loose) : r.dropCandidate = some (dropped r) := by
  unfold Reading.dropCandidate dropped
  cases hpossible : r.candidate.possible with
  | false =>
    rw [hpossible, if_neg (by decide)] at hnoted
    simp only [Bool.not_false, if_true]
    rw [← hnoted, ← hpossible]
  | true =>
    rw [hpossible, if_pos rfl] at hnoted
    have hrequired := hr hpossible
    simp [hrequired, Reading.unnote, hnoted]

/-- The reader once it has noted that the next token may begin a key, if one may begin there. -/
def noting (r : Reading) : Reading :=
  if r.keyAllowed then
    { r with
      candidate := ⟨true, r.cursor.column + 1 = r.indent, r.nextNumber, r.cursor.line, r.cursor.column, r.cursor.index⟩
      noted := [(r.nextNumber, 0)]
      keyAllowed := false }
  else r

theorem cursor_noting (r : Reading) : (noting r).cursor = r.cursor := by
  unfold noting
  split <;> rfl

theorem indent_noting (r : Reading) : (noting r).indent = r.indent := by
  unfold noting
  split <;> rfl

theorem outer_noting (r : Reading) : (noting r).outer = r.outer := by
  unfold noting
  split <;> rfl

theorem noteCandidate_bind {α : Type} (h : r.Stands q blocks) (hr : r.Loose) (x : ReadM α) :
    (do update Reading.noteCandidate; allowKey false; x) r = x (noting r) := by
  cases hkey : r.keyAllowed with
  | false =>
    have hupdate : update Reading.noteCandidate r = some ((), r) := by simp [update, Reading.noteCandidate, hkey]
    have hsame : ({ r with keyAllowed := false } : Reading) = r := by rw [← hkey]
    rw [bind_eq hupdate, noting, if_neg (by simp [hkey])]
    exact congrArg x hsame
  | true =>
    obtain ⟨r', hr'⟩ : ∃ r' : Reading, r' = { noting r with keyAllowed := true } := ⟨_, rfl⟩
    have hnoting : ({ r' with keyAllowed := false } : Reading) = noting r := by
      rw [hr', noting, if_pos hkey]
    have hupdate : update Reading.noteCandidate r = some ((), r') := by
      unfold update Reading.noteCandidate
      rw [dropCandidate_eq h.noted_eq hr, hr', noting, if_pos hkey]
      simp [dropped, hkey, Reading.inFlow, Reading.depth, Reading.unnote, h.outer_eq]
    rw [bind_eq hupdate, ← hnoting]
    rfl

theorem stands_push (h : r.Stands q blocks) (hr : r.keyAllowed ∨ r.candidate.possible = false) (c : Cursor) (b : Bool)
    (t : Token) :
    ({ noting r with cursor := c, keyAllowed := b }.push t).Stands (q ++ [t]) blocks where
  queue_eq := by
    unfold Reading.push noting
    split <;> exact congrArg (· ++ [t]) h.queue_eq
  blocks_eq := by
    unfold Reading.push noting
    split <;> exact h.blocks_eq
  outer_eq := by
    unfold Reading.push noting
    split <;> exact h.outer_eq
  number_eq := by
    unfold Reading.push noting
    split
    . intro _
      simp [Reading.nextNumber, Nat.add_assoc]
    . next hkey =>
      intro hpossible
      exact absurd (hr.resolve_left hkey) (by simpa using hpossible)
  noted_eq := by
    unfold Reading.push noting
    split
    . rfl
    . exact h.noted_eq

theorem loose_push (hr : r.Loose) (hcolumn : r.cursor.column + 1 ≠ r.indent) (c : Cursor) (b : Bool) (t : Token) :
    ({ noting r with cursor := c, keyAllowed := b }.push t).Loose := by
  unfold Reading.Loose Reading.push noting
  split
  . intro _
    simp [hcolumn]
  . exact hr

/-- The text `t` of a scalar is read from `w`, which ends with the end of its line: wherever a scalar may stand with the
writer's indentation, the reader takes it and stands before what follows on a smaller column. -/
def ReadsAs (w : List Char) (t : Token) (indent : Nat) : Prop :=
  ∀ (r : Reading) (q : List Token) (blocks : List Nat) (p : Place) (j : Nat) (k : List Char),
    r.Stands q blocks → r.Loose → (r.keyAllowed ∨ r.candidate.possible = false) → r.indent = indent →
    indent ≤ p.column → j < indent → isTokenStart (k.headD endMark) → (w ++ (spaces j ++ k)).length + 8 ≤ p.size →
    r.cursor.At ⟨w ++ (spaces j ++ k), 4, p⟩ →
    ∃ r', contentToken ((w ++ (spaces j ++ k)).headD endMark) ((w ++ (spaces j ++ k)).getD 1 endMark)
      r = some ((), r') ∧
      r'.Stands (q ++ [t]) blocks ∧ r'.Loose ∧ Before r' j k ∧ r'.cursor.size = p.size

/-- Is the character one that begins something else than a plain text, whatever follows? -/
def isIndicator (c : Char) : Bool := "#,[]\x7b\x7d&*!|>'\"%@\x60".toList.contains c

theorem contentToken_eq_plain {c d : Char} (houter : r.outer = []) (hc : isIndicator c = false) (hgap : isGap c = false)
    (hd : (c = '?' ∨ c = ':' ∨ c = '-') → isGap d = false) : contentToken c d r = plain r := by
  have hflow : r.inFlow = false := by simp [Reading.inFlow, houter]
  have hother : ∀ {e : Char}, isIndicator e → c ≠ e := by
    rintro e he rfl
    rw [hc] at he
    cases he
  unfold contentToken
  rw [get_bind, hflow]
  split
  case h_6 => rw [hd (.inr (.inr rfl)), if_neg (by decide)]
  case h_7 => rw [hd (.inl rfl), if_neg (by decide)]
  case h_8 => rw [hd (.inr (.inl rfl)), if_neg (by decide)]
  case h_16 =>
    rw [if_neg]
    simp only [hgap, Bool.false_or]
    intro hmem
    obtain rfl | rfl | rfl | rfl : c = '#' ∨ c = '%' ∨ c = '@' ∨ c = '\x60' := by simpa using hmem
    all_goals exact hother (by decide) rfl
  all_goals exact absurd rfl (hother (by decide))

theorem exists_startsPlain {cs : List Char} (hne : cs ≠ []) (h : plainAllowed cs) (rest : List Char) :
    ∃ c, (cs ++ '\n' :: rest).headD endMark = c ∧ isIndicator c = false ∧ isGap c = false ∧
      ((c = '?' ∨ c = ':' ∨ c = '-') → isGap ((cs ++ '\n' :: rest).getD 1 endMark) = false) := by
  have hrest := isPlainRest_of_plainAllowed hne h
  obtain ⟨c, cs', rfl, hgap, -⟩ := hrest.isPlainText.exists_cons
  simp only [plainAllowed, Bool.and_eq_true, Bool.not_eq_true'] at h
  obtain ⟨⟨-, hbegins⟩, -⟩ := h
  simp only [beginsIndicator, Bool.or_eq_false_iff, Bool.and_eq_false_iff] at hbegins
  refine ⟨c, rfl, hbegins.1, hgap, fun hc => ?_⟩
  have hblank : cs'.head?.all isBlank = false := hbegins.2.resolve_left (by
    obtain rfl | rfl | rfl := hc <;> decide)
  cases cs' with
  | nil => cases hblank
  | cons d cs' =>
    refine (hrest.solid d (by simp)).resolve_left ?_
    rintro rfl
    cases hblank

theorem readsAs_plain {cs : List Char} (hne : cs ≠ []) (h : plainAllowed cs) (indent : Nat) :
    ReadsAs (cs ++ ['\n']) (.scalar cs true) indent := by
  intro r q blocks p j k hstands hloose hkey hindent hp hj hk hsize hr
  have hrest : cs ++ ['\n'] ++ (spaces j ++ k) = cs ++ '\n' :: (spaces j ++ k) := by simp
  rw [hrest] at hr hsize ⊢
  obtain ⟨c, hc, hindicator, hgap, hnext⟩ := exists_startsPlain hne h (spaces j ++ k)
  simp only [List.length_append, List.length_cons, spaces, List.length_replicate] at hsize
  simp only [isTokenStart, Bool.and_eq_true] at hk
  have hplain := Runs.plain (isPlainRest_of_plainAllowed hne h).isPlainText (j := j) (k := k) (p := p)
    hp hj hk.1 (by rw [hr.size_eq]; dsimp only; omega : _ < r.cursor.size) (g := {}) [] 4
  obtain ⟨c', hscan, hc'⟩ := exists_scan_eq (r := noting r) hplain (by rw [cursor_noting]; exact hr)
  refine ⟨({ noting r with cursor := c', keyAllowed := true } : Reading).push (.scalar cs true), ?_, ?_, ?_, ?_, ?_⟩
  . rw [hc, contentToken_eq_plain hstands.outer_eq hindicator hgap hnext]
    have hflow : (noting r).inFlow = false := by simp [Reading.inFlow, outer_noting, hstands.outer_eq]
    unfold plain
    rw [noteCandidate_bind hstands hloose, get_bind, hflow, indent_noting, hindent, cursor_noting, bind_eq hscan]
    rfl
  . exact stands_push hstands hkey c' true _
  . refine loose_push hloose ?_ c' true _
    rw [hr.column_eq]
    dsimp only
    omega
  . exact ⟨1, _, .inl ⟨hc', by simp, rfl⟩⟩
  . exact hc'.size_eq

theorem exists_content_eq (h : r.Stands q blocks) (hr : r.Loose) {x : Scan Token} {t : Token} {s s' : Spot}
    (hx : Runs x s t s') (hs : r.cursor.At s) :
    ∃ c, content x r = some ((), ({ noting r with cursor := c } : Reading).push t) ∧ c.At s' := by
  obtain ⟨c, hscan, hc⟩ := exists_scan_eq (r := noting r) hx (by rwa [cursor_noting])
  refine ⟨c, ?_, hc⟩
  unfold content
  rw [noteCandidate_bind h hr, bind_eq hscan]
  rfl

theorem readsAs_quoted {quote : Char} {w t : List Char} (h : IsQuoted quote w t)
    (hquote : quote = '\'' ∨ quote = '"') (indent : Nat) :
    ReadsAs (quote :: (w ++ [quote, '\n'])) (.scalar t false) indent := by
  intro r q blocks p j k hstands hloose hkey hindent hp hj hk hsize hr
  have hrest : quote :: (w ++ [quote, '\n']) ++ (spaces j ++ k) = quote :: (w ++ quote :: '\n' :: (spaces j ++ k)) := by
    simp
  rw [hrest] at hr hsize ⊢
  simp only [List.length_append, List.length_cons, spaces, List.length_replicate] at hsize
  obtain ⟨p', hsize', hquoted⟩ := Runs.quoted (p := p.skips 1) (k := '\n' :: (spaces j ++ k)) h hquote
    (by rw [List.headD_cons]; obtain rfl | rfl := hquote <;> decide) (.inl (by simp)) (by omega : _ < p.size) [] 3
  have hscan : Runs (do Scan.skip; return Token.scalar (← Scan.quoted quote [] (← get).size) false)
      ⟨quote :: (w ++ quote :: '\n' :: (spaces j ++ k)), 4, p⟩ (.scalar t false) ⟨'\n' :: (spaces j ++ k), 0, p'⟩ := by
    refine Runs.bind (Runs.skip _ _ 3) (Runs.get fun c hc => ?_)
    rw [hc.size_eq]
    exact Runs.bind hquoted (Runs.pure _ _)
  obtain ⟨c, hcontent, hc⟩ := exists_content_eq hstands hloose hscan hr
  refine ⟨_, ?_, stands_push hstands hkey c (noting r).keyAllowed _, loose_push hloose ?_ c (noting r).keyAllowed _,
    ⟨0, p', .inr hc⟩, hc.size_eq.trans hsize'⟩
  . obtain rfl | rfl := hquote <;> exact hcontent
  . rw [hr.column_eq]
    dsimp only
    omega

theorem readsAs_block {writerIndent : Nat} {v x g : List Char} (h : IsBlock writerIndent v x g) (c : Scan.Chomp)
    (hinted : Bool) (indent : Nat)
    (hwritten : if hinted then indent - 1 + 4 = writerIndent
      else indent ≤ writerIndent ∧ isBlank (v.headD endMark) = false)
    (hindent : indent ≤ writerIndent) :
    ReadsAs ('|' :: ((if hinted then ['4'] else []) ++ (Runs.sign c ++ '\n' :: (spaces writerIndent ++ v))))
      (.scalar (x ++ (if c = .strip then [] else [g.headD '\n']) ++ if c = .keep then g.tail else []) false)
      indent := by
  intro r q blocks p j k hstands hloose hkey hindent' hp hj hk hsize hr
  have hrest : '|' :: ((if hinted then ['4'] else []) ++ (Runs.sign c ++ '\n' :: (spaces writerIndent ++ v))) ++
      (spaces j ++ k) =
      '|' :: ((if hinted then ['4'] else []) ++
        (Runs.sign c ++ '\n' :: (spaces writerIndent ++ (v ++ (spaces j ++ k))))) := by
    simp
  rw [hrest] at hr hsize ⊢
  simp only [List.length_append, List.length_cons, spaces, List.length_replicate] at hsize
  simp only [isTokenStart, Bool.and_eq_true] at hk
  obtain ⟨p', hsize', hcolumn', hblock⟩ := Runs.block (p := p.skips 1) (j := j) (k := k) h c hwritten
    (by omega) hk.1 (by omega : _ < p.size) (by simp; omega) 3
  have hscan : Runs (do Scan.skip; Scan.block false indent p.size) _ _ ⟨k, 1, p'⟩ :=
    Runs.bind (Runs.skip '|' _ 3) hblock
  obtain ⟨c', hc', hc⟩ := exists_scan_eq (r := { dropped r with keyAllowed := true }) hscan hr
  generalize x ++ (if c = .strip then [] else [g.headD '\n']) ++ (if c = .keep then g.tail else []) = t at hc' ⊢
  have hflow : r.inFlow = false := by simp [Reading.inFlow, hstands.outer_eq]
  have hdrop : update Reading.dropCandidate r = some ((), dropped r) := by
    rw [update, dropCandidate_eq hstands.noted_eq hloose, Option.map_some]
  refine ⟨({ dropped r with cursor := c', keyAllowed := true } : Reading).push (.scalar t false), ?_, ?_, ?_,
    ⟨1, p', .inl ⟨hc, hcolumn', rfl⟩⟩, hc.size_eq.trans hsize'⟩
  . have hblockToken : block false r =
        some ((), ({ dropped r with cursor := c', keyAllowed := true } : Reading).push (.scalar t false)) := by
      unfold block
      rw [bind_eq hdrop]
      -- the indentation and the size that are asked for behind the mark are those of the reader before it
      have hkeep : ∀ s : Reading, s.indent = indent → s.cursor.size = p.size → (do
          let r ← get
          let text ← scan (do Scan.skip; Scan.block false r.indent r.cursor.size)
          push (.scalar text false)) s = (do
          let text ← scan (do Scan.skip; Scan.block false indent p.size)
          push (.scalar text false)) s := by
        rintro s rfl hsize
        rw [get_bind, hsize]
      refine (hkeep { dropped r with keyAllowed := true } hindent' hr.size_eq).trans ?_
      rw [bind_eq hc']
      rfl
    rw [← hblockToken, List.headD_cons]
    unfold contentToken
    rw [get_bind, hflow]
    rfl
  . have hqueue : r.queue ++ [Token.scalar t false] = q ++ [Token.scalar t false] := by rw [hstands.queue_eq]
    refine ⟨hqueue, hstands.blocks_eq, hstands.outer_eq, ?_, rfl⟩
    intro hpossible
    cases hpossible
  . intro hpossible
    cases hpossible

end ReadM

end VerboseExpr.Yaml
