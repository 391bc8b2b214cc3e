import VerboseExpr.Proofs.Config.Yaml.Scalar

/-!
The tokens of a document of the writer's form: keys at the beginning of lines, behind each either a text or an indented
list of texts. Main statement: whatever has been taken so far, the next token of the reader is the next one of the
document.
-/

namespace VerboseExpr.Yaml

/-- Where in a document of the writer's form something is left of it: before a token that begins a line, at the colon
behind a key, or behind a colon or a dash. -/
inductive Point where
  | line (column : Nat)
  | colon
  | sign

def inside : List Nat → Nat
  | [] => 0
  | column :: _ => column + 1

/-- The blocks that are open once something stands in a column that has to be in a block of its own. -/
def opened (column : Nat) (blocks : List Nat) : List Nat := if column < inside blocks then blocks else column :: blocks

def opening (column : Nat) (blocks : List Nat) (t : Token) : List Token := if column < inside blocks then [] else [t]

/-- What is left of a document from a point on, while blocks are open in some columns, and the tokens that it still
gives. -/
inductive Rest : Point → List Nat → List Char → List Token → Prop where
  | finish (blocks : List Nat) : Rest (.line 0) blocks [] (List.replicate blocks.length Token.blockEnd ++ [Token.streamEnd])
  | key {blocks : List Nat} {key k : List Char} {ts : List Token} : IsKey key → key.length ≤ KeyPlace.maxLength →
    blocks = [] ∨ blocks = [0] → isGap (k.headD endMark) → Rest .colon blocks (':' :: k) ts →
    Rest (.line 0) blocks (key ++ ':' :: k) (opening 0 blocks .blockMappingStart ++ Token.key :: .scalar key true :: ts)
  | colon {blocks : List Nat} {k : List Char} {ts : List Token} : Rest .sign [0] k ts →
    Rest .colon blocks (':' :: k) (.value :: ts)
  | list {k : List Char} {ts : List Token} : Rest (.line 4) [0] k ts → Rest .sign [0] ('\n' :: (spaces 4 ++ k)) ts
  | item {blocks : List Nat} {k : List Char} {ts : List Token} : blocks = [0] ∨ blocks = [4, 0] →
    isGap (k.headD endMark) → Rest .sign [4, 0] k ts →
    Rest (.line 4) blocks ('-' :: k) (opening 4 blocks .blockSequenceStart ++ Token.blockEntry :: ts)
  | text {column j : Nat} {outer : List Nat} {w k : List Char} {t : Token} {ts : List Token} :
    ReadM.ReadsAs w t (column + 1) → w.head?.any ReadM.isTokenStart → j ≤ column →
    Rest (.line j) (column :: outer) k ts → Rest .sign (column :: outer) (' ' :: (w ++ (spaces j ++ k))) (t :: ts)

open ReadM in
/-- How the reader stands in a document of the writer's form: which token it holds back because it may become a key, and
which tokens come from that one on. -/
inductive Stage (r : Reading) : List Nat → List Token → List Token → Prop where
  | line {blocks : List Nat} {j : Nat} {k : List Char} {ts : List Token} : Rest (.line j) blocks k ts → Before r j k →
    r.Loose → k.length + 8 ≤ r.cursor.size → Stage r blocks [] ts
  | colon {blocks : List Nat} {key k : List Char} {ts : List Token} {n : Nat} {p : Place} :
    blocks = [] ∨ blocks = [0] → isGap (k.headD endMark) → Rest .colon blocks (':' :: k) ts →
    r.cursor.At ⟨':' :: k, n, p⟩ → 0 < p.column →
    r.candidate.possible → p.line ≤ r.candidate.line → r.candidate.column = 0 →
    p.index ≤ r.candidate.index + KeyPlace.maxLength → k.length + 8 ≤ r.cursor.size →
    Stage r blocks [.scalar key true] (opening 0 blocks .blockMappingStart ++ Token.key :: .scalar key true :: ts)
  | sign {blocks : List Nat} {k : List Char} {ts : List Token} {n : Nat} {p : Place} : Rest .sign blocks k ts →
    r.cursor.At ⟨k, n, p⟩ → (∀ b ∈ blocks.head?, b ≤ p.column) → r.candidate.possible = false →
    k.length + 8 ≤ r.cursor.size → Stage r blocks [] ts
  | ended {n : Nat} {p : Place} : r.cursor.At ⟨[], n, p⟩ → p.column = 0 → r.Loose → 0 < r.cursor.size → Stage r [] [] []

open ReadM in
theorem IsKey.exists_headD_eq {key : List Char} (h : IsKey key) (k : List Char) :
    ∃ c, (key ++ k).headD endMark = c ∧ isTokenStart c ∧ isIndicator c = false ∧ isGap c = false ∧
      ¬(c = '?' ∨ c = ':' ∨ c = '-') ∧ c ≠ '%' ∧ c ≠ '.' := by
  obtain ⟨c, rest, rfl⟩ := List.exists_cons_of_ne_nil h.ne_nil
  have hne : ∀ {e : Char}, (e.isAlpha || e = '_') = false → c ≠ e := h.ne (by simp)
  have hgap := h.not_gap (c := c) (by simp)
  refine ⟨c, rfl, ?_, ?_, hgap, ?_, hne rfl, hne rfl⟩
  . rw [isTokenStart, isSolid_of_isGap_eq_false hgap]
    simpa using hne rfl
  . have hall : "#,[]\x7b\x7d&*!|>'\"%@\x60".toList.all fun d => !(d.isAlpha || d = '_') := by decide
    refine Bool.eq_false_iff.mpr fun hmem => ?_
    have hc := List.all_eq_true.mp hall c (by simpa [isIndicator] using hmem)
    exact hne (by simpa using hc) rfl
  . rintro (heq | heq | heq) <;> exact hne rfl heq

namespace ReadM

variable {r : Reading} {q : List Token} {blocks : List Nat} {ts : List Token}

/-- The next step of the reader appends a token to those that are final, or more of them, and leads to a stage from
which the rest comes. At the end of the document the token for it comes again. -/
def Leads (r : Reading) (q ts : List Token) : Prop :=
  ∃ r' q' blocks held ts' n, next r = some ((), r') ∧ r'.Stands (q' ++ held) blocks ∧ Stage r' blocks held ts' ∧
    q' ++ ts' = q ++ ts ++ List.replicate n Token.streamEnd ∧ r.queue.length < r'.queue.length ∧
    r'.cursor.size = r.cursor.size

theorem stands_move (h : r.Stands q blocks) (c : Cursor) (b : Bool) :
    ({ r with cursor := c, keyAllowed := b } : Reading).Stands q blocks :=
  ⟨h.queue_eq, h.blocks_eq, h.outer_eq, h.number_eq, h.noted_eq⟩

theorem exists_next_line {j : Nat} {k : List Char} (h : r.Stands q blocks) (hr : Before r j k)
    (hk : isTokenStart (k.headD endMark)) (hne : k ≠ [])
    (hmark : j ≠ 0 ∨ k.headD endMark ≠ '%' ∧ k.headD endMark ≠ '-' ∧ k.headD endMark ≠ '.')
    (hblocks : ∀ b ∈ blocks.head?, b ≤ j) (hsize : j + 2 ≤ r.cursor.size) :
    ∃ s p, next r = contentLine (k.headD endMark) (k.getD 1 endMark) s ∧ s.Stands q blocks ∧ s.cursor.At ⟨k, 4, p⟩ ∧
      p.column = j ∧ p.size = r.cursor.size ∧ s.keyAllowed ∧ s.candidate = r.candidate := by
  obtain ⟨c₁, p, harrive, hc₁, hcolumn, hsize⟩ := exists_arrive_before hr hk hsize h.outer_eq
  obtain ⟨c₂, hc₂, hnext⟩ := exists_next_eq harrive hc₁ hne (by rwa [hcolumn])
  rw [closeBlocks_eq_self (by
    rw [hcolumn]
    simpa [h.blocks_eq] using hblocks)] at hnext
  exact ⟨_, p, hnext, stands_move h c₂ true, hc₂, hcolumn, hsize, rfl, rfl⟩

theorem exists_next_spaces {m n : Nat} {k : List Char} {p : Place} (h : r.Stands q blocks)
    (hr : r.cursor.At ⟨spaces m ++ k, n, p⟩) (hk : isTokenStart (k.headD endMark)) (hne : k ≠ [])
    (hcolumn : p.column + m ≠ 0) (hblocks : ∀ b ∈ blocks.head?, b ≤ p.column + m) (hsize : m < r.cursor.size) :
    ∃ s, next r = contentLine (k.headD endMark) (k.getD 1 endMark) s ∧ s.Stands q blocks ∧
      s.cursor.At ⟨k, 4, p.skips m⟩ ∧ s.candidate = r.candidate := by
  obtain ⟨c₁, harrive, hc₁⟩ := exists_arrive_spaces hr hk (hr.size_eq ▸ hsize)
  obtain ⟨c₂, hc₂, hnext⟩ := exists_next_eq harrive hc₁ hne (.inl hcolumn)
  rw [closeBlocks_eq_self (by simpa [h.blocks_eq] using hblocks)] at hnext
  exact ⟨_, hnext, stands_move h c₂ r.keyAllowed, hc₂, rfl⟩

theorem leads_key {key k : List Char} (hkey : IsKey key) (hlength : key.length ≤ KeyPlace.maxLength)
    (hblocks : blocks = [] ∨ blocks = [0]) (hgap : isGap (k.headD endMark)) (hrest : Rest .colon blocks (':' :: k) ts)
    (h : r.Stands q blocks) (hr : Before r 0 (key ++ ':' :: k)) (hloose : r.Loose)
    (hsize : (key ++ ':' :: k).length + 8 ≤ r.cursor.size) :
    Leads r q (opening 0 blocks .blockMappingStart ++ Token.key :: .scalar key true :: ts) := by
  obtain ⟨c, hhead, hstart, hindicator, hsolid, hsign, hpercent, hdot⟩ := hkey.exists_headD_eq (':' :: k)
  obtain ⟨s, p, hnext, hstands, hat, hcolumn, hp, hkeyAllowed, hsame⟩ :=
    exists_next_line h hr (hhead ▸ hstart) (by simp)
    (.inr (by rw [hhead]; exact ⟨hpercent, fun heq => hsign (.inr (.inr heq)), hdot⟩))
    (by obtain rfl | rfl := hblocks <;> simp) (by omega)
  have hloose : s.Loose := by rwa [Reading.Loose, hsame]
  have hsize' : s.cursor.size = r.cursor.size := hat.size_eq.trans hp
  have hplain := Runs.plainKey (p := p) hkey hgap s.indent
    (by rw [hsize']; simp at hsize; omega : _ < s.cursor.size) 4
  obtain ⟨c₃, hscan, hc₃⟩ := exists_scan_eq (r := noting s) hplain (by rw [cursor_noting]; exact hat)
  -- the key is read as a plain text, of which the reader only notes that it may be a key
  have htoken : contentToken c ((key ++ ':' :: k).getD 1 endMark) s =
      some ((), ({ noting s with cursor := c₃ } : Reading).push (.scalar key true)) := by
    have hflow : (noting s).inFlow = false := by simp [Reading.inFlow, outer_noting, hstands.outer_eq]
    rw [contentToken_eq_plain hstands.outer_eq hindicator hsolid (fun heq => absurd heq hsign)]
    unfold plain
    rw [noteCandidate_bind hstands hloose, get_bind, hflow, indent_noting, cursor_noting,
      bind_eq hscan]
    rfl
  have hcandidate : (noting s).candidate = ⟨true, p.column + 1 = s.indent, s.nextNumber, p.line, 0, p.index⟩ := by
    rw [noting, if_pos hkeyAllowed, hat.line_eq, hat.column_eq, hat.index_eq]
    simp [hcolumn]
  obtain ⟨c₄, hline, hc₄⟩ := exists_contentLine_eq (m := 0) (k := ':' :: k) htoken hc₃
    ⟨rfl, (by decide : ':' ≠ '#')⟩
  rw [hhead, hline] at hnext
  refine ⟨_, q, blocks, [.scalar key true], _, 0, hnext, ?_, .colon hblocks hgap hrest hc₄ ?_ ?_ ?_ ?_ ?_ ?_,
    ?_, ?_, ?_⟩
  . exact stands_push hstands (.inl hkeyAllowed) c₄ (noting s).keyAllowed (.scalar key true)
  . have hpos := List.length_pos_iff.mpr hkey.ne_nil
    simp [hcolumn, hpos]
  . exact congrArg KeyPlace.possible hcandidate
  . exact (Nat.le_of_eq (congrArg KeyPlace.line hcandidate).symm)
  . exact congrArg KeyPlace.column hcandidate
  . refine Nat.le_trans (Nat.add_le_add_left hlength p.index) (Nat.le_of_eq ?_)
    exact congrArg (KeyPlace.index · + KeyPlace.maxLength) hcandidate.symm
  . rw [hc₄.size_eq]
    simp only [List.length_append, List.length_cons] at hsize
    simp only [Place.size_skips, hp]
    omega
  . simp
  . simp [Reading.push, noting, hkeyAllowed, hstands.queue_eq, h.queue_eq]
  . exact hc₄.size_eq.trans hp

theorem insert_eq {rest : List Token} (h : r.queue = q ++ rest) (t : Token) :
    r.insert (r.taken + q.length) t = { r with queue := q ++ t :: rest } := by
  unfold Reading.insert
  rw [if_neg (by omega)]
  simp [h]

theorem openBlock_eq (column : Nat) {rest : List Token} (h : r.queue = q ++ rest) (houter : r.outer = [])
    (hdepth : r.blocks.length < Reading.maxDepth) (t : Token) :
    r.openBlock column (r.taken + q.length) t =
      some { r with queue := q ++ (opening column r.blocks t ++ rest), blocks := opened column r.blocks } := by
  have hflow : r.inFlow = false := by simp [Reading.inFlow, houter]
  have hindent : r.indent = inside r.blocks := by
    unfold Reading.indent inside
    cases r.blocks <;> rfl
  have hinsert := insert_eq (r := { r with blocks := column :: r.blocks }) h t
  unfold Reading.openBlock opened opening
  rw [hflow, hindent, Bool.false_or]
  split
  . next hcolumn =>
    have hcolumn : column < inside r.blocks := by simpa using hcolumn
    rw [if_pos hcolumn, if_pos hcolumn, List.nil_append, ← h]
  . next hcolumn =>
    have hcolumn : ¬column < inside r.blocks := by simpa using hcolumn
    rw [if_neg (Nat.not_le_of_lt hdepth), if_neg hcolumn, if_neg hcolumn, hinsert]
    rfl

theorem unnote_eq {number : Nat} (h : r.noted = [(number, 0)]) : r.unnote number = [] := by
  rw [Reading.unnote, h]
  simp

theorem exists_value_eq {t : Token} {k : List Char} {n : Nat} {p : Place} (h : r.Stands (q ++ [t]) blocks)
    (hblocks : blocks.length < Reading.maxDepth) (hpossible : r.candidate.possible)
    (hreaches : r.cursor.line ≤ r.candidate.line ∧ r.cursor.index ≤ r.candidate.index + KeyPlace.maxLength)
    (hcolumn : r.candidate.column = 0) (hr : r.cursor.At ⟨':' :: k, n + 1, p⟩) :
    ∃ c, c.At ⟨k, n, p.skips 1⟩ ∧ value r = some ((), { r with
      cursor := c
      queue := q ++ (opening 0 blocks .blockMappingStart ++ [Token.key, t, .value])
      blocks := opened 0 blocks
      candidate := { r.candidate with possible := false }
      noted := []
      keyAllowed := false }) := by
  have hdepth : r.depth = 0 := by simp [Reading.depth, h.outer_eq]
  have hnumber : r.candidate.number = r.taken + q.length := by
    have hnumber := h.number_eq hpossible
    rw [Reading.nextNumber, h.queue_eq, List.length_append, List.length_singleton] at hnumber
    omega
  -- the place that was noted is still on this line and near enough
  have hcheck : r.checkCandidate r.depth = some (true, r) := by
    have hat : r.candidateAt r.depth = some r.candidate := by simp [Reading.candidateAt]
    have hreach : r.candidate.reaches r.cursor := by simp [KeyPlace.reaches, hpossible, hreaches]
    simp [Reading.checkCandidate, hat, hreach]
  have hkey := insert_eq h.queue_eq .key
  have hopen := openBlock_eq 0 (r := { r with queue := q ++ Token.key :: [t] }) rfl h.outer_eq
    (h.blocks_eq ▸ hblocks) .blockMappingStart
  have hupdate : update (·.openBlock 0 (r.taken + q.length) .blockMappingStart) { r with queue := q ++ Token.key :: [t] } =
      some ((), { r with
        queue := q ++ (opening 0 blocks .blockMappingStart ++ Token.key :: [t])
        blocks := opened 0 blocks }) := by
    rw [update, hopen, h.blocks_eq]
    rfl
  have hnoted : r.noted = [(r.taken + q.length, 0)] := by rw [h.noted_eq, if_pos hpossible, hnumber]
  obtain ⟨c, hskip, hc⟩ := exists_scan_eq (r := { r with
    queue := q ++ (opening 0 blocks .blockMappingStart ++ Token.key :: [t])
    blocks := opened 0 blocks
    candidate := { r.candidate with possible := false }
    noted := []
    keyAllowed := false }) (Runs.skip ':' k n) hr
  refine ⟨c, hc, ?_⟩
  unfold value
  rw [get_bind]
  refine (bind_eq (α := Bool) (a := true) hcheck).trans ?_
  rw [if_pos rfl, get_bind, modify_bind, hnumber, hkey, hcolumn]
  refine (bind_eq hupdate).trans ?_
  have hqueue : q ++ (opening 0 blocks .blockMappingStart ++ [Token.key, t, .value]) =
      q ++ (opening 0 blocks .blockMappingStart ++ Token.key :: [t]) ++ [Token.value] := by simp
  rw [modify_bind, unnote_eq, allowKey_bind, hqueue]
  . exact (bind_eq hskip).trans rfl
  . exact hnoted

theorem exists_entry_eq {k : List Char} {n : Nat} {p : Place} (h : r.Stands q blocks) (hloose : r.Loose)
    (hblocks : blocks.length < Reading.maxDepth) (hkey : r.keyAllowed) (hr : r.cursor.At ⟨'-' :: k, n + 1, p⟩) :
    ∃ c, c.At ⟨k, n, p.skips 1⟩ ∧ entry .blockSequenceStart .blockEntry true r = some ((), { r with
      cursor := c
      queue := q ++ (opening p.column blocks .blockSequenceStart ++ [Token.blockEntry])
      blocks := opened p.column blocks
      candidate := { r.candidate with possible := false }
      noted := []
      keyAllowed := true }) := by
  have hflow : r.inFlow = false := by simp [Reading.inFlow, h.outer_eq]
  have hopen := openBlock_eq p.column (by simpa using h.queue_eq : r.queue = q ++ []) h.outer_eq
    (h.blocks_eq ▸ hblocks) .blockSequenceStart
  have hupdate : update (fun r => r.openBlock r.cursor.column r.nextNumber .blockSequenceStart) r = some ((), { r with
      queue := q ++ (opening p.column blocks .blockSequenceStart ++ [])
      blocks := opened p.column blocks }) := by
    rw [update, hr.column_eq, Reading.nextNumber, h.queue_eq, hopen, h.blocks_eq]
    rfl
  -- a name for the state after the block was opened, which the next steps only copy
  obtain ⟨s, hs⟩ : ∃ s : Reading, s = { r with
    queue := q ++ (opening p.column blocks .blockSequenceStart ++ [])
    blocks := opened p.column blocks } := ⟨_, rfl⟩
  rw [← hs] at hupdate
  have hdrop : update Reading.dropCandidate s = some ((), dropped s) := by
    rw [update, dropCandidate_eq]
    . rfl
    . rw [hs]
      exact h.noted_eq
    . rw [hs]
      exact hloose
  obtain ⟨c, hskip, hc⟩ := exists_scan_eq (r := { dropped s with keyAllowed := true }) (Runs.skip '-' k n)
    (by rw [hs]; exact hr)
  refine ⟨c, hc, ?_⟩
  unfold entry
  rw [get_bind, hflow, hkey]
  refine (bind_eq hupdate).trans ?_
  rw [bind_eq hdrop, allowKey_bind]
  refine (bind_eq hskip).trans ?_
  rw [hs]
  have hqueue : q ++ (opening p.column blocks .blockSequenceStart ++ [Token.blockEntry]) =
      q ++ (opening p.column blocks .blockSequenceStart ++ []) ++ [Token.blockEntry] := by simp
  rw [hqueue]
  rfl

theorem exists_cons_of_head? {f : Char → Bool} {w : List Char} (h : w.head?.any f) : ∃ c w', w = c :: w' ∧ f c := by
  cases w with
  | nil => cases h
  | cons c w => exact ⟨c, w, rfl, h⟩

theorem isTokenStart_of_rest {j : Nat} {k : List Char} (h : Rest (.line j) blocks k ts) :
    isTokenStart (k.headD endMark) := by
  cases h with
  | finish => rfl
  | @key _ key k _ hkey _ _ _ _ =>
    obtain ⟨c, hhead, hstart, -⟩ := hkey.exists_headD_eq (':' :: k)
    rw [hhead]
    exact hstart
  | item => rfl

theorem exists_spaces_of_rest {k : List Char} (h : Rest .sign blocks k ts) :
    ∃ m k', k = spaces m ++ k' ∧ isBlank (k'.headD endMark) = false ∧ k'.headD endMark ≠ '#' := by
  cases h with
  | list _ => exact ⟨0, _, rfl, rfl, (by decide : '\n' ≠ '#')⟩
  | @text column j outer w k t ts _ hstart _ _ =>
    obtain ⟨c, w, rfl, hc⟩ := exists_cons_of_head? hstart
    simp only [isTokenStart, isSolid, Bool.and_eq_true, Bool.not_eq_true', decide_eq_true_eq] at hc
    exact ⟨1, c :: w ++ (spaces j ++ k), rfl, hc.1.1, hc.2⟩

theorem leads_colon {t : Token} {k : List Char} {n : Nat} {p : Place} (h : r.Stands (q ++ [t]) blocks)
    (hblocks : blocks = [] ∨ blocks = [0]) (hgap : isGap (k.headD endMark)) (hrest : Rest .sign [0] k ts)
    (hr : r.cursor.At ⟨':' :: k, n, p⟩) (hp : 0 < p.column) (hpossible : r.candidate.possible)
    (hline : p.line ≤ r.candidate.line) (hcolumn : r.candidate.column = 0)
    (hindex : p.index ≤ r.candidate.index + KeyPlace.maxLength) (hsize : k.length + 8 ≤ r.cursor.size) :
    Leads r q (opening 0 blocks .blockMappingStart ++ Token.key :: t :: .value :: ts) := by
  have hpsize : r.cursor.size = p.size := hr.size_eq
  obtain ⟨s, hnext, hstands, hat, hsame⟩ := exists_next_spaces (m := 0) (k := ':' :: k) h hr rfl (by simp)
    (Nat.pos_iff_ne_zero.mp hp) (by obtain rfl | rfl := hblocks <;> simp) (by omega)
  rw [← hsame] at hpossible hline hcolumn hindex
  obtain ⟨c₃, hc₃, hvalue⟩ := exists_value_eq hstands (by obtain rfl | rfl := hblocks <;> decide)
    hpossible (by rw [hat.line_eq, hat.index_eq]; exact ⟨hline, hindex⟩) hcolumn hat
  have htoken : contentToken ':' (k.headD endMark) s = value s := by
    unfold contentToken
    rw [get_bind]
    change (if s.inFlow || isGap (k.headD endMark) then value else plain) s = value s
    rw [hgap, Bool.or_true, if_pos rfl]
  rw [hvalue] at htoken
  obtain ⟨m, k', rfl, hblank⟩ := exists_spaces_of_rest hrest
  obtain ⟨c₄, hline, hc₄⟩ := exists_contentLine_eq htoken hc₃ hblank
  have hsecond : (':' :: (spaces m ++ k')).getD 1 endMark = (spaces m ++ k').headD endMark := by
    cases spaces m ++ k' <;> rfl
  rw [List.headD_cons, hsecond, hline] at hnext
  refine ⟨_, q ++ (opening 0 blocks .blockMappingStart ++ [Token.key, t, .value]), [0], [], ts, 0, hnext, ?_,
    .sign hrest hc₄ ?_ rfl ?_, ?_, ?_, ?_⟩
  . refine ⟨by simp, ?_, hstands.outer_eq, nofun, rfl⟩
    obtain rfl | rfl := hblocks <;> rfl
  . simp
  . rw [hc₄.size_eq]
    simpa [← hpsize] using hsize
  . simp
  . simp only [h.queue_eq, List.length_append, List.length_cons]
    omega
  . exact hc₄.size_eq.trans hpsize.symm

theorem leads_text {column j : Nat} {outer : List Nat} {w k : List Char} {t : Token} {n : Nat} {p : Place}
    (hreads : ReadsAs w t (column + 1)) (hstart : w.head?.any isTokenStart) (hj : j ≤ column)
    (hrest : Rest (.line j) (column :: outer) k ts) (h : r.Stands q (column :: outer))
    (hr : r.cursor.At ⟨' ' :: (w ++ (spaces j ++ k)), n, p⟩) (hcolumn : column ≤ p.column)
    (hpossible : r.candidate.possible = false) (hsize : (' ' :: (w ++ (spaces j ++ k))).length + 8 ≤ r.cursor.size) :
    Leads r q (t :: ts) := by
  have hpsize : r.cursor.size = p.size := hr.size_eq
  obtain ⟨d, w, rfl, hd⟩ := exists_cons_of_head? hstart
  obtain ⟨s, hnext, hstands, hat, hsame⟩ := exists_next_spaces (m := 1) (k := d :: w ++ (spaces j ++ k)) h hr hd
    (List.cons_ne_nil d _) (Nat.succ_ne_zero _)
    (fun b hb => by
      obtain rfl : column = b := by simpa using hb
      exact Nat.le_succ_of_le hcolumn) (by omega)
  rw [← hsame] at hpossible
  have hindent : s.indent = column + 1 := by rw [Reading.indent, hstands.blocks_eq]
  -- the text is read in its style up to the line that follows it
  obtain ⟨r₁, htoken, hstands₁, hloose, hbefore, hsize₁⟩ := hreads s q (column :: outer) (p.skips 1) j k hstands
    (fun h => by rw [hpossible] at h; cases h) (.inr hpossible) hindent (Nat.succ_le_succ hcolumn)
    (Nat.lt_succ_of_le hj) (isTokenStart_of_rest hrest) (by
      rw [List.length_cons] at hsize
      simp only [Place.size_skips]
      omega) hat
  obtain ⟨c₃, hline, hbefore, hc₃⟩ := exists_contentLine_before htoken hbefore (isTokenStart_of_rest hrest)
  rw [hline] at hnext
  have hsize' : c₃.size = r.cursor.size := hc₃.trans (hsize₁.trans hpsize.symm)
  refine ⟨_, q ++ [t], column :: outer, [], ts, 0, hnext, ?_, .line hrest hbefore ?_ ?_, by simp, ?_, hsize'⟩
  . rw [List.append_nil]
    exact stands_move hstands₁ c₃ r₁.keyAllowed
  . exact hloose
  . simp only [hsize']
    simp only [List.length_append, List.length_cons] at hsize
    omega
  . simp only [h.queue_eq, hstands₁.queue_eq, List.length_append, List.length_singleton]
    omega

theorem leads_item {k : List Char} (hblocks : blocks = [0] ∨ blocks = [4, 0]) (hgap : isGap (k.headD endMark))
    (hrest : Rest .sign [4, 0] k ts) (h : r.Stands q blocks) (hr : Before r 4 ('-' :: k)) (hloose : r.Loose)
    (hsize : ('-' :: k).length + 8 ≤ r.cursor.size) :
    Leads r q (opening 4 blocks .blockSequenceStart ++ Token.blockEntry :: ts) := by
  obtain ⟨s, p, hnext, hstands, hat, hcolumn, hp, hkey, hsame⟩ := exists_next_line h hr rfl (by simp) (.inl (by decide))
    (by obtain rfl | rfl := hblocks <;> simp) (by omega)
  have hloose : s.Loose := by rwa [Reading.Loose, hsame]
  obtain ⟨c, hc, hentry⟩ := exists_entry_eq hstands hloose (by obtain rfl | rfl := hblocks <;> decide) hkey hat
  have hsecond : ('-' :: k).getD 1 endMark = k.headD endMark := by cases k <;> rfl
  have htoken : contentToken '-' (k.headD endMark) s = entry .blockSequenceStart .blockEntry true s := by
    unfold contentToken
    rw [get_bind]
    change (if isGap (k.headD endMark) then entry .blockSequenceStart .blockEntry true else plain) s = _
    rw [if_pos hgap]
  rw [hentry, hcolumn] at htoken
  rw [List.headD_cons, hsecond, contentLine, bind_eq htoken, get_bind, if_neg (by simp)] at hnext
  refine ⟨_, q ++ (opening 4 blocks .blockSequenceStart ++ [Token.blockEntry]), [4, 0], [], ts, 0, hnext, ?_,
    .sign hrest hc ?_ rfl ?_, by simp, ?_, hc.size_eq.trans hp⟩
  . refine ⟨by simp, ?_, hstands.outer_eq, nofun, rfl⟩
    obtain rfl | rfl := hblocks <;> rfl
  . simp [hcolumn]
  . rw [hc.size_eq, Place.size_skips, hp]
    rw [List.length_cons] at hsize
    omega
  . simp only [h.queue_eq, List.length_append, List.length_singleton]
    omega

theorem closeBlocks_eq (houter : r.outer = []) (f : Nat → Bool) :
    r.closeBlocks f = { r with
      queue := r.queue ++ List.replicate (r.blocks.takeWhile f).length .blockEnd
      blocks := r.blocks.drop (r.blocks.takeWhile f).length } := by
  unfold Reading.closeBlocks
  rw [if_neg (by simp [Reading.inFlow, houter])]

theorem exists_streamEnd_eq (hcolumn : r.cursor.column = 0) (houter : r.outer = [])
    (hnoted : r.noted = if r.candidate.possible then [(r.candidate.number, 0)] else []) (hloose : r.Loose) :
    ∃ r', streamEnd r = some ((), r') ∧
      r'.Stands (r.queue ++ (List.replicate r.blocks.length Token.blockEnd ++ [Token.streamEnd])) [] ∧ r'.cursor = r.cursor ∧
      r'.Loose := by
  have hclosed := closeBlocks_eq houter fun _ => true
  rw [List.takeWhile_eq_self_iff.mpr (fun _ _ => rfl), List.drop_length] at hclosed
  have hleave : update (fun r => (r.closeBlocks fun _ => true).dropCandidate) r =
      some ((), dropped (r.closeBlocks fun _ => true)) := by
    rw [update, dropCandidate_eq]
    . rfl
    . rw [hclosed]
      exact hnoted
    . rw [hclosed]
      exact hloose
  refine ⟨({ dropped (r.closeBlocks fun _ => true) with keyAllowed := false } : Reading).push .streamEnd,
    ?_, ?_, ?_, ?_⟩
  . unfold streamEnd leaveDocument
    rw [modify_bind, if_pos hcolumn]
    simp only [bind_assoc]
    rw [bind_eq hleave]
    rfl
  . rw [hclosed]
    refine ⟨by simp [Reading.push, dropped], rfl, houter, ?_, rfl⟩
    intro hpossible
    cases hpossible
  . rw [hclosed]
    rfl
  . intro hpossible
    cases hpossible

theorem exists_next_end {r₁ : Reading} {p : Place} {n : Nat} (harrive : arrive r = some ((), r₁))
    (hr₁ : r₁.cursor.At ⟨[], n, p⟩) (hp : p.column = 0) (h : r₁.Stands q blocks) (hloose : r₁.Loose) :
    ∃ r', next r = some ((), r') ∧
      r'.Stands (q ++ (List.replicate blocks.length Token.blockEnd ++ [Token.streamEnd])) [] ∧ r'.cursor.At ⟨[], 4, p⟩ ∧
      r'.Loose := by
  have hcursor : (r₁.closeBlocks (r₁.cursor.column < ·)).cursor.At ⟨[], n, p⟩ := by rwa [cursor_closeBlocks]
  obtain ⟨c, hneed, hc⟩ := exists_scan_eq (Runs.need _ n 4) hcursor
  have hpeek : c.peek 0 = endMark := hc.peek_head (Nat.succ_pos 3)
  have hnext : next r = streamEnd { r₁.closeBlocks (r₁.cursor.column < ·) with cursor := c } := by
    rw [next_eq_arrive, bind_eq harrive, modify_bind, bind_eq hneed, get_bind]
    dsimp only
    rw [hpeek, if_pos rfl]
  rw [closeBlocks_eq h.outer_eq, h.queue_eq, h.blocks_eq] at hnext
  generalize hclosed : (blocks.takeWhile (r₁.cursor.column < ·)).length = closed at hnext
  have hle : closed ≤ blocks.length := hclosed ▸ (List.takeWhile_prefix _).length_le
  obtain ⟨r', hend, hstands, hsame, hloose'⟩ := exists_streamEnd_eq (r := { r₁ with
    queue := q ++ List.replicate closed Token.blockEnd
    blocks := blocks.drop closed
    cursor := c }) (hc.column_eq.trans hp) h.outer_eq h.noted_eq hloose
  refine ⟨r', hnext.trans hend, ?_, hsame ▸ hc, hloose'⟩
  -- blocks to the right of the place are closed first, and the others with the stream
  have hall : List.replicate closed Token.blockEnd ++ List.replicate (blocks.drop closed).length Token.blockEnd =
      List.replicate blocks.length Token.blockEnd := by
    rw [List.replicate_append_replicate, List.length_drop, Nat.add_sub_cancel' hle]
  rw [List.append_assoc, ← List.append_assoc (List.replicate closed _), hall] at hstands
  exact hstands

theorem leads_finish (h : r.Stands q blocks) (hr : Before r 0 []) (hloose : r.Loose) (hsize : 8 ≤ r.cursor.size) :
    Leads r q (List.replicate blocks.length Token.blockEnd ++ [Token.streamEnd]) := by
  obtain ⟨c, p, harrive, hc, hcolumn, hp⟩ := exists_arrive_before hr rfl (by omega) h.outer_eq
  obtain ⟨r', hnext, hstands, hr', hloose'⟩ := exists_next_end harrive hc hcolumn (stands_move h c true) hloose
  have hsize' : r'.cursor.size = r.cursor.size := hr'.size_eq.trans hp
  refine ⟨r', q ++ (List.replicate blocks.length Token.blockEnd ++ [Token.streamEnd]), [], [], [], 0, hnext,
    by simpa using hstands,
    .ended hr' hcolumn hloose' (by omega), by simp, ?_, hsize'⟩
  rw [h.queue_eq, hstands.queue_eq]
  simp

theorem leads_ended {p : Place} {n : Nat} (h : r.Stands q []) (hr : r.cursor.At ⟨[], n, p⟩) (hcolumn : p.column = 0)
    (hloose : r.Loose) (hsize : 0 < r.cursor.size) : Leads r q [] := by
  have hpsize : r.cursor.size = p.size := hr.size_eq
  obtain ⟨c, harrive, hc⟩ := exists_arrive_spaces (m := 0) (k := []) hr rfl (hpsize ▸ hsize)
  obtain ⟨r', hnext, hstands, hr', hloose'⟩ := exists_next_end harrive hc hcolumn (stands_move h c r.keyAllowed) hloose
  have hsize' : r'.cursor.size = r.cursor.size := hr'.size_eq.trans hpsize.symm
  refine ⟨r', q ++ [Token.streamEnd], [], [], [], 1, hnext, by simpa using hstands, .ended hr' hcolumn hloose' (by omega),
    by simp, ?_, hsize'⟩
  rw [h.queue_eq, hstands.queue_eq]
  simp

theorem leads_line {j : Nat} {k : List Char} (hrest : Rest (.line j) blocks k ts) (h : r.Stands q blocks)
    (hr : Before r j k) (hloose : r.Loose) (hsize : k.length + 8 ≤ r.cursor.size) : Leads r q ts := by
  cases hrest with
  | finish => exact leads_finish h hr hloose hsize
  | key hkey hlength hblocks hgap hrest => exact leads_key hkey hlength hblocks hgap hrest h hr hloose hsize
  | item hblocks hgap hrest => exact leads_item hblocks hgap hrest h hr hloose hsize

theorem leads_stage {held : List Token} (hstage : Stage r blocks held ts) (h : r.Stands (q ++ held) blocks) :
    Leads r q ts := by
  cases hstage with
  | line hrest hr hloose hsize => exact leads_line hrest (by simpa using h) hr hloose hsize
  | colon hblocks hgap hrest hr hp hpossible hline hcolumn hindex hsize =>
    cases hrest with
    | colon hrest => exact leads_colon h hblocks hgap hrest hr hp hpossible hline hcolumn hindex hsize
  | @sign _ _ _ n p hrest hr hblocks hpossible hsize =>
    rw [List.append_nil] at h
    cases hrest with
    | list hrest =>
      refine leads_line hrest h ⟨n, p, .inr hr⟩ (fun h => ?_) ?_
      . rw [hpossible] at h
        cases h
      . simp only [List.length_cons, List.length_append] at hsize
        omega
    | text hreads hstart hj hrest => exact leads_text hreads hstart hj hrest h hr (hblocks _ rfl) hpossible hsize
  | ended hr hcolumn hloose hsize => exact leads_ended (by simpa using h) hr hcolumn hloose hsize

/-- The reader will give some tokens, and then the end of the text as often as somebody asks. -/
def Delivers (r : Reading) (ts : List Token) : Prop :=
  ∃ q blocks held ts' n, r.Stands (q ++ held) blocks ∧ Stage r blocks held ts' ∧
    q ++ ts' = ts ++ List.replicate n Token.streamEnd

theorem exists_next_delivers (h : Delivers r ts) :
    ∃ r', next r = some ((), r') ∧ Delivers r' ts ∧ r.queue.length < r'.queue.length := by
  obtain ⟨q, blocks, held, ts', n, hstands, hstage, htokens⟩ := h
  obtain ⟨r', q', blocks', held', ts'', m, hnext, hstands', hstage', htokens', hlength, -⟩ := leads_stage hstage hstands
  refine ⟨r', hnext, ⟨q', blocks', held', ts'', n + m, hstands', hstage', ?_⟩, hlength⟩
  rw [htokens', htokens, List.append_assoc, List.replicate_append_replicate]

theorem ready_eq (h : Delivers r ts) : ready r = some (decide (3 ≤ r.queue.length), r) := by
  obtain ⟨q, blocks, held, ts', n, hstands, -, -⟩ := h
  unfold ready
  by_cases hlength : 3 ≤ r.queue.length
  . have hnone : r.noted.lookup r.taken = none := by
      rw [hstands.noted_eq]
      split
      . next hpossible =>
        have hnumber := hstands.number_eq hpossible
        rw [Reading.nextNumber] at hnumber
        have hne : (r.taken == r.candidate.number) = false := by
          rw [beq_eq_false_iff_ne]
          omega
        simp [List.lookup, hne]
      . rfl
    rw [Source.hasLength_iff.mpr hlength, decide_eq_true hlength, hnone]
    rfl
  . have hshort : Source.hasLength 3 r.queue = false :=
      Bool.eq_false_iff.mpr fun h => hlength (Source.hasLength_iff.mp h)
    rw [hshort, decide_eq_false hlength]
    rfl

theorem exists_fillQueue_eq {fuel : Nat} (h : Delivers r ts) (hfuel : 3 ≤ r.queue.length + fuel) :
    ∃ r', fillQueue (fuel + 1) r = some ((), r') ∧ Delivers r' ts ∧ 3 ≤ r'.queue.length := by
  induction fuel generalizing r with
  | zero =>
    refine ⟨r, ?_, h, hfuel⟩
    rw [fillQueue, bind_eq (ready_eq h), decide_eq_true (show 3 ≤ r.queue.length from hfuel)]
    rfl
  | succ fuel ih =>
    by_cases hlength : 3 ≤ r.queue.length
    . refine ⟨r, ?_, h, hlength⟩
      rw [fillQueue, bind_eq (ready_eq h), decide_eq_true hlength]
      rfl
    . obtain ⟨r₁, hnext, h₁, hmore⟩ := exists_next_delivers h
      obtain ⟨r', hfill, h', hlength'⟩ := ih h₁ (by omega)
      refine ⟨r', ?_, h', hlength'⟩
      rw [fillQueue, bind_eq (ready_eq h), decide_eq_false hlength]
      exact (bind_eq hnext).trans hfill

theorem length_held_le {held : List Token} (h : Stage r blocks held ts) : held.length ≤ 1 := by
  cases h <;> simp

section Take

variable {t u : Token}

theorem exists_peek_eq (h : Delivers r (t :: ts)) :
    ∃ r' q blocks held ts' n, peek r = some (t, r') ∧ r'.Stands (t :: q ++ held) blocks ∧ Stage r' blocks held ts' ∧
      q ++ ts' = ts ++ List.replicate n Token.streamEnd := by
  obtain ⟨r', hfill, h', hlength⟩ := exists_fillQueue_eq h
    (by omega : 3 ≤ r.queue.length + (r.cursor.size + 3))
  obtain ⟨q, blocks, held, ts', n, hstands, hstage, htokens⟩ := h'
  have hheld := length_held_le hstage
  rw [hstands.queue_eq, List.length_append] at hlength
  obtain ⟨t', q, rfl⟩ := List.exists_cons_of_length_pos (l := q) (by omega)
  obtain ⟨rfl, hmore⟩ := List.cons.inj htokens
  refine ⟨r', q, blocks, held, ts', n, ?_, hstands, hstage, hmore⟩
  unfold peek
  rw [get_bind]
  refine (bind_eq hfill).trans ?_
  rw [get_bind, hstands.queue_eq]
  rfl

theorem exists_peek_delivers (h : Delivers r (t :: ts)) : ∃ r', peek r = some (t, r') ∧ Delivers r' (t :: ts) := by
  obtain ⟨r', q, blocks, held, ts', n, hpeek, hstands, hstage, htokens⟩ := exists_peek_eq h
  exact ⟨r', hpeek, t :: q, blocks, held, ts', n, hstands, hstage, by simp [htokens]⟩

theorem stage_take {held : List Token} (h : Stage r blocks held ts) (q : List Token) (taken : Nat) :
    Stage { r with queue := q, taken := taken } blocks held ts := by
  cases h with
  | line hrest hr hloose hsize => exact .line hrest hr hloose hsize
  | colon hblocks hgap hrest hr hp hpossible hline hcolumn hindex hsize =>
    exact .colon hblocks hgap hrest hr hp hpossible hline hcolumn hindex hsize
  | sign hrest hr hblocks hpossible hsize => exact .sign hrest hr hblocks hpossible hsize
  | ended hr hcolumn hloose hsize => exact .ended hr hcolumn hloose hsize

theorem exists_take_delivers (h : Delivers r (t :: ts)) : ∃ r', take r = some (t, r') ∧ Delivers r' ts := by
  obtain ⟨r', q, blocks, held, ts', n, hpeek, hstands, hstage, htokens⟩ := exists_peek_eq h
  refine ⟨{ r' with queue := r'.queue.drop 1, taken := r'.taken + 1 }, ?_, q, blocks, held, ts', n, ?_,
    stage_take hstage _ _, htokens⟩
  . exact bind_eq hpeek
  . refine ⟨?_, hstands.blocks_eq, hstands.outer_eq, fun hpossible => ?_, hstands.noted_eq⟩
    . simp [hstands.queue_eq]
    . have hnumber := hstands.number_eq hpossible
      simp only [Reading.nextNumber, hstands.queue_eq, List.cons_append, List.length_cons, List.drop_one,
        List.tail_cons] at hnumber ⊢
      omega

theorem exists_advance_delivers (h : Delivers r (t :: u :: ts)) :
    ∃ r', advance r = some (u, r') ∧ Delivers r' (u :: ts) := by
  obtain ⟨r₁, htake, h₁⟩ := exists_take_delivers h
  obtain ⟨r', hpeek, h'⟩ := exists_peek_delivers h₁
  exact ⟨r', (bind_eq htake).trans hpeek, h'⟩

end Take

/-- A document of the writer's form gives its tokens. -/
theorem exists_start_eq {c : Char} {cs : List Char} (hrest : Rest (.line 0) [] (c :: cs) ts)
    (hclean : (c :: cs).all isClean) (hascii : c.toNat < 0x80) (hlength : 2 ≤ cs.length) :
    ∃ r, Reading.start (Bytes.ofChars (c :: cs)) = some r ∧ Delivers r (.streamStart :: ts) ∧
      r.cursor.size = (Bytes.ofChars (c :: cs)).length + 8 := by
  obtain ⟨s, hneed, hshows⟩ := Source.exists_need?_ofBytes hclean hascii hlength
  have hsize := Source.length_le_ofChars (c :: cs)
  generalize Bytes.ofChars (c :: cs) = data at hneed hsize ⊢
  have hscan : scan (Scan.need 1) (Reading.ofBytes data) =
      some ((), { Reading.ofBytes data with cursor := { Cursor.ofBytes data with source := s } }) := by
    have hcursor : Scan.need 1 (Cursor.ofBytes data) = some ((), { Cursor.ofBytes data with source := s }) :=
      Scan.need_eq hneed
    rw [scan, Reading.ofBytes, hcursor]
    rfl
  refine ⟨({ Reading.ofBytes data with cursor := { Cursor.ofBytes data with source := s } }
    : Reading).push .streamStart,
    ?_, ⟨[.streamStart], [], [], ts, 0, ⟨rfl, rfl, rfl, ?_, rfl⟩, .line hrest ?_ ?_ ?_, by simp⟩, rfl⟩
  . rw [Reading.start, hscan]
    rfl
  . intro hpossible
    cases hpossible
  . exact ⟨1, ⟨0, 0, 0, data.length + 8⟩, .inl ⟨⟨hshows, rfl, rfl, rfl, rfl⟩, rfl, rfl⟩⟩
  . intro hpossible
    cases hpossible
  . exact Nat.add_le_add_right hsize 8

end ReadM

end VerboseExpr.Yaml
