import VerboseExpr.Config.Yaml.Reader
import VerboseExpr.Proofs.Config.Yaml.Document

/-!
Settings written as a YAML document and read back. Main statement: reading gives back the settings that were written, if
their texts are UTF-8 and none that is written as a block begins like an indented or an empty line.
-/

namespace VerboseExpr.Yaml

/-- Nothing has gone wrong, and neither aliases nor entries of other mappings are being followed. -/
structure Decoding.IsPlain (d : Decoding) : Prop where
  mistyped_eq : d.mistyped = false
  expansions_eq : d.expansions = 0
  following_eq : d.following = []
  taken_eq : d.taken = none

/-- The action gives `a` and changes some settings to others, if nothing unusual is going on. -/
def Decodes {α : Type} (x : DecodeM α) (c : Config) (a : α) (c' : Config) : Prop :=
  ∀ d : Decoding, d.IsPlain → d.config = c → ∃ d', x d = .ok (a, d') ∧ d'.IsPlain ∧ d'.config = c'

namespace Decodes

variable {α β : Type} {x : DecodeM α} {f : α → DecodeM β} {a : α} {b : β} {c c' c'' : Config}

protected theorem pure (a : α) (c : Config) : Decodes (pure a) c a c := fun d hd hc => ⟨d, rfl, hd, hc⟩

protected theorem bind (h : Decodes x c a c') (h' : Decodes (f a) c' b c'') : Decodes (x >>= f) c b c'' := by
  intro d hd hc
  obtain ⟨d₁, hx, hd₁, hc₁⟩ := h d hd hc
  obtain ⟨d₂, hf, hd₂, hc₂⟩ := h' d₁ hd₁ hc₁
  refine ⟨d₂, ?_, hd₂, hc₂⟩
  change (x d).bind (fun s => f s.1 s.2) = _
  rw [hx]
  exact hf

theorem get_bind (f : Decoding → DecodeM β) (d : Decoding) : (get >>= f) d = f d d := rfl

theorem visit (c : Config) : Decodes DecodeM.visit c () c := by
  intro d hd hc
  refine ⟨{ d with visits := d.visits + 1, expansions := 0 }, ?_, ⟨hd.mistyped_eq, rfl, hd.following_eq, hd.taken_eq⟩,
    hc⟩
  have hsame : (if d.following.isEmpty then d.expansions else d.expansions + 1) = 0 := by
    rw [hd.following_eq, hd.expansions_eq]
    rfl
  have hfew : isExcessive 0 (d.visits + 1) = false := rfl
  unfold DecodeM.visit
  rw [get_bind]
  dsimp only
  rw [hsame, hfew]
  rfl

theorem apart (h : Decodes x c a c') : Decodes (DecodeM.apart x) c a c' := by
  intro d hd hc
  obtain ⟨d', hx, hd', hc'⟩ := h { d with taken := none } ⟨hd.mistyped_eq, hd.expansions_eq, hd.following_eq, rfl⟩ hc
  refine ⟨{ d' with taken := d.taken }, ?_, ⟨hd'.mistyped_eq, hd'.expansions_eq, hd'.following_eq, hd.taken_eq⟩, hc'⟩
  unfold DecodeM.apart
  rw [get_bind]
  change (x { d with taken := none }).bind _ = _
  rw [hx]
  rfl

theorem claim (s : Scalar) (c : Config) : Decodes (DecodeM.claim (.scalar s)) c true c := by
  intro d hd hc
  refine ⟨d, ?_, hd, hc⟩
  unfold DecodeM.claim
  rw [get_bind, hd.taken_eq]
  rfl

theorem modify (f : Config → Config) (c : Config) :
    Decodes (modify fun d => { d with config := f d.config }) c () (f c) := fun _ hd hc =>
  ⟨_, rfl, ⟨hd.mistyped_eq, hd.expansions_eq, hd.following_eq, hd.taken_eq⟩, congrArg f hc⟩

variable {doc : Document} {fuel : Nat}

theorem text {cs : List Char} {plain : Bool} (h : plain → resolve cs = .text) (c : Config) :
    Decodes (DecodeM.text doc (.scalar none plain cs) (fuel + 1)) c (some (Bytes.ofChars cs)) c := by
  have hscalar : Decodes (DecodeM.scalar none plain cs) c ⟨.text, Bytes.ofChars cs⟩ c := by
    have hvalue : (if plain then resolve cs else Value.text) = .text := by
      split
      . next hplain => exact h hplain
      . rfl
    have hscalar : scalar? none plain cs = some ⟨.text, Bytes.ofChars cs⟩ := by rw [scalar?, hvalue]
    unfold DecodeM.scalar
    rw [hscalar]
    exact Decodes.pure _ c
  exact Decodes.bind (visit c) (Decodes.bind hscalar (Decodes.pure _ c))

theorem bool (b : Bool) (c : Config) :
    Decodes (DecodeM.bool doc (.scalar none true (boolWord b)) (fuel + 1)) c (some b) c := by
  refine Decodes.bind (visit c) ?_
  cases b <;> exact Decodes.pure _ c

theorem mapM_text {items : List (List Char × Bool)} (h : ∀ i ∈ items, i.2 → resolve i.1 = .text) (c : Config) :
    Decodes ((items.map fun i => Node.scalar none i.2 i.1).mapM (DecodeM.text doc · (fuel + 1))) c
      (items.map fun i => some (Bytes.ofChars i.1)) c := by
  induction items with
  | nil => exact Decodes.pure [] c
  | cons i items ih =>
    rw [List.map_cons, List.mapM_cons]
    refine Decodes.bind (text (h i (by simp)) c) (Decodes.bind (ih fun i hi => h i (by simp [hi])) ?_)
    exact Decodes.pure _ c

theorem texts {items : List (List Char × Bool)} (h : ∀ i ∈ items, i.2 → resolve i.1 = .text) (c : Config) :
    Decodes (DecodeM.texts doc (Content.list items).node (fuel + 2)) c
      (some (items.map fun i => Bytes.ofChars i.1)) c := by
  refine Decodes.bind (visit c) (Decodes.bind (mapM_text h c) ?_)
  have hall : (items.map fun i => some (Bytes.ofChars i.1)).filterMap id = items.map fun i => Bytes.ofChars i.1 := by
    simp [List.filterMap_map]
  rw [hall]
  exact Decodes.pure _ c

theorem setText {v : Content} {t : Bytes} (ht : Utf8.isValid t) (h : v.IsText t) (assign : Config → Bytes → Config)
    (c : Config) : Decodes (DecodeM.setText doc v.node (fuel + 1) assign) c () (assign c t) := by
  obtain ⟨plain, rfl, hplain⟩ := h
  refine Decodes.bind (text hplain c) ?_
  rw [Utf8.ofChars_decode ht]
  exact modify (assign · t) c

theorem setBool (b : Bool) (assign : Config → Bool → Config) (c : Config) :
    Decodes (DecodeM.setBool doc (Content.text (boolWord b) true).node (fuel + 1) assign) c () (assign c b) :=
  Decodes.bind (bool b c) (modify (assign · b) c)

theorem settingEntries_cons {key : String} (hkey : key ∈ settingKeys) {v : Content} {done : List Bytes}
    {rest : List (Node × Node)} (hdone : done.contains (Bytes.ofString key) = false)
    {y : DecodeM Unit} (hassign : DecodeM.assign doc (Bytes.ofString key) v.node (fuel + 1) = y) (h : Decodes y c () c')
    (hrest : Decodes (DecodeM.settingEntries doc (fuel + 1) (Bytes.ofString key :: done) rest) c' () c'') :
    Decodes (DecodeM.settingEntries doc (fuel + 1) done ((.scalar none true key.toList, v.node) :: rest)) c () c'' := by
  have hall : settingKeys.all fun key => key.toList ≠ ['<', '<'] && resolve key.toList = .text &&
      DecodeM.settingNames.contains (Bytes.ofString key) := by
    decide +kernel
  have hfacts := List.all_eq_true.mp hall key hkey
  simp only [Bool.and_eq_true, decide_eq_true_eq] at hfacts
  obtain ⟨⟨hmerge, htext⟩, hname⟩ := hfacts
  unfold DecodeM.settingEntries
  rw [if_neg (by simp [Node.isMerge, hmerge])]
  refine Decodes.bind (apart (text (fun _ => htext) c)) ?_
  refine Decodes.bind (claim _ c) ?_
  rw [if_neg (by simpa [Bytes.ofString] using hname), if_neg (by simpa [Bytes.ofString] using hdone)]
  rw [← hassign] at h
  exact Decodes.bind (apart h) hrest

end Decodes

theorem decodes_entries {c : Config} {doc : Document} {fuel : Nat} {name package output engine : Content}
    {items : List (List Char × Bool)} (h : ∀ b ∈ c.texts, Utf8.isValid b) (hname : name.IsText c.name)
    (hpackage : package.IsText c.package) (houtput : output.IsText c.output) (hengine : engine.IsText c.engine)
    (hitems : items.map (·.1) = c.inputs.map Utf8.decode) (hresolve : ∀ i ∈ items, i.2 → resolve i.1 = .text) :
    Decodes (DecodeM.settingEntries doc (fuel + 2) [] (entryNodes (entries c name package output engine ++
      inputEntries items))) Config.default () c := by
  have hvalid := fun b hb => h b (List.mem_append.mpr hb)
  have hinputs : items.map (fun i => Bytes.ofChars i.1) = c.inputs := by
    have hsame := congrArg (List.map Bytes.ofChars) hitems
    simp only [List.map_map] at hsame
    rw [← List.map_id c.inputs]
    refine hsame.trans (List.map_congr_left fun b hb => ?_)
    exact Utf8.ofChars_decode (hvalid b (.inr hb))
  have hsame : ({ c with inputs := items.map fun i => Bytes.ofChars i.1 } : Config) = c := by rw [hinputs]
  -- the names are compared in order, so that each entry passes those that stand before its own
  have hother : ∀ {p : Prop} [Decidable p] {x y z : DecodeM Unit}, ¬p → y = z → (if p then x else y) = z :=
    fun hp h => (if_neg hp).trans h
  refine Decodes.settingEntries_cons (by simp [settingKeys]) (by decide) (if_pos rfl)
    (Decodes.setText (hvalid c.name (.inl (by simp))) hname _ _) ?_
  refine Decodes.settingEntries_cons (by simp [settingKeys]) (by decide) (hother (by decide) (if_pos rfl))
    (Decodes.setText (hvalid c.package (.inl (by simp))) hpackage _ _) ?_
  refine Decodes.settingEntries_cons (by simp [settingKeys]) (by decide)
    (hother (by decide) (hother (by decide) (if_pos rfl)))
    (Decodes.setText (hvalid c.output (.inl (by simp))) houtput _ _) ?_
  refine Decodes.settingEntries_cons (by simp [settingKeys]) (by decide)
    (hother (by decide) (hother (by decide) (hother (by decide) (if_pos rfl))))
    (Decodes.setText (hvalid c.engine (.inl (by simp))) hengine _ _) ?_
  refine Decodes.settingEntries_cons (by simp [settingKeys]) (by decide)
    (hother (by decide) (hother (by decide) (hother (by decide) (hother (by decide) (if_pos rfl)))))
    (Decodes.setBool c.verbose _ _) ?_
  refine Decodes.settingEntries_cons (by simp [settingKeys]) (by decide)
    (hother (by decide) (hother (by decide) (hother (by decide) (hother (by decide)
      (hother (by decide) (if_pos rfl))))))
    (Decodes.setBool c.noColor _ _) ?_
  refine Decodes.settingEntries_cons (by simp [settingKeys]) (by decide)
    (hother (by decide) (hother (by decide) (hother (by decide) (hother (by decide) (hother (by decide)
      (hother (by decide) (if_pos rfl)))))))
    (Decodes.setBool c.testFile _ _) ?_
  unfold inputEntries
  split
  . next hnone =>
    subst hnone
    exact (congrArg (Decodes (pure ()) · () c) hsame).mpr (Decodes.pure () c)
  . refine Decodes.settingEntries_cons (by simp [settingKeys]) (by decide)
      (hother (by decide) (hother (by decide) (hother (by decide) (hother (by decide) (hother (by decide)
        (hother (by decide) (hother (by decide) rfl)))))))
      (Decodes.bind (Decodes.texts hresolve _) (Decodes.modify ({ · with inputs := _ }) _)) ?_
    exact (congrArg (Decodes (pure ()) · () c) hsame).mpr (Decodes.pure () c)

theorem uniqueKeys_entries (c : Config) (name package output engine : Content) (items : List (List Char × Bool)) :
    Node.uniqueKeys (entryNodes (entries c name package output engine ++ inputEntries items)) ∧
      DecodeM.mergeNode (entryNodes (entries c name package output engine ++ inputEntries items)) = none := by
  unfold inputEntries
  split <;> exact ⟨rfl, rfl⟩

/-- Reading gives back the settings that were written. -/
theorem read_write {c : Config} (h : ∀ b ∈ c.texts, Utf8.isValid b) (hkeeps : keepsTexts c) :
    read (write c) = .ok c := by
  obtain ⟨name, package, output, engine, items, hname, hpackage, houtput, hengine, hitems, hresolve, hdocument⟩ :=
    exists_document?_write h hkeeps
  obtain ⟨hunique, hmerge⟩ := uniqueKeys_entries c name package output engine items
  generalize hroot : entryNodes (entries c name package output engine ++ inputEntries items) = root at *
  -- the fuel is a square of at least 64, and three steps of it lead to the entries
  obtain ⟨fuel, hfuel⟩ : ∃ fuel, ((write c).length + 8) * ((write c).length + 8) = fuel + 3 :=
    ⟨_, (Nat.sub_add_cancel (Nat.le_trans (by decide : 3 ≤ 8 * 8)
      (Nat.mul_le_mul (Nat.le_add_left 8 _) (Nat.le_add_left 8 _)))).symm⟩
  have hentries : Decodes (DecodeM.settingEntries ⟨.mapping none root, []⟩ (fuel + 2) [] root) Config.default () c := by
    rw [← hroot]
    exact decodes_entries h hname hpackage houtput hengine hitems hresolve
  have hact : Decodes (do
      DecodeM.visit
      DecodeM.settings ⟨.mapping none root, []⟩ (.mapping none root) (fuel + 3)) Config.default () c := by
    refine Decodes.bind (Decodes.visit _) (Decodes.bind (Decodes.visit _) ?_)
    simp only [hunique, hmerge]
    exact Decodes.bind hentries (Decodes.pure () c)
  obtain ⟨d, hd, hplain, hconfig⟩ := hact { config := Config.default } ⟨rfl, rfl, rfl, rfl⟩ rfl
  unfold read
  rw [hdocument]
  dsimp only
  rw [hfuel, hd]
  change (if d.mistyped then Except.error ReadError.malformed else .ok d.config) = _
  rw [hplain.mistyped_eq, hconfig]
  rfl

end VerboseExpr.Yaml
