import VerboseExpr.Config.Yaml.Node.Reader
import VerboseExpr.Proofs.Config.Yaml.Stream

namespace VerboseExpr.Yaml

/-- What stands behind a key: a text, which may be plain, or a list of such texts. -/
inductive Content where
  | text (cs : List Char) (plain : Bool)
  | list (items : List (List Char × Bool))

namespace Content

def itemTokens (items : List (List Char × Bool)) : List Token :=
  items.flatMap fun i => [.blockEntry, .scalar i.1 i.2]

def tokens : Content → List Token
  | text cs plain => [.scalar cs plain]
  | list items => .blockSequenceStart :: (itemTokens items ++ [Token.blockEnd])

def node : Content → Node
  | text cs plain => .scalar none plain cs
  | list items => .sequence none (items.map fun i => .scalar none i.2 i.1)

def size : Content → Nat
  | text _ _ => 0
  | list items => items.length

end Content

def entryTokens (es : List (List Char × Content)) : List Token :=
  es.flatMap fun e => .key :: .scalar e.1 true :: .value :: e.2.tokens

def entryNodes (es : List (List Char × Content)) : List (Node × Node) :=
  es.map fun e => (.scalar none true e.1, e.2.node)

/-- From a reader that will give some tokens the action builds `a` and leaves others. It changes nothing else. -/
def Builds {α : Type} (x : BuildM α) (ts : List Token) (a : α) (us : List Token) : Prop :=
  ∀ b : Building, ReadM.Delivers b.reading ts → ∃ r, x b = some (a, { b with reading := r }) ∧ ReadM.Delivers r us

namespace Builds

section Combinators

variable {α β : Type} {x : BuildM α} {f : α → BuildM β} {a : α} {b : β} {ts us vs : List Token} {t u : Token}

protected theorem pure (a : α) (ts : List Token) : Builds (pure a) ts a ts := fun b hb => ⟨b.reading, rfl, hb⟩

protected theorem bind (h : Builds x ts a us) (h' : Builds (f a) us b vs) : Builds (x >>= f) ts b vs := by
  intro s hs
  obtain ⟨r, hx, hr⟩ := h s hs
  obtain ⟨r', hf, hr'⟩ := h' { s with reading := r } hr
  refine ⟨r', ?_, hr'⟩
  change (x s).bind (fun s => f s.1 s.2) = _
  rw [hx]
  exact hf

theorem read {y : ReadM α}
    (h : ∀ r, ReadM.Delivers r ts → ∃ r', y r = some (a, r') ∧ ReadM.Delivers r' us) :
    Builds (BuildM.read y) ts a us := by
  intro s hs
  obtain ⟨r, hy, hr⟩ := h s.reading hs
  refine ⟨r, ?_, hr⟩
  rw [BuildM.read, hy]
  rfl

theorem peek (t : Token) (ts : List Token) : Builds BuildM.peek (t :: ts) t (t :: ts) :=
  read fun _ hr => ReadM.exists_peek_delivers hr

theorem take (t : Token) (ts : List Token) : Builds BuildM.take (t :: ts) t ts :=
  read fun _ hr => ReadM.exists_take_delivers hr

theorem advance (t u : Token) (ts : List Token) : Builds BuildM.advance (t :: u :: ts) u (u :: ts) :=
  read fun _ hr => ReadM.exists_advance_delivers hr

end Combinators

variable {ts : List Token} {fuel : Nat}

theorem content_text (block indentless : Bool) (cs : List Char) (plain : Bool) :
    Builds (BuildM.content block indentless {} none (fuel + 1)) (.scalar cs plain :: ts) (.scalar none plain cs) ts :=
  Builds.bind (peek _ ts) (Builds.bind (take _ ts) (Builds.pure _ ts))

theorem node {block indentless : Bool} {t : Token} {n : Node} {us : List Token}
    (ht : ∀ a, t ≠ .aliasOf a ∧ t ≠ .anchor a) (ht' : ∀ h s, t ≠ .tag h s)
    (h : Builds (BuildM.content block indentless {} none fuel) (t :: ts) n us) :
    Builds (BuildM.node block indentless (fuel + 1)) (t :: ts) n us := by
  have hproperties : Builds BuildM.properties (t :: ts) {} (t :: ts) := by
    refine Builds.bind (peek t ts) ?_
    split
    . exact absurd rfl (ht _).2
    . exact absurd rfl (ht' _ _)
    . exact Builds.pure _ _
  refine Builds.bind (peek t ts) ?_
  split
  . exact absurd rfl (ht _).1
  . refine Builds.bind hproperties ?_
    refine Builds.bind (Builds.pure none (t :: ts)) (Builds.bind (Builds.pure none (t :: ts)) ?_)
    exact Builds.bind h (Builds.pure n us)

theorem node_text (block indentless : Bool) (cs : List Char) (plain : Bool) (hfuel : 2 ≤ fuel) :
    Builds (BuildM.node block indentless fuel) (.scalar cs plain :: ts) (.scalar none plain cs) ts := by
  obtain ⟨fuel, rfl⟩ : ∃ n, fuel = n + 2 := ⟨fuel - 2, by omega⟩
  exact node (by simp) (by simp) (content_text block indentless cs plain)

theorem blockItems (items : List (List Char × Bool)) (hfuel : items.length + 3 ≤ fuel) :
    Builds (BuildM.blockItems fuel) (Content.itemTokens items ++ Token.blockEnd :: ts)
      (items.map fun i => .scalar none i.2 i.1) ts := by
  induction items generalizing fuel with
  | nil =>
    obtain ⟨fuel, rfl⟩ : ∃ n, fuel = n + 1 := ⟨fuel - 1, by omega⟩
    exact Builds.bind (peek _ ts) (Builds.bind (take _ ts) (Builds.pure [] ts))
  | cons i items ih =>
    rw [List.length_cons] at hfuel
    obtain ⟨fuel, rfl⟩ : ∃ n, fuel = n + 1 := ⟨fuel - 1, by omega⟩
    refine Builds.bind (peek .blockEntry _) (Builds.bind (advance .blockEntry (.scalar i.1 i.2) _) ?_)
    refine Builds.bind (node_text true false i.1 i.2 (by omega)) ?_
    exact Builds.bind (ih (by omega)) (Builds.pure _ ts)

theorem node_content (c : Content) (hfuel : c.size + 5 ≤ fuel) :
    Builds (BuildM.node true true fuel) (c.tokens ++ ts) c.node ts := by
  cases c with
  | text cs plain => exact node_text true true cs plain (by omega)
  | list items =>
    rw [Content.size] at hfuel
    obtain ⟨fuel, rfl⟩ : ∃ n, fuel = n + 2 := ⟨fuel - 2, by omega⟩
    have htokens : (Content.list items).tokens ++ ts =
        .blockSequenceStart :: (Content.itemTokens items ++ Token.blockEnd :: ts) := by
      simp [Content.tokens]
    rw [htokens]
    refine node (by simp) (by simp) (Builds.bind (peek .blockSequenceStart _) ?_)
    refine Builds.bind (take .blockSequenceStart _) ?_
    exact Builds.bind (blockItems items (by omega)) (Builds.pure _ ts)

theorem blockValue (c : Content) (hfuel : c.size + 6 ≤ fuel) :
    Builds (BuildM.blockValue fuel) (.value :: (c.tokens ++ ts)) c.node ts := by
  obtain ⟨fuel, rfl⟩ : ∃ n, fuel = n + 1 := ⟨fuel - 1, by omega⟩
  have hnode : Builds (BuildM.node true true fuel) (c.tokens ++ ts) c.node ts := node_content c (by omega)
  refine Builds.bind (peek .value _) ?_
  cases c with
  | text cs plain => exact Builds.bind (advance .value (.scalar cs plain) ts) hnode
  | list items => exact Builds.bind (advance .value .blockSequenceStart _) hnode

theorem blockEntries (es : List (List Char × Content)) {m : Nat} (hm : ∀ e ∈ es, e.2.size ≤ m)
    (hfuel : es.length + m + 7 ≤ fuel) :
    Builds (BuildM.blockEntries fuel) (entryTokens es ++ Token.blockEnd :: ts) (entryNodes es) ts := by
  induction es generalizing fuel with
  | nil =>
    obtain ⟨fuel, rfl⟩ : ∃ n, fuel = n + 1 := ⟨fuel - 1, by omega⟩
    exact Builds.bind (peek _ ts) (Builds.bind (take _ ts) (Builds.pure [] ts))
  | cons e es ih =>
    have he := hm e (by simp)
    rw [List.length_cons] at hfuel
    obtain ⟨fuel, rfl⟩ : ∃ n, fuel = n + 1 := ⟨fuel - 1, by omega⟩
    have htokens : entryTokens (e :: es) ++ Token.blockEnd :: ts =
        .key :: .scalar e.1 true :: .value :: (e.2.tokens ++ (entryTokens es ++ Token.blockEnd :: ts)) := by
      simp [entryTokens]
    rw [htokens]
    refine Builds.bind (peek .key _) (Builds.bind (advance .key (.scalar e.1 true) _) ?_)
    refine Builds.bind (node_text true true e.1 true (by omega)) ?_
    refine Builds.bind (blockValue e.2 (by omega)) ?_
    exact Builds.bind (ih (fun e he => hm e (by simp [he])) (by omega)) (Builds.pure _ ts)

end Builds

theorem exists_document_eq {r : Reading} {es : List (List Char × Content)} {m fuel : Nat}
    (hr : ReadM.Delivers r (.streamStart :: .blockMappingStart :: (entryTokens es ++ [Token.blockEnd, .streamEnd])))
    (hm : ∀ e ∈ es, e.2.size ≤ m) (hfuel : es.length + m + 9 ≤ fuel) :
    ∃ b, BuildM.document fuel { reading := r } = some (some (.mapping none (entryNodes es)), b) ∧ b.named = [] := by
  obtain ⟨fuel, rfl⟩ : ∃ n, fuel = n + 2 := ⟨fuel - 2, by omega⟩
  obtain ⟨r₁, hadvance, hr₁⟩ := Builds.advance .streamStart .blockMappingStart _ { reading := r } hr
  have hroot : Builds (BuildM.node true false (fuel + 2))
      (.blockMappingStart :: (entryTokens es ++ Token.blockEnd :: [.streamEnd])) (.mapping none (entryNodes es))
      [.streamEnd] := by
    refine Builds.node (by simp) (by simp) (Builds.bind (Builds.peek .blockMappingStart _) ?_)
    refine Builds.bind (Builds.take .blockMappingStart _) ?_
    exact Builds.bind (Builds.blockEntries es hm (by omega)) (Builds.pure _ _)
  have hrest : Builds (do
      let root ← BuildM.node true false (fuel + 2)
      let _ ← BuildM.peek
      return some root) (.blockMappingStart :: (entryTokens es ++ Token.blockEnd :: [.streamEnd]))
      (some (.mapping none (entryNodes es))) [.streamEnd] :=
    Builds.bind hroot (Builds.bind (Builds.peek .streamEnd []) (Builds.pure _ _))
  obtain ⟨r₂, hbuild, -⟩ := hrest { reading := r₁, handles := BuildM.defaultHandles } hr₁
  refine ⟨{ reading := r₂, handles := BuildM.defaultHandles }, ?_, rfl⟩
  unfold BuildM.document
  -- the first token is passed by itself, before the node and the end are looked for
  change (BuildM.advance { reading := r }).bind _ = _
  rw [hadvance]
  exact hbuild

/-- A document of the writer's form is read as a mapping. -/
theorem document?_eq {c : Char} {cs : List Char} {es : List (List Char × Content)}
    (hrest : Rest (.line 0) [] (c :: cs) (.blockMappingStart :: (entryTokens es ++ [Token.blockEnd, .streamEnd])))
    (hclean : (c :: cs).all isClean) (hascii : c.toNat < 0x80) (hlength : 2 ≤ cs.length)
    (hsize : ∀ e ∈ es, e.2.size ≤ (c :: cs).length) (hcount : es.length ≤ (c :: cs).length) :
    document? (Bytes.ofChars (c :: cs)) = some (some ⟨.mapping none (entryNodes es), []⟩) := by
  obtain ⟨r, hstart, hr, hsize'⟩ := ReadM.exists_start_eq hrest hclean hascii hlength
  have hle := Source.length_le_ofChars (c :: cs)
  obtain ⟨b, hdocument, hnamed⟩ := exists_document_eq hr hsize (by omega : _ ≤ 16 * r.cursor.size)
  unfold document?
  simp only [hstart, hdocument, hnamed, Option.bind_eq_bind, Option.bind_some, Option.map_some]

end VerboseExpr.Yaml
