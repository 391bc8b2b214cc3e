import VerboseExpr.Proofs.Element.Parse

/-!
Printing trees as sources. A literal is quoted with either delimiter, a command without arguments is written
bare or in brackets, one with arguments in round brackets, and the command of the root may also be written as
square brackets; blanks stand between the tokens. Main statement: whichever way a tree is printed,
reading the source gives the tree back.
-/

namespace VerboseExpr

namespace Token

/-- The written tokens one after another with blanks between them. Blanks may also stand before and after
all of them; `apart` says that they have to stand before the first one. -/
inductive Spaced : Bool → List Bytes → Bytes → Prop where
  | done {apart : Bool} {blanks : Bytes} : (∀ c ∈ blanks, isBlank c) → Spaced apart [] blanks
  | token {apart : Bool} {blanks raw rest : Bytes} {raws : List Bytes} :
    (∀ c ∈ blanks, isBlank c) → (apart → blanks ≠ []) → Spaced true raws rest →
    Spaced apart (raw :: raws) (blanks ++ (raw ++ rest))

theorem spaced_flatMap (apart : Bool) (raws : List Bytes) :
    Spaced apart raws (raws.flatMap fun raw => 0x20 :: raw) := by
  induction raws generalizing apart with
  | nil => exact Spaced.done (by simp)
  | cons raw raws ih =>
    have hblank : ∀ c ∈ [(0x20 : UInt8)], isBlank c := List.forall_mem_singleton.2 rfl
    exact Spaced.token hblank (by simp) (ih true)

theorem Spaced.exists_tiling {apart : Bool} {raws texts : List Bytes} {src : Bytes}
    (h : Spaced apart raws src) (hwritten : List.Forall₂ Written texts raws) (prev : Option Token)
    (offset : Nat) (hprev : prev.isSome → apart) :
    ∃ ts, ts.map (·.text) = texts ∧ Tiling prev offset src ts := by
  induction h generalizing texts prev offset with
  | done hblanks =>
    cases hwritten
    exact ⟨[], rfl, Tiling.done hblanks⟩
  | @token apart blanks raw rest raws hblanks hapart _ ih =>
    cases hwritten with
    | @cons text _ texts _ hraw hraws =>
      obtain ⟨ts, htexts, htiling⟩ := ih hraws (some ⟨text, (offset + blanks.length : Nat)⟩)
        (offset + blanks.length + raw.length) (by simp)
      refine ⟨⟨text, (offset + blanks.length : Nat)⟩ :: ts, ?_, ?_⟩
      . rw [List.map_cons, htexts]
      . apply Tiling.token hblanks _ hraw rfl htiling
        intro p hp _
        apply hapart
        apply hprev
        rw [hp]
        rfl

end Token

namespace Element

def isWord (name : Bytes) : Bool := !name.isEmpty && name.all Token.isWordByte

mutual

/-- Is the tree built from literals without arguments and from commands that have words as names? -/
def isPrintable : Element → Bool
  | .node k v args =>
    match k with
    | .literal => args.isEmpty
    | .command => isWord v && arePrintable args
    | .unknown => false

def arePrintable : List Element → Bool
  | [] => true
  | e :: rest => isPrintable e && arePrintable rest

end

/-- The ways of writing some trees, token by token. -/
inductive Spelled : List Element → List Bytes → Prop where
  | nil : Spelled [] []
  | literal {d : UInt8} (body : Bytes) {es : List Element} {raws : List Bytes} :
    Token.isQuote d → Spelled es raws →
    Spelled (literal body :: es) ((d :: Token.doubled d body ++ [d]) :: raws)
  | bare {name : Bytes} {es : List Element} {raws : List Bytes} :
    isWord name → Spelled es raws → Spelled (command name [] :: es) (name :: raws)
  | round {name : Bytes} {args es : List Element} {inner raws : List Bytes} :
    isWord name → Spelled args inner → Spelled es raws →
    Spelled (command name args :: es) ([0x28] :: name :: inner ++ [0x29] :: raws)
  | square {args es : List Element} {inner raws : List Bytes} :
    Spelled args inner → Spelled es raws →
    Spelled (command rootName args :: es) ([0x5B] :: inner ++ [0x5D] :: raws)

/-- The source is a way of writing the tree below its root, which is not written itself. -/
def Prints (tree : Element) (source : Bytes) : Prop :=
  ∃ raws, Spelled tree.args raws ∧ Token.Spaced false raws source

mutual

/-- One way of writing a tree: in single quotes, in round brackets, or bare. -/
def spell : Element → List Bytes
  | .node k v args =>
    if k = .literal then [0x27 :: Token.doubled 0x27 v ++ [0x27]]
    else if args.isEmpty then [v]
    else [0x28] :: v :: spellAll args ++ [[0x29]]

def spellAll : List Element → List Bytes
  | [] => []
  | e :: rest => spell e ++ spellAll rest

end

section Spelling

theorem written_of_isWord {name : Bytes} (h : isWord name) : Token.Written name name := by
  rw [isWord, Bool.and_eq_true, Bool.not_eq_true', List.isEmpty_eq_false_iff, List.all_eq_true] at h
  exact Token.Written.word h.1 h.2

theorem leaf_of_isWord {t : Token} (h : isWord t.text) : Leaf t (command t.text []) := by
  rw [isWord, Bool.and_eq_true, Bool.not_eq_true', List.isEmpty_eq_false_iff, List.all_eq_true] at h
  obtain ⟨c, w, hname⟩ := List.exists_cons_of_ne_nil h.1
  apply Leaf.word
  apply Token.classify_eq_word (c := c)
  . rw [hname]
    rfl
  . apply h.2
    rw [hname]
    exact List.mem_cons_self

theorem Spelled.exists_texts {es : List Element} {raws : List Bytes} (h : Spelled es raws) :
    ∃ texts, List.Forall₂ Token.Written texts raws ∧ ∀ ts, ts.map (·.text) = texts → Items ts es := by
  -- the induction gives the tokens of the inside and those that follow, with the brackets put around the first
  induction h with
  | nil =>
    refine ⟨[], List.Forall₂.nil, ?_⟩
    intro ts hts
    rw [List.map_eq_nil_iff] at hts
    rw [hts]
    exact Items.nil
  | @literal d body es raws hd _ ih =>
    obtain ⟨texts, hwritten, hitems⟩ := ih
    refine ⟨(d :: body ++ [d]) :: texts, List.Forall₂.cons (Token.Written.quotation body hd) hwritten, ?_⟩
    intro ts hts
    obtain ⟨t, us, rfl, ht, hus⟩ := List.map_eq_cons_iff.1 hts
    exact Items.leaf (Leaf.quoted hd ht) (hitems us hus)
  | @bare name es raws hname _ ih =>
    obtain ⟨texts, hwritten, hitems⟩ := ih
    refine ⟨name :: texts, List.Forall₂.cons (written_of_isWord hname) hwritten, ?_⟩
    intro ts hts
    obtain ⟨t, us, rfl, rfl, hus⟩ := List.map_eq_cons_iff.1 hts
    exact Items.leaf (leaf_of_isWord hname) (hitems us hus)
  | @round name args es inner raws hname _ _ ihargs ihes =>
    obtain ⟨inners, hinner, hargs⟩ := ihargs
    obtain ⟨texts, hwritten, hitems⟩ := ihes
    refine ⟨[0x28] :: name :: inners ++ [0x29] :: texts, ?_, ?_⟩
    . have hclose := List.Forall₂.cons (Token.Written.bracket (c := 0x29) rfl) hwritten
      have hinside := List.Forall₂.cons (written_of_isWord hname) (List.rel_append hinner hclose)
      exact List.Forall₂.cons (Token.Written.bracket rfl) hinside
    . intro ts hts
      obtain ⟨opener, us, rfl, ho, hus⟩ := List.map_eq_cons_iff.1 hts
      obtain ⟨t, vs, rfl, rfl, hvs⟩ := List.map_eq_cons_iff.1 hus
      obtain ⟨body, ws, rfl, hbody, hws⟩ := List.map_eq_append_iff.1 hvs
      obtain ⟨closer, xs, rfl, hc, hxs⟩ := List.map_eq_cons_iff.1 hws
      exact Items.round ho (leaf_of_isWord hname) (hargs body hbody) hc (hitems xs hxs)
  | @square args es inner raws _ _ ihargs ihes =>
    obtain ⟨inners, hinner, hargs⟩ := ihargs
    obtain ⟨texts, hwritten, hitems⟩ := ihes
    refine ⟨[0x5B] :: inners ++ [0x5D] :: texts, ?_, ?_⟩
    . have hclose := List.Forall₂.cons (Token.Written.bracket (c := 0x5D) rfl) hwritten
      exact List.Forall₂.cons (Token.Written.bracket rfl) (List.rel_append hinner hclose)
    . intro ts hts
      obtain ⟨opener, us, rfl, ho, hus⟩ := List.map_eq_cons_iff.1 hts
      obtain ⟨body, vs, rfl, hbody, hvs⟩ := List.map_eq_append_iff.1 hus
      obtain ⟨closer, ws, rfl, hc, hws⟩ := List.map_eq_cons_iff.1 hvs
      exact Items.square ho (hargs body hbody) hc (hitems ws hws)

theorem spelled_spellAll (es : List Element) (h : arePrintable es) : Spelled es (spellAll es) := by
  match es with
  | [] => exact Spelled.nil
  | .node k v args :: rest =>
    rw [arePrintable, isPrintable.eq_def, Bool.and_eq_true] at h
    obtain ⟨hfirst, hrest⟩ := h
    have ihargs : arePrintable args → Spelled args (spellAll args) := spelled_spellAll args
    have ih := spelled_spellAll rest hrest
    rw [spellAll, spell]
    cases k with
    | unknown => simp at hfirst
    | literal =>
      obtain rfl := List.isEmpty_iff.1 hfirst
      exact Spelled.literal v rfl ih
    | command =>
      dsimp only at hfirst
      rw [Bool.and_eq_true] at hfirst
      cases args with
      | nil => exact Spelled.bare hfirst.1 ih
      | cons a as =>
        have hround := Spelled.round hfirst.1 (ihargs hfirst.2) ih
        simpa [command] using hround
termination_by sizeAll es
decreasing_by
  all_goals
    simp only [sizeAll, size]
    omega

end Spelling

/-- Every printable tree can be printed, and however it is printed, it is read back. -/
theorem parse_of_prints {tree : Element} (hroot : tree.isNamed [rootName])
    (hargs : arePrintable tree.args) :
    (∃ source, Prints tree source) ∧ ∀ source, Prints tree source → parse source = .ok tree := by
  constructor
  . exact ⟨_, spellAll tree.args, spelled_spellAll tree.args hargs, Token.spaced_flatMap false _⟩
  . rintro source ⟨raws, hspelled, hspaced⟩
    obtain ⟨texts, hwritten, hitems⟩ := hspelled.exists_texts
    obtain ⟨ts, hts, htiling⟩ := hspaced.exists_tiling hwritten none 0 (by simp)
    have htree : tree = command rootName tree.args := by
      obtain ⟨k, v, args⟩ := tree
      simp only [isNamed, isCommand, kind, value, Bool.and_eq_true, beq_iff_eq, List.contains_iff_mem,
        List.mem_singleton] at hroot
      rw [hroot.1, hroot.2]
      rfl
    rw [parse_eq_ok_iff_items htiling.readFrom_eq]
    exact ⟨tree.args, hitems ts hts, htree⟩

def quotingTree : Element :=
  command "match" [literal "it's (\"", command "or" [literal ")", command "begin" [], command "match" []],
    command "match" [command "group" [literal " ", literal ""]]]

theorem parse_of_prints_quotingTree :
    quotingTree.isNamed [rootName] ∧ arePrintable quotingTree.args ∧
      (∃ source, Prints quotingTree source) ∧
      ∀ source, Prints quotingTree source → parse source = .ok quotingTree :=
  ⟨by decide, by decide, parse_of_prints (by decide) (by decide)⟩

end Element

end VerboseExpr
