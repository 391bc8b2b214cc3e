import Mathlib
import VerboseExpr.Proofs.Analysis.Census
import VerboseExpr.Proofs.Element.Relabel

namespace VerboseExpr

namespace Element

def entryFeature? (x : Kind × Bytes) : Option Feature := if x.1 = .literal then none else Feature.ofName? x.2

theorem features_eq (e : Element) :
    e.features = Feature.all.filter ((entries e).filterMap entryFeature?).contains := by
  unfold features entries
  rw [List.filterMap_map]
  dsimp only
  congr 3
  funext x
  simp [entryFeature?, isLiteral]

namespace Relabels

variable {g : Element → Element} {f : Kind → Bytes → Bytes}

theorem command?_eq (h : Relabels g f) (e : Element) : (g e).command? = e.command? := by
  obtain ⟨k, v, args⟩ := e
  rw [h.node_eq]
  cases k with
  | literal | unknown => rfl
  | command => exact h.ofName?_eq .command v (by decide)

theorem isNamed_eq (h : Relabels g f) {names : List Bytes} {p : Command → Bool} (hnames : AreNames names p)
    (e : Element) : (g e).isNamed names = e.isNamed names := by
  rw [Element.isNamed_eq hnames, Element.isNamed_eq hnames, h.command?_eq]

theorem depthAll_map {es : List Element} (ih : ∀ e ∈ es, (g e).depth = e.depth) :
    depthAll (es.map g) = depthAll es := by
  induction es with
  | nil => rfl
  | cons e rest ihrest =>
    rw [List.forall_mem_cons] at ih
    rw [List.map_cons, depthAll, depthAll, ih.1, ihrest ih.2]

theorem depth_eq (h : Relabels g f) (e : Element) : (g e).depth = e.depth := by
  induction e using argsInduction with
  | node k v args ih => rw [h.node_eq, depth, depth, depthAll_map ih]

theorem nestsAny_map {p q : Element → Bool} {es : List Element}
    (ih : ∀ e ∈ es, ∀ inside, nests p q inside (g e) = nests p q inside e) (inside : Bool) :
    nestsAny p q inside (es.map g) = nestsAny p q inside es := by
  induction es with
  | nil => rfl
  | cons e rest ihrest =>
    rw [List.forall_mem_cons] at ih
    rw [List.map_cons, nestsAny, nestsAny, ih.1, ihrest ih.2]

theorem nests_eq (h : Relabels g f) {p q : Element → Bool} (hp : ∀ e, p (g e) = p e) (hq : ∀ e, q (g e) = q e)
    (inside : Bool) (e : Element) : nests p q inside (g e) = nests p q inside e := by
  induction e using argsInduction generalizing inside with
  | node k v args ih =>
    have hp' := hp (.node k v args)
    have hq' := hq (.node k v args)
    rw [h.node_eq] at hp' hq' ⊢
    rw [nests, nests, hp', hq', nestsAny_map ih]

theorem isAnchored_eq (h : Relabels g f) (e : Element) : (g e).isAnchored = e.isAnchored := by
  induction e using argsInduction with
  | node k v args ih =>
    have hroot := h.isNamed_eq areNames_root (.node k v args)
    have hstart := h.isNamed_eq areNames_anchor (.node k v args)
    rw [h.node_eq] at hroot hstart ⊢
    cases args with
    | nil =>
      rw [List.map_nil] at hroot hstart ⊢
      rw [isAnchored, isAnchored, hroot, hstart]
    | cons first rest =>
      rw [List.map_cons] at hroot hstart ⊢
      rw [isAnchored, isAnchored, hroot, hstart, ih first List.mem_cons_self]

theorem entries_eq (h : Relabels g f) (e : Element) :
    entries (g e) = (entries e).map fun x => (x.1, f x.1 x.2) := by
  induction e using argsInduction with
  | node k v args ih =>
    rw [h.node_eq]
    by_cases hk : k = .literal
    . rw [hk, entries_literal, entries_literal]
      rfl
    . rw [entries_of_ne_literal hk, entries_of_ne_literal hk, List.flatMap_map, List.map_cons, List.map_flatMap]
      congr 1
      exact List.flatMap_congr ih

theorem countWhere_eq (h : Relabels g f) (p : Kind → Option Command → Bool) (e : Element) :
    countWhere (fun x => !x.isLiteral && p x.kind (Command.ofName? x.value)) (g e) =
      countWhere (fun x => !x.isLiteral && p x.kind (Command.ofName? x.value)) e := by
  have hcount := countWhere_eq_countP fun x => x.1 != .literal && p x.1 (Command.ofName? x.2)
  have hentry : ∀ x : Kind × Bytes, (x.1 != .literal && p x.1 (Command.ofName? (f x.1 x.2))) =
      (x.1 != .literal && p x.1 (Command.ofName? x.2)) := by
    intro x
    by_cases hk : x.1 = .literal
    . rw [hk]
      rfl
    . rw [h.ofName?_eq x.1 x.2 hk]
  calc
    _ = (entries (g e)).countP fun x => x.1 != .literal && p x.1 (Command.ofName? x.2) := hcount (g e)
    _ = (entries e).countP fun x => x.1 != .literal && p x.1 (Command.ofName? x.2) := by
      rw [h.entries_eq, List.countP_map]
      apply List.countP_congr
      intro x _
      exact iff_of_eq (congrArg (· = true) (hentry x))
    _ = _ := (hcount e).symm

theorem literals_eq (h : Relabels g f) (e : Element) :
    countWhere (·.isLiteral) (g e) = countWhere (·.isLiteral) e := by
  have hcount := countWhere_eq_countP (·.1 == .literal)
  calc
    _ = (entries (g e)).countP (·.1 == .literal) := hcount (g e)
    _ = (entries e).countP (·.1 == .literal) := by
      rw [h.entries_eq, List.countP_map]
      rfl
    _ = _ := (hcount e).symm

theorem features_eq (h : Relabels g f) (e : Element) : (g e).features = e.features := by
  rw [Element.features_eq, Element.features_eq, h.entries_eq, List.filterMap_map]
  congr 3
  funext x
  unfold Function.comp entryFeature?
  by_cases hk : x.1 = .literal
  . rw [if_pos hk, if_pos hk]
  . rw [if_neg hk, if_neg hk, Feature.ofName?_eq, Feature.ofName?_eq, h.ofName?_eq x.1 x.2 hk]

/-- The analysis of a tree does not depend on its values as long as the same commands are called. -/
theorem ofTree_eq (h : Relabels g f) (e : Element) (p : Bytes) : Analysis.ofTree (g e) p = Analysis.ofTree e p := by
  have hnamed : ∀ {name : Bytes} {p : Command → Bool}, AreNames [name] p →
      countWhere (fun x => !x.isLiteral && x.value == name) (g e) =
        countWhere (fun x => !x.isLiteral && x.value == name) e := by
    intro name p hname
    simp only [hname.beq]
    exact h.countWhere_eq (fun _ d => d.any p) e
  have hcommands : countWhere (!·.isLiteral) (g e) = countWhere (!·.isLiteral) e := by
    have hall := h.countWhere_eq (fun _ _ => true) e
    simpa only [Bool.and_true] using hall
  have hbounded : (g e).hasNestedQuantifiers = e.hasNestedQuantifiers :=
    h.nests_eq (h.isNamed_eq areNames_unbounded) (h.isNamed_eq areNames_unbounded) false e
  have hcaptures : (g e).hasRepeatingCaptures = e.hasRepeatingCaptures :=
    h.nests_eq (h.isNamed_eq areNames_quantifier) (h.isNamed_eq areNames_group) false e
  unfold Analysis.ofTree
  rw [h.features_eq, hcommands, h.literals_eq, h.depth_eq, hnamed areNames_group, hnamed areNames_reference, hbounded,
    hcaptures, h.isAnchored_eq]

end Relabels

end Element

end VerboseExpr
