import Mathlib
import VerboseExpr.Proofs.Analysis.Tables
import VerboseExpr.Proofs.Element.Preorder
import VerboseExpr.Proofs.Pattern.Pieces
import VerboseExpr.Proofs.Regex.Unreferring

/-!
Which engine runs a pattern with references. The automaton engine is tried first, and it is left only if it
refuses the pattern. Main statement: it does so as soon as one reference is written in a way that cannot be an
octal escape, which depends on its index and on the byte that happens to follow.
-/

namespace VerboseExpr

open Regex.Automaton (Unreferring beginsReference)
open Element Pattern

namespace Pattern.Piece

open Regex.Automaton

/-- Is there a reference that can only be one? -/
def refersBack : List Piece → Bool
  | [] => false
  | reference index :: rest => beginsReference (index ++ textAll rest) || refersBack rest
  | _ :: rest => refersBack rest

theorem Sound.unreferring {q : Piece} {bs : Bytes} (hq : q.Sound) (h : Unreferring (q.text ++ bs)) :
    Unreferring bs := by
  cases q with
  | mark t =>
    obtain hbare | hcontrol := hq
    . exact h.of_append hbare
    . simp [Command.names, Command.name, Command.aliases] at hcontrol
      obtain rfl | rfl | rfl := hcontrol
      all_goals exact h.of_backslash.2
  | literal v => exact h.of_escape
  | count digits => exact h.of_append (not_mem_of_isInteger hq)
  | reference index =>
    obtain _ | ⟨d, ds⟩ := index
    . contradiction
    . have hdigits := not_mem_of_isInteger hq
      rw [List.mem_cons, not_or] at hdigits
      exact h.of_backslash.2.of_append hdigits.2

theorem refersBack_eq_false {ps : List Piece} (hps : ∀ q ∈ ps, q.Sound) (h : Unreferring (textAll ps)) :
    refersBack ps = false := by
  induction ps with
  | nil => rfl
  | cons q ps ih =>
    rw [List.forall_mem_cons] at hps
    rw [textAll_cons] at h
    have hrest := ih hps.2 (hps.1.unreferring h)
    cases q with
    | reference index =>
      obtain _ | ⟨d, ds⟩ := index
      . exact absurd hps.1 Bool.false_ne_true
      . have hd : beginsReference (d :: (ds ++ textAll ps)) = false := h.of_backslash.1
        rw [refersBack, hrest, List.cons_append, hd]
        rfl
    | mark | literal | count => exact hrest

theorem exists_reference_of_refersBack {ps : List Piece} (h : refersBack ps) :
    ∃ index, .reference index ∈ ps := by
  fun_induction refersBack ps with
  | case1 => contradiction
  | case2 index rest => exact ⟨index, List.mem_cons_self⟩
  | case3 q rest _ ih =>
    obtain ⟨index, hindex⟩ := ih h
    exact ⟨index, List.mem_cons_of_mem q hindex⟩

end Pattern.Piece

namespace Element

theorem countWhere_pos_iff {p : Element → Bool} {k : Kind} {v : Bytes} {args : List Element} (hk : k ≠ .literal) :
    0 < countWhere p (.node k v args) ↔ p (.node k v args) ∨ ∃ e ∈ args, 0 < countWhere p e := by
  have henter : (!(node k v args).isLiteral) = true := by simp [isLiteral, kind, hk]
  rw [countWhere, walk, walkFrom, if_pos henter, List.map_cons, map_walkAllFrom_eq_flatMap, List.countP_pos_iff,
    List.exists_mem_cons_iff]
  simp only [List.mem_flatMap, countWhere, List.countP_pos_iff]
  apply or_congr_right
  constructor
  . rintro ⟨x, ⟨e, he, hx⟩, hp⟩
    exact ⟨e, he, x, hx, hp⟩
  . rintro ⟨e, he, x, hx, hp⟩
    exact ⟨x, ⟨e, he, hx⟩, hp⟩

end Element

namespace Pattern

open Piece

theorem mem_piecesAll {counts : Nat} {es : List Element} {ps : List Piece} (h : ps ∈ piecesAll counts es) :
    (∃ e ∈ es, ps = pieces e) ∨ ∃ digits, ps = [.count digits] := by
  induction es generalizing counts with
  | nil => simp [piecesAll] at h
  | cons e rest ih =>
    rw [List.exists_mem_cons_iff]
    cases counts with
    | zero =>
      rw [piecesAll, List.mem_cons] at h
      obtain hfirst | hrest := h
      . exact .inl (.inl hfirst)
      . exact (ih hrest).imp_left .inr
    | succ counts =>
      rw [piecesAll, List.mem_cons] at h
      obtain hfirst | hrest := h
      . exact .inr ⟨e.value, hfirst⟩
      . exact (ih hrest).imp_left .inr

theorem countWhere_pos_of_reference {e : Element} {index : Bytes} (h : .reference index ∈ pieces (normalize e)) :
    0 < (normalize e).countWhere fun x => !x.isLiteral && x.value == referenceName := by
  induction e using foldInduction with
  | literal v args =>
    rw [normalize_literal, Element.literal, pieces_literal] at h
    simp at h
  | operands k v args hk ih =>
    rw [normalize_of_ne_literal hk] at h ⊢
    rw [countWhere_pos_iff hk]
    cases hc : Command.ofName? v with
    | none => simp [pieces, hk, hc] at h
    | some c =>
      -- the command is the reference itself, or it has the piece from one of its operands
      by_cases hreference : c = .reference
      . subst hreference
        left
        simp [areNames_reference.beq, hc, isLiteral, kind, hk, value]
      . right
        rw [pieces_command hk hc hreference] at h
        have hargs : ∀ q ∈ c.layout v (piecesAll c.counts (normalizeAll (fold args))), q = .reference index →
            ∃ e ∈ fold args, .reference index ∈ pieces (normalize e) := by
          apply Command.forall_mem_layout
          . rintro text - ⟨⟩
          . rintro - ⟨⟩
          . rintro ps hps q hq rfl
            rw [normalizeAll_eq_map] at hps
            obtain ⟨e, he, rfl⟩ | ⟨digits, rfl⟩ := mem_piecesAll hps
            . obtain ⟨e, hmem, rfl⟩ := List.mem_map.1 he
              exact ⟨e, hmem, hq⟩
            . simp at hq
        obtain ⟨e, he, hmem⟩ := hargs _ h rfl
        rw [normalizeAll_eq_map]
        exact ⟨normalize e, List.mem_map_of_mem he, ih e he hmem⟩

end Pattern

namespace Analysis

theorem run_eq_bind (source : Bytes) :
    run source = (parse source).bind fun tree => (emit tree).map (ofTree tree.normalize) := by
  rw [run, Compilation.run, parse]
  cases Token.read source with
  | error f => rfl
  | ok ts =>
    cases hrepresent : represent (seed ts) with
    | error f => simp only [bind, Except.bind, hrepresent]
    | ok tree =>
      simp only [bind, Except.bind, hrepresent]
      cases emit tree <;> rfl

theorem run_of_emit {source p : Bytes} {tree : Element} (htree : parse source = .ok tree)
    (hp : emit tree = .ok p) : run source = .ok (ofTree tree.normalize p) := by
  rw [run_eq_bind, htree, Except.bind, hp, Except.map]

theorem exists_of_run {source : Bytes} {tree : Element} {a : Analysis} (htree : parse source = .ok tree)
    (ha : run source = .ok a) : ∃ p, emit tree = .ok p ∧ a = ofTree tree.normalize p := by
  rw [run_eq_bind, htree] at ha
  obtain ⟨p, hp, rfl⟩ := Except.map_eq_ok_iff.1 ha
  exact ⟨p, hp, rfl⟩

theorem engine_of_refused {p : Bytes} {m : Matcher} (h : Regex.Automaton.read? p = none)
    (hm : Matcher.make p .auto = .ok m) : m.engine = .backtracking := by
  simp only [Matcher.make, Matcher.forEngine, h] at hm
  split at hm
  . rw [Except.ok.injEq] at hm
    rw [← hm]
  . simp at hm

theorem engineLabel_ne_of_refused {p : Bytes} (h : Regex.Automaton.read? p = none) :
    engineLabel p ≠ Bytes.ofString "RE2" := by
  rw [engineLabel]
  cases hm : Matcher.make p .auto with
  | error e =>
    dsimp only
    decide
  | ok m =>
    dsimp only
    rw [engine_of_refused h hm]
    decide

/-- A source with a reference that can only be one is not run by the automaton engine. -/
theorem engineLabels_of_refersBack {source : Bytes} {tree : Element} {a : Analysis} (htree : parse source = .ok tree)
    (ha : run source = .ok a) (hrefers : Piece.refersBack (pieces tree.normalize)) :
    a.hasBackrefs ∧ a.engineLabels ≠ [Bytes.ofString "RE2"] ∧
      ∀ m, Matcher.make a.pattern .auto = .ok m → m.engine = .backtracking := by
  obtain ⟨p, hp, rfl⟩ := exists_of_run htree ha
  have hrenders := renders_pieces hp
  have hrefused : Regex.Automaton.read? p = none := by
    cases hread : Regex.Automaton.read? p with
    | none => rfl
    | some r =>
      have hunreferring := Regex.Automaton.unreferring_of_read? hread
      rw [← hrenders.textAll_eq] at hunreferring
      rw [Piece.refersBack_eq_false hrenders.sound hunreferring] at hrefers
      contradiction
  refine ⟨?_, ?_, fun m => engine_of_refused hrefused⟩
  . obtain ⟨index, hindex⟩ := Piece.exists_reference_of_refersBack hrefers
    exact decide_eq_true (countWhere_pos_of_reference hindex)
  . intro hlabels
    exact engineLabel_ne_of_refused hrefused (List.head_eq_of_cons_eq hlabels)

def referringTree : Element :=
  command rootName [command "group" [literal "a"], command "refer" [command "12" []], literal "b",
    command "refer" [command "2" []], literal "c"]

theorem engineLabels_of_refersBack_mixed :
    let a := ofTree referringTree.normalize "(a)\\12b\\2c"
    parse "(group 'a') (refer 12) 'b' (refer 2) 'c'" = .ok referringTree ∧
      run "(group 'a') (refer 12) 'b' (refer 2) 'c'" = .ok a ∧ Piece.refersBack (pieces referringTree.normalize) ∧
      a.hasBackrefs ∧ a.engineLabels ≠ [Bytes.ofString "RE2"] ∧
        ∀ m, Matcher.make a.pattern .auto = .ok m → m.engine = .backtracking := by
  intro a
  have htree : parse "(group 'a') (refer 12) 'b' (refer 2) 'c'" = .ok referringTree := by decide +kernel
  have ha : run "(group 'a') (refer 12) 'b' (refer 2) 'c'" = .ok a := run_of_emit htree (by decide +kernel)
  have hrefers : Piece.refersBack (pieces referringTree.normalize) := by decide +kernel
  exact ⟨htree, ha, hrefers, engineLabels_of_refersBack htree ha hrefers⟩

def octalTree : Element := command rootName [command "group" [literal "a"], command "refer" [command "12" []]]

theorem engineLabels_of_octal :
    let a := ofTree octalTree.normalize "(a)\\12"
    run "(group 'a') (refer 12)" = .ok a ∧ a.hasBackrefs ∧ a.engineLabels = [Bytes.ofString "RE2"] := by
  intro a
  have htree : parse "(group 'a') (refer 12)" = .ok octalTree := by decide +kernel
  have hlabel : engineLabel "(a)\\12" = Bytes.ofString "RE2" := by cbv
  exact ⟨run_of_emit htree (by decide +kernel), by decide +kernel, congrArg (fun label => [label]) hlabel⟩

end Analysis

end VerboseExpr
