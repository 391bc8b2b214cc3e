import VerboseExpr.Proofs.Element.Blank
import VerboseExpr.Proofs.Element.Brackets
import VerboseExpr.Proofs.Pattern.WellBracketed

/-!
What a pattern owes to the structure of its tree. The skeleton of a pattern are its special bytes without the
escaped ones. Main statement: the texts of literals leave no trace in it, and its brackets are matched.
-/

namespace VerboseExpr.Pattern

open Element

/-- The special bytes of a pattern, each backslash being taken out with the byte after it. There is none if the
last backslash has no byte after it. -/
def skeleton? : Bytes → Option Bytes
  | [] => some []
  | b :: rest =>
    if b = 0x5C then
      match rest with
      | [] => none
      | _ :: more => skeleton? more
    else if isSpecial b then (skeleton? rest).map (b :: ·)
    else skeleton? rest

section Skeleton

variable {u w : Bytes}

theorem skeleton?_escape (b : UInt8) (k : Bytes) : skeleton? (0x5C :: b :: k) = skeleton? k := by
  rw [skeleton?, if_pos rfl]

theorem skeleton?_special {b : UInt8} (hb : isSpecial b) (hne : b ≠ 0x5C) (k : Bytes) :
    skeleton? (b :: k) = (skeleton? k).map (b :: ·) := by
  rw [skeleton?.eq_def]
  simp only [hne, if_false, hb, if_true]

theorem skeleton?_ordinary {b : UInt8} (hb : isSpecial b = false) (k : Bytes) : skeleton? (b :: k) = skeleton? k := by
  have hne : b ≠ 0x5C := by
    rintro rfl
    contradiction
  rw [skeleton?.eq_def]
  simp only [hne, if_false, hb, Bool.false_eq_true]

theorem skeleton?_append (h : skeleton? u = some w) (k : Bytes) :
    skeleton? (u ++ k) = (skeleton? k).map (w ++ ·) := by
  fun_induction skeleton? u generalizing w with
  | case1 =>
    obtain rfl := Option.some.inj h
    simp
  | case2 => contradiction
  | case3 b more ih => exact (skeleton?_escape b (more ++ k)).trans (ih h)
  | case4 b rest hne hb ih =>
    obtain ⟨v, hv, rfl⟩ := Option.map_eq_some_iff.1 h
    rw [List.cons_append, skeleton?_special hb hne, ih hv, Option.map_map]
    rfl
  | case5 b rest hne hb ih =>
    rw [List.cons_append, skeleton?_ordinary (by simpa using hb), ih h]

theorem filter_isBracket_cons {b : UInt8} (hb : isPlainByte b) (w : Bytes) :
    (b :: w).filter Token.isBracket = w.filter Token.isBracket := by
  apply List.filter_cons_of_neg
  intro hbracket
  have hplain : ∀ c, Token.isBracket c → isPlainByte c = false := by
    intro c hc
    simp only [Token.isBracket, Bool.or_eq_true, beq_iff_eq] at hc
    obtain ((rfl | rfl) | rfl) | rfl := hc <;> rfl
  rw [hplain b hbracket] at hb
  contradiction

theorem WellBracketed.exists_skeleton {g : Bool} {p : Bytes} (h : WellBracketed g p) :
    ∃ w, skeleton? p = some w ∧ Dyck (w.filter Token.isBracket) := by
  -- only special bytes are kept, and an escape loses both of its bytes
  induction h with
  | nil => exact ⟨[], rfl, Dyck.nil⟩
  | @plain g b k hb _ ih =>
    obtain ⟨w, hw, hdyck⟩ := ih
    by_cases hspecial : isSpecial b
    . have hne : b ≠ 0x5C := by
        rintro rfl
        contradiction
      exact ⟨b :: w, by rw [skeleton?_special hspecial hne, hw]; rfl, by rwa [filter_isBracket_cons hb]⟩
    . exact ⟨w, by rw [skeleton?_ordinary (by simpa using hspecial), hw], hdyck⟩
  | escape _ _ ih =>
    obtain ⟨w, hw, hdyck⟩ := ih
    exact ⟨w, by rw [skeleton?_escape, hw], hdyck⟩
  | bar _ ih =>
    obtain ⟨w, hw, hdyck⟩ := ih
    exact ⟨0x7C :: w, by rw [skeleton?_special (by decide) (by decide), hw]; rfl, hdyck⟩
  | round _ _ ihu ihk =>
    obtain ⟨v, hv, hdycku⟩ := ihu
    obtain ⟨w, hw, hdyckk⟩ := ihk
    refine ⟨0x28 :: v ++ 0x29 :: w, ?_, ?_⟩
    . rw [List.cons_append, skeleton?_special (by decide) (by decide), skeleton?_append hv,
        skeleton?_special (by decide) (by decide), hw]
      rfl
    . rw [List.filter_append]
      exact Dyck.round hdycku hdyckk
  | square _ _ _ ihu ihk =>
    obtain ⟨v, hv, hdycku⟩ := ihu
    obtain ⟨w, hw, hdyckk⟩ := ihk
    refine ⟨0x5B :: v ++ 0x5D :: w, ?_, ?_⟩
    . rw [List.cons_append, skeleton?_special (by decide) (by decide), skeleton?_append hv,
        skeleton?_special (by decide) (by decide), hw]
      rfl
    . rw [List.filter_append]
      exact Dyck.square hdycku hdyckk

end Skeleton

def Alike (p q : Bytes) : Prop := ∃ w, skeleton? p = some w ∧ skeleton? q = some w

namespace Alike

variable {p q p' q' : Bytes} {parts parts' : List Bytes}

theorem nil : Alike [] [] := ⟨[], rfl, rfl⟩

theorem of_wellBracketed {g : Bool} (h : WellBracketed g p) : Alike p p := by
  obtain ⟨w, hw, -⟩ := h.exists_skeleton
  exact ⟨w, hw, hw⟩

theorem append (h : Alike p q) (h' : Alike p' q') : Alike (p ++ p') (q ++ q') := by
  obtain ⟨w, hp, hq⟩ := h
  obtain ⟨w', hp', hq'⟩ := h'
  exact ⟨w ++ w', by rw [skeleton?_append hp, hp']; rfl, by rw [skeleton?_append hq, hq']; rfl⟩

theorem of_not_mem (h : 0x5C ∉ p) : Alike p p := by
  induction p with
  | nil => exact nil
  | cons b p ih =>
    rw [List.mem_cons, not_or] at h
    obtain ⟨w, hw, -⟩ := ih h.2
    by_cases hb : isSpecial b
    . have hskeleton : skeleton? (b :: p) = some (b :: w) := by
        rw [skeleton?_special hb (Ne.symm h.1), hw]
        rfl
      exact ⟨b :: w, hskeleton, hskeleton⟩
    . have hskeleton : skeleton? (b :: p) = some w := by rw [skeleton?_ordinary (by simpa using hb), hw]
      exact ⟨w, hskeleton, hskeleton⟩

theorem flatten (h : List.Forall₂ Alike parts parts') : Alike parts.flatten parts'.flatten := by
  induction h with
  | nil => exact nil
  | cons hfirst _ ih => exact hfirst.append ih

theorem wrap {before after : String} (hbefore : 0x5C ∉ Bytes.ofString before) (hafter : 0x5C ∉ Bytes.ofString after)
    (h : List.Forall₂ Alike parts parts') :
    Alike (Command.wrap before after parts) (Command.wrap before after parts') :=
  ((of_not_mem hbefore).append (flatten h)).append (of_not_mem hafter)

theorem join (h : List.Forall₂ Alike parts parts') :
    Alike (Bytes.join (Bytes.ofString "|") parts) (Bytes.join (Bytes.ofString "|") parts') := by
  induction h with
  | nil => exact nil
  | cons hfirst hrest ih =>
    cases hrest with
    | nil => exact hfirst
    | cons hsecond hmore =>
      rw [Bytes.join_cons_cons, Bytes.join_cons_cons]
      exact hfirst.append ((of_not_mem (by decide)).append ih)

end Alike

theorem skeleton?_of_isInteger {n : Bytes} (h : ∀ b ∈ n, 0x30 ≤ b.toNat ∧ b.toNat ≤ 0x39) : skeleton? n = some [] := by
  induction n with
  | nil => rfl
  | cons b n ih =>
    rw [List.forall_mem_cons] at h
    have hspecial : ∀ c ∈ specialBytes, ¬(0x30 ≤ c.toNat ∧ c.toNat ≤ 0x39) := by decide +kernel
    have hb : isSpecial b = false := by
      rw [← Bool.not_eq_true, isSpecial, List.contains_iff_mem]
      exact fun hmem => hspecial b hmem h.1
    rw [skeleton?_ordinary hb, ih h.2]

theorem skeleton?_literal (v : Bytes) : skeleton? (escape v) = some [] := by
  induction v with
  | nil =>
    rw [escape_nil]
    rfl
  | cons b v ih =>
    rw [escape_cons]
    split
    . exact (skeleton?_escape b _).trans ih
    . next hb => exact (skeleton?_ordinary (by simpa using hb) _).trans ih

theorem Alike.reference {n n' : Bytes} (h : isInteger n) (h' : isInteger n') :
    Alike (Bytes.ofString "\\" ++ n) (Bytes.ofString "\\" ++ n') := by
  have hskeleton : ∀ m, isInteger m → skeleton? (0x5C :: m) = some [] := by
    intro m hm
    obtain ⟨hne, hdigits⟩ := (isInteger_iff m).1 hm
    cases m with
    | nil => contradiction
    | cons b m =>
      rw [skeleton?_escape]
      exact skeleton?_of_isInteger (List.forall_mem_cons.1 hdigits).2
  exact ⟨[], hskeleton n h, hskeleton n' h'⟩

section Runs

/-- Two computations fail with the same fault or give results that are related. -/
inductive Agree {α : Type} (R : α → α → Prop) : Except Fault α → Except Fault α → Prop where
  | ok {a b : α} : R a b → Agree R (.ok a) (.ok b)
  | error (f : Fault) : Agree R (.error f) (.error f)

theorem rel_render {c : Command} {called : Bytes} {parts parts' : List Bytes} (hcalled : called ∈ c.names)
    (hcounts : ∀ q ∈ parts.take c.counts, isInteger q) (hcounts' : ∀ q ∈ parts'.take c.counts, isInteger q)
    (h : List.Forall₂ Alike parts parts') : Option.Rel Alike (c.render called parts) (c.render called parts') := by
  cases c with
  | control => exact .some (.of_wellBracketed (g := false) (.of_control hcalled))
  | anyCharacter | start | finish | concatenation | except | group | oneOrMore | optional | zeroOrMore =>
    exact .some (.wrap (by decide) (by decide) h)
  | alternation => exact .some (.wrap (by decide) (by decide) (.cons (.join h) .nil))
  | range =>
    cases h with
    | nil => exact .none
    | cons hlo h =>
      cases h with
      | nil => exact .none
      | cons hhi h =>
        have hopen : Alike (Bytes.ofString "[") (Bytes.ofString "[") := .of_not_mem (by decide)
        have hdash : Alike (Bytes.ofString "-") (Bytes.ofString "-") := .of_not_mem (by decide)
        exact .some ((((hopen.append hlo).append hdash).append hhi).append (.of_not_mem (by decide)))
  | reference =>
    cases h with
    | nil => exact .none
    | cons _ h =>
      exact .some (.reference (hcounts _ (by simp [Command.counts])) (hcounts' _ (by simp [Command.counts])))
  | times | minTimes =>
    cases h with
    | nil => exact .none
    | cons hn h =>
      exact .some (((Alike.wrap (by decide) (by decide) h).append hn).append (.of_not_mem (by decide)))
  | minMaxTimes =>
    cases h with
    | nil => exact .none
    | cons hn h =>
      cases h with
      | nil => exact .none
      | cons hm h =>
        have hcomma : Alike (Bytes.ofString ",") (Bytes.ofString ",") := .of_not_mem (by decide)
        have hbrace : Alike (Bytes.ofString "\x7d") (Bytes.ofString "\x7d") := .of_not_mem (by decide)
        exact .some (((((Alike.wrap (by decide) (by decide) h).append hn).append hcomma).append hm).append hbrace)

theorem Agree.bind {α β : Type} {R : α → α → Prop} {S : β → β → Prop} {x x' : Except Fault α}
    {f f' : α → Except Fault β} (hx : Agree R x x')
    (hf : ∀ a a', x = .ok a → x' = .ok a' → R a a' → Agree S (f a) (f' a')) : Agree S (x.bind f) (x'.bind f') := by
  cases hx with
  | ok h => exact hf _ _ rfl rfl h
  | error f => exact .error f

theorem Agree.map_cons {p p' : Bytes} {y y' : Except Fault (List Bytes)} (hp : Alike p p')
    (hy : Agree (List.Forall₂ Alike) y y') : Agree (List.Forall₂ Alike) (y.map (p :: ·)) (y'.map (p' :: ·)) := by
  cases hy with
  | ok h => exact .ok (.cons hp h)
  | error f => exact .error f

theorem agree_count (index : Nat) (name value : Bytes) :
    Agree Alike (count index name value) (count index name value) := by
  rw [count]
  split
  . next hinteger =>
    have hskeleton := skeleton?_of_isInteger ((isInteger_iff value).1 hinteger).2
    exact .ok ⟨[], hskeleton, hskeleton⟩
  . exact .error _

theorem agree_emitAll {name : Bytes} {counts index : Nat} {es es' : List Element}
    (ih : ∀ e ∈ es, ∀ e', SameButTexts e e' → Agree Alike (emit e) (emit e'))
    (h : SameOperands (counts - index) es es') :
    Agree (List.Forall₂ Alike) (emitAll name counts index es) (emitAll name counts index es') := by
  generalize hleft : counts - index = left at h
  induction h generalizing index with
  | nil =>
    rw [emitAll]
    exact .ok .nil
  | count hvalue _ ihrest =>
    rw [List.forall_mem_cons] at ih
    rw [emitAll_cons, emitAll_cons, operand, operand, if_pos (by omega), if_pos (by omega), hvalue]
    exact (agree_count index name _).bind fun _ _ _ _ hpart => .map_cons hpart (ihrest ih.2 (by omega))
  | operand hsame _ ihrest =>
    rw [List.forall_mem_cons] at ih
    rw [emitAll_cons, emitAll_cons, operand_of_le (by omega), operand_of_le (by omega)]
    exact (ih.1 _ hsame).bind fun _ _ _ _ hpart => .map_cons hpart (ihrest ih.2 (by omega))

theorem agree_assemble {v : Bytes} {es es' : List Element}
    (ih : ∀ e ∈ es, ∀ e', SameButTexts e e' → Agree Alike (emit e) (emit e'))
    (h : SameOperands ((Command.ofName? v).elim 0 (·.counts)) es es') :
    Agree Alike (assemble v es) (assemble v es') := by
  rw [assemble, assemble, h.length_eq]
  cases hc : Command.ofName? v with
  | none => exact .error _
  | some c =>
    rw [hc] at h
    dsimp only
    split
    . apply (agree_emitAll ih h).bind
      intro parts parts' hparts hparts' halike
      have hcounts := (emitAll_forall (P := fun _ => True) (fun _ _ _ _ => trivial) hparts).1
      have hcounts' := (emitAll_forall (P := fun _ => True) (fun _ _ _ _ => trivial) hparts').1
      have hrender := rel_render (mem_names_of_ofName? hc) hcounts hcounts' halike
      generalize c.render v parts = r at hrender ⊢
      generalize c.render v parts' = r' at hrender ⊢
      cases hrender with
      | some hp => exact .ok hp
      | none => exact .error _
    . exact .error _

theorem agree_emit {e e' : Element} (h : SameButTexts e e') : Agree Alike (emit e) (emit e') := by
  induction e using foldInduction generalizing e' with
  | literal v args =>
    obtain ⟨v', args', rfl⟩ := h.exists_literal
    rw [emit_literal, emit_literal]
    exact .ok ⟨[], skeleton?_literal v, skeleton?_literal v'⟩
  | operands k v args hk ih =>
    obtain ⟨args', rfl, hoperands⟩ := h.exists_operands hk
    rw [emit_of_ne_literal hk, emit_of_ne_literal hk]
    exact agree_assemble (fun e he e' => ih e he) hoperands

end Runs

/-- The texts of literals cannot change the structure of a pattern: trees that differ in nothing else both have
patterns or both have none, and their patterns have the same skeleton. Every pattern has a skeleton, and the
brackets in it are matched. -/
theorem skeleton_emit (e : Element) :
    (∀ e', SameButTexts e e' →
      ((∃ p, emit e = .ok p) ↔ ∃ p', emit e' = .ok p') ∧
        ∀ p p', emit e = .ok p → emit e' = .ok p' → skeleton? p = skeleton? p') ∧
      ∀ p, emit e = .ok p → ∃ w, skeleton? p = some w ∧ Dyck (w.filter Token.isBracket) := by
  refine ⟨?_, fun p hp => (wellBracketed_of_emit hp).exists_skeleton⟩
  intro e' h
  have hagree := agree_emit h
  generalize emit e = x at hagree
  generalize emit e' = x' at hagree
  cases hagree with
  | error f => simp
  | @ok p p' halike =>
    obtain ⟨w, hp, hp'⟩ := halike
    refine ⟨by simp, ?_⟩
    rintro q q' ⟨⟩ ⟨⟩
    rw [hp, hp']

def twiceTree (a b : Bytes) : Element :=
  command rootName [command "times" [], literal "2", literal a, command "except" [literal b]]

theorem skeleton_emit_texts :
    SameButTexts (twiceTree "a)" "b") (twiceTree "((" "]") ∧
      emit (twiceTree "a)" "b") = .ok "(?:a\\)[^b])\x7b2\x7d" ∧
      emit (twiceTree "((" "]") = .ok "(?:\\(\\([^\\]])\x7b2\x7d" ∧
      skeleton? "(?:a\\)[^b])\x7b2\x7d" = skeleton? "(?:\\(\\([^\\]])\x7b2\x7d" := by
  have h : SameButTexts (twiceTree "a)" "b") (twiceTree "((" "]") := ⟨by decide +kernel, by decide +kernel⟩
  have he : emit (twiceTree "a)" "b") = .ok "(?:a\\)[^b])\x7b2\x7d" := by decide +kernel
  have he' : emit (twiceTree "((" "]") = .ok "(?:\\(\\([^\\]])\x7b2\x7d" := by decide +kernel
  exact ⟨h, he, he', ((skeleton_emit _).1 _ h).2 _ _ he he'⟩

end VerboseExpr.Pattern
