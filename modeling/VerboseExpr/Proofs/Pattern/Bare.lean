import Mathlib.Data.List.Forall2
import VerboseExpr.Proofs.Pattern.Normal
import VerboseExpr.Proofs.Pattern.Operands

/-!
Bare commands and commands in brackets. Main statement: a command that stands bare may be written in brackets
with the elements that it takes, wherever no bare command of a fixed arity stands before it. An open bare
command before it takes it along, and then the same holds one level below.
-/

namespace VerboseExpr

theorem Arity.taken_of_isOpen {a : Arity} (h : a.isOpen) (n : Nat) : a.taken n = n := by
  unfold taken
  rw [if_pos h]

namespace Pattern

open Element

/-- Two elements that no command can tell apart among its operands. -/
structure Interchangeable (e e' : Element) : Prop where
  value_eq : e.value = e'.value
  emit_eq : emit e = emit e'

theorem Interchangeable.refl (e : Element) : Interchangeable e e := ⟨rfl, rfl⟩

theorem forall₂_interchangeable_refl (es : List Element) : List.Forall₂ Interchangeable es es := by
  apply List.forall₂_same.2
  intro e _
  apply Interchangeable.refl

theorem emitAll_congr {es es' : List Element} (h : List.Forall₂ Interchangeable es es') (name : Bytes)
    (counts index : Nat) : emitAll name counts index es = emitAll name counts index es' := by
  induction h generalizing index with
  | nil => rfl
  | cons he _ ih =>
    rw [emitAll_cons, emitAll_cons, ih]
    unfold operand
    rw [he.value_eq, he.emit_eq]

theorem assemble_congr {es es' : List Element} (h : List.Forall₂ Interchangeable es es') (v : Bytes) :
    assemble v es = assemble v es' := by
  unfold assemble
  split
  . rfl
  . rw [h.length_eq, emitAll_congr h]

theorem emit_congr {args args' : List Element} (h : List.Forall₂ Interchangeable (fold args) (fold args'))
    (k : Kind) (v : Bytes) : emit (.node k v args) = emit (.node k v args') := by
  by_cases hk : k = .literal
  . subst hk
    rw [emit_literal, emit_literal]
  . rw [emit_of_ne_literal hk, emit_of_ne_literal hk]
    apply assemble_congr h

section Bare

variable {name : Bytes} {c : Command} {pre taken rest : List Element}

theorem bareCommand?_command_nil (hname : Command.ofName? name = some c) (hmin : 1 ≤ c.arity.min) :
    (command name []).bareCommand? = some c := by
  have hne : ¬c.arity.min = 0 := by omega
  unfold bareCommand?
  simp [command, isCommand, kind, args, value, hname, hne]

/-- The elements that a bare command takes: all if its arity is open, else as many as it asks for. -/
def Takes (c : Command) (taken rest : List Element) : Prop :=
  if c.arity.isOpen then rest = [] else (taken.length : Int) = c.arity.max

instance (c : Command) (taken rest : List Element) : Decidable (Takes c taken rest) :=
  inferInstanceAs (Decidable (if c.arity.isOpen then rest = [] else (taken.length : Int) = c.arity.max))

theorem Takes.taken_eq (h : Takes c taken rest) : c.arity.taken (taken ++ rest).length = taken.length := by
  unfold Takes at h
  split at h
  . next hopen => rw [Arity.taken_of_isOpen hopen, h, List.append_nil]
  . next hclosed =>
    unfold Arity.taken
    rw [if_neg hclosed, ← h, List.length_append]
    apply Nat.min_eq_left
    omega

theorem fold_bare (hbare : (command name []).bareCommand? = some c) (h : Takes c taken rest) :
    fold (command name [] :: (taken ++ rest)) = command name taken :: fold rest := by
  rw [fold, hbare]
  dsimp only
  rw [h.taken_eq, List.take_left, List.drop_left]
  rfl

theorem fold_bare_eq_fold_applied (hbare : (command name []).bareCommand? = some c) (h : Takes c taken rest) :
    fold (command name [] :: (taken ++ rest)) = fold (command name taken :: rest) := by
  cases taken with
  | nil =>
    -- nothing is taken where nothing follows
    unfold Takes at h
    split at h
    . rw [h, List.append_nil]
    . next hclosed =>
      have hpos := Command.taken_pos (bareCommand?_eq_some hbare).2.2 Nat.one_pos
      unfold Arity.taken at hpos
      rw [if_neg hclosed, ← h] at hpos
      simp at hpos
  | cons e taken =>
    have happlied : (command name (e :: taken)).bareCommand? = none := by
      apply bareCommand?_of_args_ne_nil
      simp [command, args]
    rw [fold_bare hbare h]
    symm
    rw [fold, happlied]

theorem forall₂_fold_bare (hbare : (command name []).bareCommand? = some c) (h : Takes c taken rest)
    (hpre : ∀ e ∈ pre, ∀ d, e.bareCommand? = some d → d.arity.isOpen) :
    List.Forall₂ Interchangeable (fold (pre ++ command name [] :: (taken ++ rest)))
      (fold (pre ++ command name taken :: rest)) := by
  induction pre with
  | nil =>
    rw [List.nil_append, List.nil_append, fold_bare_eq_fold_applied hbare h]
    apply forall₂_interchangeable_refl
  | cons e pre ih =>
    have hoperands := ih fun x hx => hpre x (List.mem_cons_of_mem e hx)
    rw [List.cons_append, List.cons_append, fold, fold]
    cases hd : e.bareCommand? with
    | none => exact .cons (.refl e) hoperands
    | some d =>
      -- everything goes below the command that stands first
      have hopen := hpre e List.mem_cons_self d hd
      dsimp only
      rw [Arity.taken_of_isOpen hopen, Arity.taken_of_isOpen hopen, List.take_length, List.take_length,
        List.drop_length, List.drop_length]
      apply List.Forall₂.cons
      . exact ⟨rfl, emit_congr hoperands .command e.value⟩
      . apply forall₂_interchangeable_refl

/-- A bare command has the same outcome as the command in brackets with the elements it takes, if the bare
commands before it are open. -/
theorem emit_bare (k : Kind) (p : Bytes) (hname : Command.ofName? name = some c) (hmin : 1 ≤ c.arity.min)
    (htakes : Takes c taken rest) (hpre : ∀ e ∈ pre, ∀ d, e.bareCommand? = some d → d.arity.isOpen) :
    emit (.node k p (pre ++ command name [] :: (taken ++ rest))) =
      emit (.node k p (pre ++ command name taken :: rest)) := by
  apply emit_congr
  apply forall₂_fold_bare _ htakes hpre
  apply bareCommand?_command_nil hname hmin

def boundsTaken : List Element := [literal "a", literal "z"]

def beforeBounds : List Element := [literal "x", command "+" []]

def afterBounds : List Element := [command "times" [], command "2" [], literal "y"]

theorem emit_bare_range :
    Command.ofName? "range" = some .range ∧ 1 ≤ Command.range.arity.min ∧ Takes .range boundsTaken afterBounds ∧
      (∀ e ∈ beforeBounds, ∀ d, e.bareCommand? = some d → d.arity.isOpen) ∧
      emit (command "match" (beforeBounds ++ command "range" boundsTaken :: afterBounds)) =
        .ok "x(?:[a-z](?:y)\x7b2\x7d)+" ∧
      emit (command "match" (beforeBounds ++ command "range" [] :: (boundsTaken ++ afterBounds))) =
        emit (command "match" (beforeBounds ++ command "range" boundsTaken :: afterBounds)) := by
  have hname : Command.ofName? "range" = some .range := by decide +kernel
  have htakes : Takes .range boundsTaken afterBounds := by decide +kernel
  have hpre : ∀ e ∈ beforeBounds, ∀ d, e.bareCommand? = some d → d.arity.isOpen := by
    have hany : ∀ e ∈ beforeBounds, e.bareCommand?.all (·.arity.isOpen) := by decide +kernel
    intro e he d hd
    simpa [hd] using hany e he
  exact ⟨hname, by decide, htakes, hpre, by decide +kernel,
    emit_bare .command "match" hname (by decide) htakes hpre⟩

end Bare

end Pattern

end VerboseExpr
