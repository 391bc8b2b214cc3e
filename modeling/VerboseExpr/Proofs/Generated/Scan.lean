import VerboseExpr.Generated.SourceFile
import VerboseExpr.Proofs.Text.Quoted

/-!
Go text read line by line, as far as generated files need it. A scan passes over the comments and tells the quoted
texts from the code around them by the rules of the language alone: it knows nothing of what the files declare.
A constant, a table of cases or the argument of a call is then found by the code around its texts.
-/

namespace VerboseExpr

theorem Quoted.length_of_decodeBody {b t k : Bytes} (h : decodeBody b = some (t, k)) : k.length < b.length := by
  -- After an escape the rest is read on, and what it gives is only added to.
  have hadd : ∀ {w : Bytes} {f : Bytes → Bytes} {t : Bytes},
      ((decodeBody w).bind fun x => some (f x.1, x.2)) = some (t, k) → ∃ t, decodeBody w = some (t, k) := by
    intro w f t h
    obtain ⟨⟨t', k'⟩, hrest, heq⟩ := Option.bind_eq_some_iff.mp h
    cases heq
    exact ⟨t', hrest⟩
  fun_induction decodeBody b generalizing t with
  | case1 | case3 | case5 => contradiction
  | case2 rest =>
    cases h
    simp
  | case4 b rest _ _ _ ih =>
    obtain ⟨⟨t', k'⟩, hrest, heq⟩ := Option.map_eq_some_iff.mp h
    cases heq
    have hlt := ih hrest
    rw [List.length_cons]
    omega
  | case6 b _ _ _ more ih | case8 b _ _ _ e more _ _ _ ih | case9 b _ _ _ e more _ _ _ ih =>
    obtain ⟨n, -, h⟩ := Option.bind_eq_some_iff.mp h
    obtain ⟨t', hrest⟩ := hadd h
    have hlt := ih hrest
    simp only [List.length_drop, List.length_cons] at hlt ⊢
    omega
  | case7 b _ _ _ e more =>
    rename_i ih
    obtain ⟨n, -, h⟩ := Option.bind_eq_some_iff.mp h
    split at h
    . obtain ⟨t', hrest⟩ := hadd h
      have hlt := ih hrest
      simp only [List.length_drop, List.length_cons] at hlt ⊢
      omega
    . contradiction

namespace Generated

/-- A line of code: its quoted texts, each with the code before it, and the code after the last. -/
structure Line where
  texts : List (Bytes × Bytes)
  code : Bytes
  deriving DecidableEq, Repr

namespace Line

def prepend (w : Bytes) : Line → Line
  | ⟨[], code⟩ => ⟨[], w ++ code⟩
  | ⟨(v, t) :: texts, code⟩ => ⟨(w ++ v, t) :: texts, code⟩

def quote (t : Bytes) (l : Line) : Line := ⟨([], t) :: l.texts, l.code⟩

@[simp]
theorem prepend_nil (l : Line) : l.prepend [] = l := by
  obtain ⟨_ | ⟨⟨v, t⟩, texts⟩, code⟩ := l <;> rfl

theorem prepend_prepend (v w : Bytes) (l : Line) : (l.prepend w).prepend v = l.prepend (v ++ w) := by
  obtain ⟨_ | ⟨⟨u, t⟩, texts⟩, code⟩ := l <;> simp [prepend]

@[simp]
theorem prepend_code (v w : Bytes) : prepend v ⟨[], w⟩ = ⟨[], v ++ w⟩ := rfl

@[simp]
theorem prepend_quote (w t : Bytes) (l : Line) : (l.quote t).prepend w = ⟨(w, t) :: l.texts, l.code⟩ := by
  simp [quote, prepend]

end Line

/-- The lines of a text. Single quotes, back quotes and a slash that begins no comment on one line are not read. -/
def lines? (inComment : Bool) : Bytes → Option (List Line)
  | [] => some [⟨[], []⟩]
  | b :: rest =>
    if b = 0x0A then (lines? false rest).map (⟨[], []⟩ :: ·)
    else if inComment then lines? true rest
    else if b = 0x22 then
      match h : Quoted.decodeBody rest with
      | none => none
      | some (t, more) =>
        have := Quoted.length_of_decodeBody h
        (lines? false more).map (List.modifyHead (Line.quote t))
    else if b = 0x2F then if rest.head? = some 0x2F then lines? true rest else none
    else if b = 0x27 ∨ b = 0x60 then none
    else (lines? false rest).map (List.modifyHead (Line.prepend [b]))
termination_by b => b.length
decreasing_by all_goals simp only [List.length_cons]; omega

/-- Does the byte stand for itself in code? -/
def IsCode (b : UInt8) : Prop := b ≠ 0x0A ∧ b ≠ 0x22 ∧ b ≠ 0x2F ∧ b ≠ 0x27 ∧ b ≠ 0x60

instance (b : UInt8) : Decidable (IsCode b) := inferInstanceAs (Decidable (_ ∧ _))

-- What holds of all bytes of a text is decided over the text, never over all the bytes there are.
instance (P : UInt8 → Prop) [DecidablePred P] (w : Bytes) : Decidable (∀ b ∈ w, P b) := List.decidableBAll P w

/-- The bytes are read as a part of a line, whatever follows them. -/
def Adds (w : Bytes) (f : Line → Line) : Prop :=
  ∀ k, lines? false (w ++ k) = (lines? false k).map (List.modifyHead f)

namespace Adds

theorem append {v w : Bytes} {f g : Line → Line} (hv : Adds v f) (hw : Adds w g) : Adds (v ++ w) (f ∘ g) := by
  intro k
  rw [List.append_assoc, hv, hw, Option.map_map]
  congr 1
  funext ls
  cases ls <;> rfl

theorem code {w : Bytes} (h : ∀ b ∈ w, IsCode b) : Adds w (Line.prepend w) := by
  induction w with
  | nil =>
    intro k
    have hid : List.modifyHead (Line.prepend []) = id := by
      funext ls
      cases ls <;> simp
    rw [hid, Option.map_id_fun]
    rfl
  | cons b w ih =>
    rw [List.forall_mem_cons] at h
    obtain ⟨⟨hbreak, hquote, hslash, hsingle, hback⟩, hw⟩ := h
    intro k
    rw [List.cons_append, lines?, if_neg hbreak, if_neg (by decide), if_neg hquote, if_neg hslash,
      if_neg (not_or.mpr ⟨hsingle, hback⟩), ih hw, Option.map_map]
    congr 1
    funext ls
    cases ls <;> simp [Line.prepend_prepend]

theorem literal {w t : Bytes} (h : Quoted.Spells w t) : Adds (0x22 :: (w ++ [0x22])) (Line.quote t) := by
  intro k
  have hclose : Quoted.decodeBody (0x22 :: k) = some ([], k) := by
    rw [Quoted.decodeBody.eq_def]
    rfl
  have hdecode : Quoted.decodeBody (w ++ [0x22] ++ k) = some (t, k) := by
    rw [List.append_assoc, h.decodes, List.singleton_append, hclose]
    simp
  rw [List.cons_append, lines?, if_neg (by decide), if_neg (by decide), if_pos rfl]
  split
  . next hnone =>
    rw [hdecode] at hnone
    contradiction
  . next t' more hsome =>
    rw [hdecode] at hsome
    cases hsome
    rfl

theorem text (t : Bytes) : Adds (Quoted.encode t) (Line.quote t) := by
  rw [Quoted.encode_eq]
  exact literal (Quoted.spells_body t)

end Adds

/-- The bytes are read as whole lines, whatever follows them. -/
def Spans (w : Bytes) (ls : List Line) : Prop := ∀ k, lines? false (w ++ k) = (lines? false k).map (ls ++ ·)

namespace Spans

theorem nil : Spans [] [] := by
  intro k
  simp

theorem append {v w : Bytes} {ls ms : List Line} (hv : Spans v ls) (hw : Spans w ms) : Spans (v ++ w) (ls ++ ms) := by
  intro k
  rw [List.append_assoc, hv, hw, Option.map_map]
  simp only [Function.comp_def, List.append_assoc]

theorem closed {w : Bytes} {f : Line → Line} (h : Adds w f) : Spans (w ++ [0x0A]) [f ⟨[], []⟩] := by
  intro k
  rw [List.append_assoc, h, List.singleton_append, lines?, if_pos rfl, Option.map_map]
  rfl

theorem lines?_comment {w : Bytes} (h : ∀ b ∈ w, b ≠ 0x0A) (k : Bytes) :
    lines? true (w ++ 0x0A :: k) = (lines? false k).map (⟨[], []⟩ :: ·) := by
  induction w with
  | nil => rw [List.nil_append, lines?, if_pos rfl]
  | cons b w ih =>
    rw [List.forall_mem_cons] at h
    rw [List.cons_append, lines?, if_neg h.1, if_pos rfl]
    exact ih h.2

theorem comment {w : Bytes} (h : ∀ b ∈ w, b ≠ 0x0A) : Spans (0x2F :: 0x2F :: w ++ [0x0A]) [⟨[], []⟩] := by
  intro k
  have hslash : ∀ b ∈ (0x2F :: w : Bytes), b ≠ 0x0A := List.forall_mem_cons.mpr ⟨by decide, h⟩
  have hread := lines?_comment hslash k
  rw [List.append_assoc, List.cons_append, List.singleton_append, lines?, if_neg (by decide), if_neg (by decide),
    if_neg (by decide), if_pos rfl, List.cons_append, List.head?_cons, if_pos rfl, ← List.cons_append, hread]
  rfl

theorem lines?_eq {w : Bytes} {ls : List Line} (h : Spans w ls) : lines? false w = some (ls ++ [⟨[], []⟩]) := by
  have hread := h []
  rwa [List.append_nil, lines?] at hread

end Spans

def SpansAll (P : Line → Prop) (w : Bytes) : Prop := ∃ ls, Spans w ls ∧ ∀ l ∈ ls, P l

theorem Spans.all {P : Line → Prop} {w : Bytes} {l : Line} (h : Spans w [l]) (hl : P l) : SpansAll P w :=
  ⟨[l], h, List.forall_mem_singleton.mpr hl⟩

theorem spansAll_flatten {P : Line → Prop} {ws : List Bytes} (h : ∀ w ∈ ws, SpansAll P w) : SpansAll P ws.flatten := by
  induction ws with
  | nil => exact ⟨[], .nil, by simp⟩
  | cons w ws ih =>
    rw [List.forall_mem_cons] at h
    obtain ⟨⟨ls, hls, hall⟩, hws⟩ := h
    obtain ⟨ms, hms, hmall⟩ := ih hws
    exact ⟨ls ++ ms, hls.append hms, List.forall_mem_append.mpr ⟨hall, hmall⟩⟩

abbrev Legible (w : Bytes) : Prop := SpansAll (fun _ => True) w

theorem Spans.legible {w : Bytes} {l : Line} (h : Spans w [l]) : Legible w := h.all trivial

namespace Line

/-- The only text of a line, if the given code stands around it. -/
def held? (before after : Bytes) (l : Line) : Option Bytes :=
  match l.texts with
  | [(w, t)] => if w = before ∧ l.code = after then some t else none
  | _ => none

@[simp]
theorem held?_code (before after w : Bytes) : held? before after ⟨[], w⟩ = none := rfl

@[simp]
theorem held?_text (before after v w t : Bytes) :
    held? before after ⟨[(v, t)], w⟩ = if v = before ∧ w = after then some t else none := rfl

/-- The rows that the texts of a table make. The code `opening` stands before the first. -/
def rows? (opening : Bytes) : List (Bytes × Bytes) → Option (List Case)
  | [] => some []
  | [_] => none
  | (o, input) :: (m, text) :: rest => do
    if o ≠ opening then none
    let found ←
      if m = Bytes.ofString ", true, " then some true
      else if m = Bytes.ofString ", false, " then some false
      else none
    return ⟨input, found, text⟩ :: (← rows? "\x7d, \x7b" rest)

/-- The rows of a table that stands on one line, after the type of its rows. -/
def table? (l : Line) : Option (List Case) :=
  if l.code = Bytes.ofString (if l.texts.isEmpty then "\t\x7d\x7b\x7d" else "\x7d\x7d") then
    rows? "\t\x7d\x7b\x7b" l.texts
  else none

end Line

def constantCode (name : Bytes) : Bytes := Bytes.ofString "const " ++ name ++ Bytes.ofString " = "

def constant? (name : Bytes) (ls : List Line) : Option Bytes := ls.findSome? (Line.held? (constantCode name) [])

/-- The code before the text that a function is called with on a line of its own. -/
def callCode (function : Bytes) : Bytes := Bytes.ofString "\t\t" ++ function ++ Bytes.ofString "("

def argument? (function : Bytes) (ls : List Line) : Option Bytes :=
  ls.findSome? (Line.held? (callCode function) ")")

def table? (ls : List Line) : Option (List Case) := ls.findSome? Line.table?

end Generated

end VerboseExpr
