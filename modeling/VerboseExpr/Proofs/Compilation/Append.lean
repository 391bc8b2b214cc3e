import VerboseExpr.Proofs.Compilation.Faults
import VerboseExpr.Proofs.Element.Relocation

/-!
Compiling two sources one after another. Every stage can be split where the second source begins: the tokens
of the first are complete, so are its groups, and no bare command of the first reaches into the second.
Main statement: if the first source compiles, then the pattern is that of the first followed by that of the
second, and a fault is that of the second, moved to where it stands now.
-/

namespace VerboseExpr

namespace Element

/-- Is the element a bare command that takes all elements after it? -/
def isBareOpen (e : Element) : Bool := e.bareCommand?.any (·.arity.isOpen)

end Element

section Fold

open Element Pattern

theorem length_fold_le (es : List Element) : (fold es).length ≤ es.length := by
  fun_induction fold es with
  | case1 => exact Nat.le_refl 0
  | case2 e rest _ ih =>
    rw [List.length_cons, List.length_cons]
    omega
  | case3 e rest c _ n ih =>
    rw [List.length_drop] at ih
    rw [List.length_cons, List.length_cons]
    omega

theorem Command.taken_eq {c : Command} (hclosed : c.arity.isOpen = false) {n : Nat}
    (h : c.arity.min ≤ n) : c.arity.taken n = c.arity.min.toNat := by
  have hmax : c.arity.max = c.arity.min := by
    cases c with
    | control | anyCharacter | start | finish | reference | range => rfl
    | _ => simp [Command.arity, Arity.isOpen, Arity.atLeast] at hclosed
  rw [Arity.taken, hclosed, hmax]
  exact Nat.min_eq_left (by omega)

theorem min_le_of_emit {v p : Bytes} {c : Command} {args : List Element} (hc : Command.ofName? v = some c)
    (h : emit (command v args) = .ok p) : c.arity.min ≤ args.length := by
  rw [command, emit_of_ne_literal (by decide), assemble, hc] at h
  dsimp only at h
  split at h
  . next haccepts =>
    rw [Arity.accepts, Bool.and_eq_true, decide_eq_true_eq] at haccepts
    have hlength := length_fold_le args
    omega
  . simp at h

theorem fold_append {es fs : List Element} (hopen : ∀ e ∈ es, isBareOpen e = false)
    (hemit : ∀ e ∈ fold es, ∃ p, emit e = .ok p) : fold (es ++ fs) = fold es ++ fold fs := by
  fun_induction fold es with
  | case1 => rfl
  | case2 e rest hbare ih =>
    have hrest := ih (fun x hx => hopen x (List.mem_cons_of_mem e hx))
      (fun x hx => hemit x (List.mem_cons_of_mem e hx))
    rw [List.cons_append, fold, hbare]
    dsimp only
    rw [hrest, List.cons_append]
  | case3 e rest c hbare n ih =>
    have hclosed : c.arity.isOpen = false := by
      have he := hopen e List.mem_cons_self
      rw [isBareOpen, hbare] at he
      exact he
    obtain ⟨p, hp⟩ := hemit _ List.mem_cons_self
    -- the command has its pattern, so it found all of its arguments among the first elements
    have hmin := min_le_of_emit (bareCommand?_eq_some hbare).2.1 hp
    have hle : c.arity.min ≤ rest.length := by
      rw [List.length_take] at hmin
      omega
    have hn : n = c.arity.min.toNat := Command.taken_eq hclosed hle
    have htaken : c.arity.taken (rest ++ fs).length = n := by
      rw [hn]
      apply Command.taken_eq hclosed
      rw [List.length_append]
      omega
    have hlength : n ≤ rest.length := by omega
    have hrest := ih (fun x hx => hopen x (List.mem_cons_of_mem e (List.mem_of_mem_drop hx)))
      (fun x hx => hemit x (List.mem_cons_of_mem _ hx))
    rw [List.cons_append, fold, hbare]
    dsimp only
    rw [htaken, List.take_append_of_le_length hlength, List.drop_append_of_le_length hlength]
    rw [hrest, List.cons_append]

end Fold

namespace Pattern

open Element

theorem emitAll_zero (name : Bytes) (index : Nat) (es : List Element) :
    emitAll name 0 index es = es.mapM emit := by
  induction es generalizing index with
  | nil =>
    rw [emitAll]
    rfl
  | cons e rest ih =>
    rw [emitAll_cons, operand_of_le (Nat.zero_le index), ih, List.mapM_cons]
    cases emit e with
    | error f => rfl
    | ok p => cases rest.mapM emit <;> rfl

theorem emit_root (es : List Element) :
    emit (command rootName es) = ((fold es).mapM emit).map List.flatten := by
  have hname : Command.ofName? rootName = some .concatenation := by decide +kernel
  have haccepts : Command.concatenation.arity.accepts (fold es).length := by
    simp [Command.arity, Arity.accepts, Arity.atLeast, Arity.isOpen]
  have hrender : ∀ parts, Command.concatenation.render rootName parts = some parts.flatten := by
    intro parts
    have hempty : Bytes.ofString "" = [] := rfl
    rw [Command.render, Command.wrap, hempty, List.nil_append, List.append_nil]
  rw [command, emit_of_ne_literal (by decide), assemble, hname]
  dsimp only
  have hcounts : Command.concatenation.counts = 0 := rfl
  rw [if_pos haccepts, hcounts, emitAll_zero]
  cases (fold es).mapM emit with
  | error f => rfl
  | ok parts =>
    simp only [bind, Except.bind, hrender]
    rfl

theorem exists_of_mapM {α β : Type} {k : α → Except Fault β} {xs : List α} {ys : List β}
    (h : xs.mapM k = .ok ys) : ∀ x ∈ xs, ∃ y, k x = .ok y := by
  induction xs generalizing ys with
  | nil => simp
  | cons x xs ih =>
    rw [List.mapM_cons] at h
    obtain ⟨y, hx, h⟩ := Except.bind_eq_ok_iff.1 h
    obtain ⟨more, hxs, -⟩ := Except.bind_eq_ok_iff.1 h
    exact List.forall_mem_cons.2 ⟨⟨y, hx⟩, ih hxs⟩

theorem emit_root_append {es : List Element} {p : Bytes} (hopen : ∀ e ∈ es, isBareOpen e = false)
    (h : emit (command rootName es) = .ok p) (fs : List Element) :
    emit (command rootName (es ++ fs)) = (emit (command rootName fs)).map (p ++ ·) := by
  rw [emit_root] at h
  cases hparts : (fold es).mapM emit with
  | error f =>
    rw [hparts] at h
    simp [Except.map] at h
  | ok parts =>
    obtain rfl : parts.flatten = p := by simpa [hparts, Except.map] using h
    rw [emit_root, emit_root, fold_append hopen (exists_of_mapM hparts), List.mapM_append, hparts]
    cases (fold fs).mapM emit with
    | error f => rfl
    | ok more => simp [bind, Except.bind, pure, Except.pure, Except.map]

theorem offset_of_emit {e : Element} {f : Fault} (h : emit e = .error f) : f.offset = -1 := by
  obtain ⟨stage, hstage, hf⟩ := emit_failsAt e f h
  rw [List.mem_singleton.1 hstage, Fault.isOf, Bool.and_eq_true] at hf
  simpa using hf.2

theorem relocate_of_emit {e : Element} {f : Fault} (h : emit e = .error f) (n : Nat) :
    f.relocate (later n) = f := by
  rw [Fault.relocate, offset_of_emit h, later_negOne, ← offset_of_emit h]

end Pattern

section Sources

open Element Pattern

theorem compile_eq_bind (source : Bytes) : compile source = (parse source).bind emit := by
  rw [compile, Compilation.run, parse]
  cases Token.read source with
  | error f => rfl
  | ok ts =>
    cases hrepresent : represent (seed ts) with
    | error f =>
      simp only [bind, Except.bind, hrepresent]
      rfl
    | ok tree =>
      simp only [bind, Except.bind, hrepresent]
      cases emit tree <;> rfl

theorem read_append {a w : Bytes} {ts : List Token} (hw : w ≠ []) (hblank : ∀ c ∈ w, Token.isBlank c)
    (h : Token.read a = .ok ts) (b : Bytes) :
    Token.read (a ++ w ++ b) =
      (((Token.read b).map (List.map (Token.relocate (later (a.length + w.length))))).mapError
        (Fault.relocate (later (a.length + w.length)))).map (ts ++ ·) := by
  have htiling := Token.tiling_of_read h
  obtain ⟨c, w', rfl⟩ := List.exists_cons_of_ne_nil hw
  have hfresh : ∀ t d, ts.getLast? = some t → ((c :: w') ++ b).head? = some d → Token.Continues t d →
      ∃ e, a.getLast? = some e ∧ Token.isBlank e := by
    rintro t d - ⟨⟩ hcontinues
    exact absurd hcontinues (Token.not_continues_of_isBlank (hblank c List.mem_cons_self))
  rw [Token.read, Token.read, List.append_assoc, htiling.readFrom_append hfresh]
  rw [Token.readFrom_blanks hblank]
  rw [← Token.readFrom_add, Nat.zero_add]
  congr 2
  omega

theorem exists_items_of_parse {source : Bytes} {tree : Element} (h : parse source = .ok tree) :
    ∃ ts es, Token.read source = .ok ts ∧ Items ts es ∧ tree = command rootName es := by
  obtain ⟨ts, hread, -⟩ := Except.bind_eq_ok_iff.1 h
  obtain ⟨es, hitems, htree⟩ := (parse_eq_ok_iff_items hread tree).1 h
  exact ⟨ts, es, hread, hitems, htree⟩

theorem parse_append {a w : Bytes} {tree : Element} (hw : w ≠ []) (hblank : ∀ c ∈ w, Token.isBlank c)
    (h : parse a = .ok tree) (b : Bytes) :
    parse (a ++ w ++ b) =
      ((parse b).map fun other => command rootName (tree.args ++ other.args)).mapError
        (Fault.relocate (later (a.length + w.length))) := by
  obtain ⟨ts, es, hread, hitems, rfl⟩ := exists_items_of_parse h
  rw [parse, read_append hw hblank hread, parse]
  cases Token.read b with
  | error f => rfl
  | ok us =>
    have hparse : ∀ vs, represent (seed vs) = (arguments vs).map (command rootName) :=
      fun vs => represent_cons (Token.synthetic rootName) vs
    simp only [Except.map, Except.mapError, bind, Except.bind, hparse]
    rw [hitems.arguments_append, arguments_relocate (later_negOne _)]
    cases arguments us <;> rfl

/-- If the first source compiles, and none of its commands takes whatever follows, then a blank and a second
source add the pattern of the second, or its fault at the place where it stands now. -/
theorem compile_append {a w p : Bytes} {tree : Element} (b : Bytes) (hw : w ≠ [])
    (hblank : ∀ c ∈ w, Token.isBlank c) (ha : compile a = .ok p) (htree : parse a = .ok tree)
    (hopen : ∀ e ∈ tree.args, isBareOpen e = false) :
    (∀ q, compile b = .ok q → compile (a ++ w ++ b) = .ok (p ++ q)) ∧
      ∀ f, compile b = .error f → compile (a ++ w ++ b) = .error
        { f with offset := if 0 ≤ f.offset then f.offset + (a.length + w.length : Nat) else f.offset } := by
  have hroot : tree = command rootName tree.args := by
    obtain ⟨ts, es, -, -, rfl⟩ := exists_items_of_parse htree
    rfl
  -- the root command of the first tree is emitted as a whole, and so gives its part when more is added to it
  have hemit : emit (command rootName tree.args) = .ok p := by
    rw [compile_eq_bind, htree] at ha
    rw [← hroot]
    exact ha
  rw [compile_eq_bind, compile_eq_bind, parse_append hw hblank htree]
  cases hb : parse b with
  | error f =>
    refine ⟨?_, ?_⟩
    . intro q hq
      simp [Except.bind] at hq
    . rintro g ⟨⟩
      rfl
  | ok other =>
    obtain ⟨us, fs, -, -, rfl⟩ := exists_items_of_parse hb
    simp only [Except.map, Except.mapError, Except.bind]
    have happend := emit_root_append hopen hemit fs
    refine ⟨?_, ?_⟩
    . intro q hq
      rw [hq] at happend
      exact happend
    . intro f hf
      rw [hf, ← relocate_of_emit hf (a.length + w.length)] at happend
      exact happend

def anchoredRange : Element :=
  command rootName [command "begin" [], command "range" [], literal "a", literal "z"]

theorem compile_append_range :
    Bytes.ofString " \n" ≠ [] ∧ (∀ c ∈ Bytes.ofString " \n", Token.isBlank c) ∧
      compile "begin range 'a' 'z'" = .ok "^[a-z]" ∧ parse "begin range 'a' 'z'" = .ok anchoredRange ∧
      (∀ e ∈ anchoredRange.args, isBareOpen e = false) ∧ compile "'x' )" = .error (mismatched ⟨[0x29], 4⟩) ∧
      compile (Bytes.ofString "begin range 'a' 'z'" ++ Bytes.ofString " \n" ++ Bytes.ofString "'x' )") =
        .error (mismatched ⟨[0x29], 25⟩) := by
  have hw : Bytes.ofString " \n" ≠ [] := by decide
  have hblank : ∀ c ∈ Bytes.ofString " \n", Token.isBlank c := List.all_eq_true.1 (by decide)
  have ha : compile "begin range 'a' 'z'" = .ok "^[a-z]" := by decide +kernel
  have htree : parse "begin range 'a' 'z'" = .ok anchoredRange := by decide +kernel
  have hopen : ∀ e ∈ anchoredRange.args, isBareOpen e = false := by decide +kernel
  have hb : compile "'x' )" = .error (mismatched ⟨[0x29], 4⟩) := by decide +kernel
  have happend := (compile_append "'x' )" hw hblank ha htree hopen).2 _ hb
  exact ⟨hw, hblank, ha, htree, hopen, hb, happend⟩

end Sources

end VerboseExpr
