import VerboseExpr.File.Tree
import Mathlib.Data.List.Basic
import VerboseExpr.Proofs.Except

namespace VerboseExpr.FileTree

section Entries

theorem lookup_filter_of_ne {α β : Type} [BEq α] [LawfulBEq α] {p q : α} (h : q ≠ p) (es : List (α × β)) :
    (es.filter (·.1 != p)).lookup q = es.lookup q := by
  induction es with
  | nil => rfl
  | cons e es ih =>
    by_cases hp : e.1 = p
    . have hq : (q == e.1) = false := by simpa [hp] using h
      rw [List.filter_cons_of_neg (by simp [hp]), ih, List.lookup_cons, hq]
    . rw [List.filter_cons_of_pos (by simp [hp]), List.lookup_cons, List.lookup_cons, ih]

variable {t : FileTree} {p q : TreePath}

theorem find?_of_ne_nil (hp : p ≠ []) : t.find? p = t.entries.lookup p := by
  cases p with
  | nil => contradiction
  | cons n ns => rfl

theorem find?_insert_self (hp : p ≠ []) (e : FileEntry) : (t.insert p e).find? p = some e := by
  rw [find?_of_ne_nil hp]
  simp [insert]

theorem find?_insert_of_ne (hq : q ≠ p) (e : FileEntry) : (t.insert p e).find? q = t.find? q := by
  cases q with
  | nil => rfl
  | cons n ns =>
    have hne : (n :: ns == p) = false := by simpa using hq
    simp only [find?, insert]
    rw [List.lookup_cons, hne, lookup_filter_of_ne hq]

end Entries

/-- The same directories, and the same one to begin in. -/
structure SameDirectories (t t' : FileTree) : Prop where
  workingDirectory : t'.workingDirectory = t.workingDirectory
  directory : ∀ p a, t'.find? p = some (.directory a) ↔ t.find? p = some (.directory a)

section Paths

def step (dir : TreePath) (a : Access) (name : Bytes) : Except FileError.Reason TreePath :=
  if !a.search then .error .permissionDenied
  else if name.isEmpty || name == Bytes.ofString "." then .ok dir
  else if name == Bytes.ofString ".." then .ok dir.dropLast
  else if maxName < name.length then .error .nameTooLong
  else .ok (dir ++ [name])

variable {t t' : FileTree} {dir q : TreePath} {a : Access} {name : Bytes} {rest : List Bytes}

theorem find?_of_follow_cons (h : t.follow dir (name :: rest) = .ok q) : ∃ a, t.find? dir = some (.directory a) := by
  rw [follow] at h
  split at h
  . contradiction
  . exact ⟨_, ‹_›⟩
  . contradiction

theorem follow_cons (h : t.find? dir = some (.directory a)) (name : Bytes) (rest : List Bytes) :
    t.follow dir (name :: rest) = (step dir a name).bind fun d => t.follow d rest := by
  rw [follow, h]
  unfold step
  dsimp only
  by_cases hsearch : !a.search
  . rw [if_pos hsearch, if_pos hsearch]
    rfl
  rw [if_neg hsearch, if_neg hsearch]
  by_cases hstay : name.isEmpty || name == Bytes.ofString "."
  . rw [if_pos hstay, if_pos hstay]
    rfl
  rw [if_neg hstay, if_neg hstay]
  by_cases hup : name == Bytes.ofString ".."
  . rw [if_pos hup, if_pos hup]
    rfl
  rw [if_neg hup, if_neg hup]
  split <;> rfl

theorem follow_singleton (h : t.follow dir [name] = .ok q) : ∃ a, step dir a name = .ok q := by
  obtain ⟨a, hdir⟩ := find?_of_follow_cons h
  rw [follow_cons hdir] at h
  obtain ⟨d, hstep, hd⟩ := Except.bind_eq_ok_iff.1 h
  rw [← Except.ok.inj hd]
  exact ⟨a, hstep⟩

theorem of_step (h : step dir a name = .ok q) : q = dir ∨ q = dir.dropLast ∨ q = dir ++ [name] := by
  unfold step at h
  split at h
  . contradiction
  split at h
  . exact .inl (Except.ok.inj h).symm
  split at h
  . exact .inr (.inl (Except.ok.inj h).symm)
  split at h
  . contradiction
  . exact .inr (.inr (Except.ok.inj h).symm)

theorem of_step_of_length (h : step dir a name = .ok q) (hname : 2 < name.length) : q = dir ++ [name] := by
  have hne : ∀ s : Bytes, s.length ≤ 2 → (name == s) = false := by
    intro s hs
    rw [beq_eq_false_iff_ne]
    rintro rfl
    omega
  have hempty : name.isEmpty = false := by
    cases name with
    | nil => simp at hname
    | cons b name => rfl
  unfold step at h
  rw [hne "." (by decide), hne ".." (by decide), hempty] at h
  simp only [Bool.or_self, Bool.false_eq_true, if_false] at h
  split at h
  . contradiction
  split at h
  . contradiction
  . exact (Except.ok.inj h).symm

theorem follow_append (t : FileTree) (dir : TreePath) (ns ms : List Bytes) :
    t.follow dir (ns ++ ms) = (t.follow dir ns).bind fun d => t.follow d ms := by
  induction ns generalizing dir with
  | nil => rfl
  | cons n ns ih =>
    cases hdir : t.find? dir with
    | none =>
      rw [List.cons_append, follow, follow, hdir]
      rfl
    | some e =>
      cases e with
      | directory a =>
        rw [List.cons_append, follow_cons hdir, follow_cons hdir]
        cases step dir a n with
        | error r => rfl
        | ok d => exact ih d
      | file | null =>
        rw [List.cons_append, follow, follow, hdir]
        rfl

namespace SameDirectories

theorem refl (t : FileTree) : SameDirectories t t := ⟨rfl, fun _ _ => Iff.rfl⟩

theorem symm (h : SameDirectories t t') : SameDirectories t' t :=
  ⟨h.workingDirectory.symm, fun p a => (h.directory p a).symm⟩

theorem trans {t'' : FileTree} (h : SameDirectories t t') (h' : SameDirectories t' t'') : SameDirectories t t'' :=
  ⟨h'.workingDirectory.trans h.workingDirectory, fun p a => (h'.directory p a).trans (h.directory p a)⟩

theorem follow_of_follow (h : SameDirectories t t') {ns : List Bytes} (hq : t.follow dir ns = .ok q) :
    t'.follow dir ns = .ok q := by
  induction ns generalizing dir with
  | nil => exact hq
  | cons n ns ih =>
    obtain ⟨a, hdir⟩ := find?_of_follow_cons hq
    rw [follow_cons hdir] at hq
    rw [follow_cons ((h.directory dir a).2 hdir)]
    obtain ⟨d, hstep, hd⟩ := Except.bind_eq_ok_iff.1 hq
    exact Except.bind_eq_ok_iff.2 ⟨d, hstep, ih hd⟩

theorem resolve_of_resolve (h : SameDirectories t t') {path : Bytes} (hq : t.resolve path = .ok q) :
    t'.resolve path = .ok q := by
  obtain ⟨u, hcheck, hfollow⟩ := Except.bind_eq_ok_iff.1 hq
  refine Except.bind_eq_ok_iff.2 ⟨u, hcheck, ?_⟩
  unfold origin at hfollow ⊢
  rw [h.workingDirectory]
  exact h.follow_of_follow hfollow

theorem resolve_iff (h : SameDirectories t t') (path : Bytes) (q : TreePath) :
    t'.resolve path = .ok q ↔ t.resolve path = .ok q :=
  ⟨h.symm.resolve_of_resolve, h.resolve_of_resolve⟩

theorem mayChangeDirectory_eq (h : SameDirectories t t') (p : TreePath) :
    t'.mayChangeDirectory p = t.mayChangeDirectory p := by
  have hwrite : ∀ {t : FileTree}, t.mayChangeDirectory p = true ↔
      ∃ a, t.find? p.dropLast = some (.directory a) ∧ a.write = true := by
    intro t
    unfold mayChangeDirectory
    split
    . next a hdir => simp [hdir]
    . next hdir => simpa using fun a ha => absurd ha (hdir a)
  rw [Bool.eq_iff_iff, hwrite, hwrite]
  simp only [h.directory]

end SameDirectories

end Paths

section Places

variable {t t' : FileTree} {path : Bytes} {p : TreePath}

theorem resolveNew_eq_ok_iff :
    t.resolveNew path = .ok p ↔ endsInSlash path = false ∧ t.resolve path = .ok p ∧ t.checkFile p = .ok () := by
  unfold resolveNew
  simp only [bind, pure, Except.pure, throw, throwThe, MonadExceptOf.throw]
  cases endsInSlash path with
  | true => simp [Except.bind_eq_ok_iff]
  | false =>
    simp only [Bool.false_eq_true, if_false, Except.bind_eq_ok_iff, Except.ok.injEq, true_and]
    constructor
    . rintro ⟨q, hresolve, ⟨⟩, hcheck, rfl⟩
      exact ⟨hresolve, hcheck⟩
    . rintro ⟨hresolve, hcheck⟩
      exact ⟨p, hresolve, (), hcheck, rfl⟩

theorem not_directory_of_checkFile (h : t.checkFile p = .ok ()) (a : Access) : t.find? p ≠ some (.directory a) := by
  intro hdir
  unfold checkFile at h
  rw [hdir] at h
  contradiction

theorem ne_nil_of_checkFile (h : t.checkFile p = .ok ()) : p ≠ [] := by
  rintro rfl
  exact not_directory_of_checkFile h t.root rfl

theorem write_of_checkFile (h : t.checkFile p = .ok ()) : (t.access p).write := by
  unfold checkFile at h
  unfold access
  cases hentry : t.find? p with
  | none => rfl
  | some e =>
    rw [hentry] at h
    cases e with
    | directory a => contradiction
    | null => rfl
    | file data a =>
      dsimp only [FileEntry.access] at h ⊢
      by_contra hno
      simp only [hno, if_false, reduceCtorEq] at h

end Places

section Fill

variable {t : FileTree} {p q : TreePath} (data : Bytes)

theorem find?_room (t : FileTree) (room : Option Nat) (p : TreePath) : { t with room }.find? p = t.find? p := by
  cases p <;> rfl

theorem find?_fill_self (hp : p ≠ []) : (t.fill p data).find? p = some (.file (t.fitting p data) (t.access p)) := by
  rw [fill, find?_room, find?_insert_self hp]

theorem find?_fill_of_ne (hq : q ≠ p) : (t.fill p data).find? q = t.find? q := by
  rw [fill, find?_room, find?_insert_of_ne hq]

theorem access_fill (hp : p ≠ []) : (t.fill p data).access p = t.access p := by
  rw [access, find?_fill_self data hp]
  rfl

theorem room_fill (hroom : t.room = none) : (t.fill p data).room = none := by
  simp [fill, hroom]

variable {data}

theorem fitting_prefix (t : FileTree) (p : TreePath) (data : Bytes) : t.fitting p data <+: data := by
  unfold fitting
  split
  . exact List.prefix_rfl
  . exact List.take_prefix _ _

theorem fitting_eq (hroom : t.room = none) : t.fitting p data = data := by
  rw [fitting, hroom]

theorem room_eq_none (h : ∀ data, t.fitting p data = data) : t.room = none := by
  cases hroom : t.room with
  | none => rfl
  | some n =>
    -- a text that is one byte longer than what there is room for
    have hlong := congrArg List.length (h (List.replicate (n + (t.content p).length + 1) 0))
    rw [fitting, hroom, List.length_take, List.length_replicate] at hlong
    omega

end Fill

theorem SameDirectories.resolveNew_iff {t t' : FileTree} {path : Bytes} {p : TreePath} (h : SameDirectories t t')
    (hp : t'.find? p = t.find? p) : t'.resolveNew path = .ok p ↔ t.resolveNew path = .ok p := by
  rw [resolveNew_eq_ok_iff, resolveNew_eq_ok_iff, h.resolve_iff, checkFile, checkFile, hp, h.mayChangeDirectory_eq]

/-- Paths lead where they led before, and nothing is different but a file that can be written under one path. -/
structure Touches (path : Bytes) (t t' : FileTree) : Prop extends SameDirectories t t' where
  resolveNew_of_ne : ∀ p, t'.find? p ≠ t.find? p → t.resolveNew path = .ok p

namespace Touches

variable {t t' t'' : FileTree} {path path' : Bytes} {p q : TreePath}

theorem refl (path : Bytes) (t : FileTree) : Touches path t t := ⟨.refl t, fun _ h => absurd rfl h⟩

theorem trans (h : Touches path t t') (h' : Touches path t' t'') : Touches path t t'' where
  toSameDirectories := h.toSameDirectories.trans h'.toSameDirectories
  resolveNew_of_ne p hp := by
    by_cases hfirst : t'.find? p = t.find? p
    . rw [← hfirst] at hp
      exact (h.resolveNew_iff hfirst).1 (h'.resolveNew_of_ne p hp)
    . exact h.resolveNew_of_ne p hfirst

theorem of_fill (h : t.resolveNew path = .ok p) (data : Bytes) : Touches path t (t.fill p data) where
  workingDirectory := rfl
  directory q a := by
    obtain ⟨-, -, hcheck⟩ := resolveNew_eq_ok_iff.1 h
    by_cases hq : q = p
    . have hno := not_directory_of_checkFile hcheck a
      rw [hq, find?_fill_self data (ne_nil_of_checkFile hcheck)]
      simpa using hno
    . rw [find?_fill_of_ne data hq]
  resolveNew_of_ne q hq := by
    obtain rfl : q = p := by
      by_contra hne
      exact hq (find?_fill_of_ne data hne)
    exact h

theorem resolve_of_ne (h : Touches path t t') (hp : t'.find? p ≠ t.find? p) : t.resolve path = .ok p :=
  (resolveNew_eq_ok_iff.1 (h.resolveNew_of_ne p hp)).2.1

section Other

variable (h : Touches path t t') (hother : ∀ p, t.resolve path' = .ok p → t.resolve path ≠ .ok p)
include h hother

theorem find?_eq (hp : t.resolve path' = .ok p) : t'.find? p = t.find? p := by
  by_contra hne
  exact hother p hp (h.resolve_of_ne hne)

theorem read_of_read {data : Bytes} (hread : t.read path' = .ok data) : t'.read path' = .ok data := by
  unfold read at hread ⊢
  cases hp : t.resolve path' with
  | error r =>
    rw [hp] at hread
    contradiction
  | ok p =>
    rw [hp] at hread
    rw [h.resolve_of_resolve hp]
    simp only [h.find?_eq hother hp]
    exact hread

theorem stat_of_stat (hstat : t.stat path' = .ok ()) : t'.stat path' = .ok () := by
  unfold stat at hstat ⊢
  cases hp : t.resolve path' with
  | error r =>
    rw [hp] at hstat
    contradiction
  | ok p =>
    rw [hp] at hstat
    rw [h.resolve_of_resolve hp]
    simp only [h.find?_eq hother hp]
    exact hstat

end Other

end Touches

section Store

variable {t : FileTree} {path : Bytes} {p : TreePath}

theorem store_refused {r : FileError.Reason} (h : t.resolveNew path = .error r) (data : Bytes) :
    t.store path data = (.error ⟨"open", path, r⟩, t) := by
  rw [store, h]

theorem store_null (h : t.resolveNew path = .ok p) (hnull : t.find? p = some .null) (data : Bytes) :
    t.store path data = (.ok (), t) := by
  rw [store, h]
  exact if_pos hnull

theorem store_file (h : t.resolveNew path = .ok p) (hfile : t.find? p ≠ some .null) (data : Bytes) :
    t.store path data =
      (if t.fitting p data = data then .ok () else .error ⟨"write", path, .noSpace⟩, t.fill p data) := by
  rw [store, h]
  dsimp only
  rw [if_neg hfile]
  split <;> rfl

/-- Whether or not a text can be stored, nothing but the file under its path changes. -/
theorem store_touches (t : FileTree) (path data : Bytes) : Touches path t (t.store path data).2 := by
  cases h : t.resolveNew path with
  | error r =>
    rw [store_refused h]
    exact .refl path t
  | ok p =>
    by_cases hnull : t.find? p = some .null
    . rw [store_null h hnull]
      exact .refl path t
    . rw [store_file h hnull]
      exact .of_fill h data

/-- Does a path name a file, there already or still to be made, that takes every text? -/
structure Writable (t : FileTree) (path : Bytes) : Prop where
  takes : ∀ data, ∃ after, t.write path data = .ok after
  isFile : ∀ p, t.resolve path = .ok p → t.find? p ≠ some .null

/-- May the file under a path be read, if there is one? -/
def Readable (t : FileTree) (path : Bytes) : Prop := ∀ p, t.resolve path = .ok p → (t.access p).read

theorem writable_iff :
    t.Writable path ↔ ∃ p, t.resolveNew path = .ok p ∧ t.find? p ≠ some .null ∧ t.room = none := by
  constructor
  . rintro ⟨htakes, hfile⟩
    cases h : t.resolveNew path with
    | error r =>
      obtain ⟨after, hafter⟩ := htakes []
      rw [write, store_refused h] at hafter
      contradiction
    | ok p =>
      have hnull := hfile p (resolveNew_eq_ok_iff.1 h).2.1
      refine ⟨p, rfl, hnull, room_eq_none (p := p) fun data => ?_⟩
      by_contra hfit
      obtain ⟨after, hafter⟩ := htakes data
      rw [write, store_file h hnull, if_neg hfit] at hafter
      contradiction
  . rintro ⟨p, h, hnull, hroom⟩
    constructor
    . intro data
      refine ⟨t.fill p data, ?_⟩
      rw [write, store_file h hnull, if_pos (fitting_eq hroom)]
      rfl
    . intro q hq
      rw [(resolveNew_eq_ok_iff.1 h).2.1] at hq
      rwa [← Except.ok.inj hq]

theorem readable_iff_access {p : TreePath} (h : t.resolveNew path = .ok p) : t.Readable path ↔ (t.access p).read := by
  simp [Readable, (resolveNew_eq_ok_iff.1 h).2.1]

end Store

namespace Touches

variable {t t' : FileTree} {path path' : Bytes} (h : Touches path t t')
  (hother : ∀ p, t.resolve path' = .ok p → t.resolve path ≠ .ok p)
include h hother

theorem writable (hroom : t'.room = none) (hwritable : t.Writable path') : t'.Writable path' := by
  obtain ⟨p, hp, hfile, -⟩ := writable_iff.1 hwritable
  have hsame := h.find?_eq hother (resolveNew_eq_ok_iff.1 hp).2.1
  rw [← hsame] at hfile
  exact writable_iff.2 ⟨p, (h.resolveNew_iff hsame).2 hp, hfile, hroom⟩

theorem readable_iff : t'.Readable path' ↔ t.Readable path' := by
  have haccess : ∀ p, t.resolve path' = .ok p → t'.access p = t.access p := by
    intro p hp
    rw [access, access, h.find?_eq hother hp]
  unfold Readable
  constructor
  . intro hread p hp
    rw [← haccess p hp]
    exact hread p (h.resolve_of_resolve hp)
  . intro hread p hp
    have hp := (h.resolve_iff path' p).1 hp
    rw [haccess p hp]
    exact hread p hp

end Touches

section Reading

variable {t : FileTree} {path : Bytes} {p : TreePath} (h : t.resolveNew path = .ok p)
include h

theorem read_null (hnull : t.find? p = some .null) : t.read path = .ok [] := by
  unfold read
  rw [(resolveNew_eq_ok_iff.1 h).2.1]
  simp [hnull, FileEntry.access]

theorem read_fill (data : Bytes) : (t.fill p data).read path =
    if (t.access p).read then .ok (t.fitting p data) else .error ⟨"open", path, .permissionDenied⟩ := by
  obtain ⟨-, hresolve, hcheck⟩ := resolveNew_eq_ok_iff.1 h
  have hfile := find?_fill_self (t := t) data (ne_nil_of_checkFile hcheck)
  have hpath := (Touches.of_fill h data).resolve_of_resolve hresolve
  unfold read
  rw [hpath]
  simp only [hfile, FileEntry.access]
  by_cases hread : (t.access p).read <;> simp [hread]

theorem resolveNew_fill (data : Bytes) : (t.fill p data).resolveNew path = .ok p := by
  obtain ⟨hslash, hresolve, hcheck⟩ := resolveNew_eq_ok_iff.1 h
  have hfile := find?_fill_self (t := t) data (ne_nil_of_checkFile hcheck)
  refine resolveNew_eq_ok_iff.2 ⟨hslash, (Touches.of_fill h data).resolve_of_resolve hresolve, ?_⟩
  unfold checkFile
  rw [hfile]
  exact if_pos (write_of_checkFile hcheck)

end Reading

end VerboseExpr.FileTree
