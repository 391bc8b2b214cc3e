import VerboseExpr.File.System

/-!
A file system as a value: a tree of directories and files, with what the user of the program may do with each, the null
device among them, and the space that is left.
-/

namespace VerboseExpr

/-- The names on the way from the root to an entry. -/
abbrev TreePath := List Bytes

/-- What the user of the program may do with an entry. -/
structure Access where
  read : Bool := true
  /-- For a directory: may entries be made and removed in it? -/
  write : Bool := true
  /-- For a directory: may a path lead through it? -/
  search : Bool := true
  deriving DecidableEq, Repr

inductive FileEntry where
  | directory (access : Access := {})
  | file (data : Bytes) (access : Access := {})
  /-- The device that takes every text and keeps none. -/
  | null
  deriving DecidableEq, Repr

def FileEntry.access : FileEntry → Access
  | directory a | file _ a => a
  | null => {}

/-- The entries below the root, each with its path. A tree with nothing in it has an empty directory to work in. -/
structure FileTree where
  entries : List (TreePath × FileEntry) :=
    [(["dev"], .directory { write := false }), (["dev", "null"], .null), (["tmp"], .directory),
      (["tmp", "work"], .directory)]
  /-- Where paths begin that do not begin at the root. -/
  workingDirectory : TreePath := ["tmp", "work"]
  root : Access := { write := false }
  /-- How many bytes can still be written, if there is a bound. -/
  room : Option Nat := none
  deriving DecidableEq, Repr

namespace FileTree

/-- The entry at a path. The root is always there. -/
def find? (t : FileTree) : TreePath → Option FileEntry
  | [] => some (.directory t.root)
  | p => t.entries.lookup p

def insert (t : FileTree) (p : TreePath) (e : FileEntry) : FileTree :=
  { t with entries := (p, e) :: t.entries.filter (·.1 != p) }

def erase (t : FileTree) (p : TreePath) : FileTree := { t with entries := t.entries.filter (·.1 != p) }

def names (path : Bytes) : List Bytes := path.splitOnP (· == 0x2F)

def maxName : Nat := 255

/-- The longest path, with a byte for its end. -/
def maxPath : Nat := 4096

/-- Goes from a directory along some names. Every name but the last has to lead to a directory. The root is its own
parent. -/
def follow (t : FileTree) (dir : TreePath) : List Bytes → Except FileError.Reason TreePath
  | [] => .ok dir
  | name :: rest =>
    match t.find? dir with
    | none => .error .noSuchFile
    | some (.directory a) =>
      if !a.search then .error .permissionDenied
      else if name.isEmpty || name == Bytes.ofString "." then follow t dir rest
      else if name == Bytes.ofString ".." then follow t dir.dropLast rest
      else if maxName < name.length then .error .nameTooLong
      else follow t (dir ++ [name]) rest
    | some _ => .error .notDirectory

def checkPath (path : Bytes) : Except FileError.Reason Unit :=
  if path.contains 0 then .error .invalidArgument
  else if maxPath ≤ path.length then .error .nameTooLong
  else if path.isEmpty then .error .noSuchFile
  else .ok ()

def origin (t : FileTree) (path : Bytes) : TreePath := if path.head? == some 0x2F then [] else t.workingDirectory

/-- The place that a path names; there need not be an entry yet. -/
def resolve (t : FileTree) (path : Bytes) : Except FileError.Reason TreePath := do
  checkPath path
  t.follow (t.origin path) (names path)

def read (t : FileTree) (path : Bytes) : Except FileError Bytes :=
  match t.resolve path with
  | .error r => .error ⟨"open", path, r⟩
  | .ok p =>
    match t.find? p with
    | none => .error ⟨"open", path, .noSuchFile⟩
    | some e =>
      if !e.access.read then .error ⟨"open", path, .permissionDenied⟩
      else
        match e with
        | .directory _ => .error ⟨"read", path, .isDirectory⟩
        | .file data _ => .ok data
        | .null => .ok []

def withoutSlashes (path : Bytes) : Bytes := (path.reverse.dropWhile (· == 0x2F)).reverse

def isDots (name : Bytes) : Bool := name == Bytes.ofString "." || name == Bytes.ofString ".."

/-- May entries be made in the directory of a place, and removed from it? -/
def mayChangeDirectory (t : FileTree) (p : TreePath) : Bool :=
  match t.find? p.dropLast with
  | some (.directory a) => a.write
  | _ => false

/-- Checks that a file can be written at a place, or made there. -/
def checkFile (t : FileTree) (p : TreePath) : Except FileError.Reason Unit :=
  match t.find? p with
  | some (.directory _) => .error .isDirectory
  | some e => if e.access.write then .ok () else .error .permissionDenied
  | none => if t.mayChangeDirectory p then .ok () else .error .permissionDenied

def lastName (path : Bytes) : Bytes := (names (withoutSlashes path)).getLastD []

/-- Does a path with a slash at its end name what cannot be a file, whether something is there or not? -/
def endsInSlash (path : Bytes) : Bool := path.getLast? == some 0x2F && !isDots (lastName path)

/-- The place of a file that is to be written, or made. -/
def resolveNew (t : FileTree) (path : Bytes) : Except FileError.Reason TreePath := do
  if endsInSlash path then
    checkPath path
    let _ ← t.follow (t.origin path) ((names (withoutSlashes path)).dropLast ++ [[]])
    throw .isDirectory
  let p ← t.resolve path
  t.checkFile p
  return p

/-- What the file at a place holds. -/
def content (t : FileTree) (p : TreePath) : Bytes :=
  match t.find? p with
  | some (.file data _) => data
  | _ => []

/-- What may be done with the file at a place. One that is made there may be read and written. -/
def access (t : FileTree) (p : TreePath) : Access :=
  match t.find? p with
  | some e => e.access
  | none => {}

/-- What of a text the file at a place can hold. Its old content makes room for the new one. -/
def fitting (t : FileTree) (p : TreePath) (data : Bytes) : Bytes :=
  match t.room with
  | none => data
  | some n => data.take (n + (t.content p).length)

/-- Gives the file at a place what fits of a text. -/
def fill (t : FileTree) (p : TreePath) (data : Bytes) : FileTree :=
  { t.insert p (.file (t.fitting p data) (t.access p)) with
    room := t.room.map fun n => n + (t.content p).length - (t.fitting p data).length }

/-- Writes a file, and says whether all of the text could be written. -/
def store (t : FileTree) (path data : Bytes) : Except FileError Unit × FileTree :=
  match t.resolveNew path with
  | .error r => (.error ⟨"open", path, r⟩, t)
  | .ok p =>
    if t.find? p = some .null then (.ok (), t)
    else if t.fitting p data = data then (.ok (), t.fill p data)
    else (.error ⟨"write", path, .noSpace⟩, t.fill p data)

/-- The tree with a file, if all of it can be written. -/
def write (t : FileTree) (path data : Bytes) : Except FileError FileTree :=
  let (r, after) := t.store path data
  r.map fun () => after

def stat (t : FileTree) (path : Bytes) : Except FileError Unit :=
  match t.resolve path with
  | .error r => .error ⟨"stat", path, r⟩
  | .ok p => if (t.find? p).isSome then .ok () else .error ⟨"stat", path, .noSuchFile⟩

/-- The place of something that is to be removed. A directory cannot be removed by a path that ends in
dots. -/
def resolveOld (t : FileTree) (path : Bytes) : Except FileError.Reason TreePath := do
  let p ← t.resolve path
  match t.find? p with
  | none => throw .noSuchFile
  | some e =>
    if e matches .directory _ then
      if lastName path == Bytes.ofString "." then throw .invalidArgument
      if lastName path == Bytes.ofString ".." then throw .notEmpty
    if !t.mayChangeDirectory p then throw .permissionDenied
    if t.entries.any fun (q, _) => p.isPrefixOf q && p != q then throw .notEmpty
    return p

def remove (t : FileTree) (path : Bytes) : Except FileError FileTree :=
  match t.resolveOld path with
  | .error r => .error ⟨"remove", path, r⟩
  | .ok p => .ok (t.erase p)

def addParents (t : FileTree) (p : TreePath) : FileTree :=
  (List.range p.length).foldl (fun t i =>
    if (t.find? (p.take i)).isSome then t else t.insert (p.take i) .directory) t

/-- The tree with a file in its working directory, or with a directory if the path ends in a slash, and all its
parents. -/
def populate (t : FileTree) (path data : Bytes) : FileTree :=
  let ns := (names path).filter fun n => !n.isEmpty && n != Bytes.ofString "."
  if ns.isEmpty then t
  else
    let p := t.workingDirectory ++ ns
    (t.addParents p).insert p (if path.getLast? == some 0x2F then .directory else .file data)

/-- The files below the working directory. -/
def files (t : FileTree) : List (Bytes × Bytes) :=
  t.entries.filterMap fun (p, e) =>
    match e with
    | .file data _ =>
      if t.workingDirectory.isPrefixOf p then
        some (Bytes.join (Bytes.ofString "/") (p.drop t.workingDirectory.length), data)
      else none
    | _ => none

/-- The files that are new or have new content, and those that are gone, in the order of their
paths. -/
def changes (before after : FileTree) : List (Bytes × Bytes) × List Bytes :=
  let old := before.files
  let new := after.files
  ((new.filter fun (p, d) => old.lookup p != some d).mergeSort fun a b => Bytes.le a.1 b.1,
    ((old.filter fun (p, _) => (new.lookup p).isNone).map (·.1)).mergeSort Bytes.le)

instance : FileSystem (StateM FileTree) where
  readFile path := fun t => (t.read path, t)
  writeFile path data := fun t => t.store path data
  stat path := fun t => (t.stat path, t)

end FileTree

end VerboseExpr
