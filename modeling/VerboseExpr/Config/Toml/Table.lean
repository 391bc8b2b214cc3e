import VerboseExpr.Config.Toml.Syntax

/-!
The tables that the statements of a TOML document build. A key may be defined once; a table that was
only mentioned on the way to another one may still be defined, and an array may be defined again.
-/

namespace VerboseExpr.Toml

inductive Entry where
  | value (v : Value)
  | table (entries : List (List Char × Entry))
  /-- An array of tables, the last one first. -/
  | tables (latest : List (List Char × Entry)) (earlier : List (List (List Char × Entry)))

abbrev Table := List (List Char × Entry)

namespace Table

/-- The table with an entry in place of the one of that name, or at the end. -/
def put (t : Table) (k : List Char) (e : Entry) : Table :=
  if t.any (·.1 == k) then t.map fun p => if p.1 == k then (k, e) else p else t ++ [(k, e)]

/-- Changes the table that a path leads to; of an array of tables, the last one. Fails if something
on the way is no table. -/
def modifyAt? (f : Table → Option Table) (t : Table) : Key → Option Table
  | [] => f t
  | k :: rest =>
    match t.lookup k with
    | some (.table sub) => (modifyAt? f sub rest).map fun sub => t.put k (.table sub)
    | some (.tables latest earlier) =>
      (modifyAt? f latest rest).map fun latest => t.put k (.tables latest earlier)
    | _ => none

def at? (t : Table) : Key → Option Table
  | [] => some t
  | k :: rest =>
    match t.lookup k with
    | some (.table sub) => at? sub rest
    | some (.tables latest _) => at? latest rest
    | _ => none

/-- Puts an entry into the table that a path leads to. Tables on the way are made where there is nothing;
anything else on the way is an error. -/
def putAt? (t : Table) (k : List Char) (e : Entry) : Key → Option Table
  | [] => some (t.put k e)
  | p :: rest =>
    match t.lookup p with
    | none => (putAt? [] k e rest).map fun sub => t.put p (.table sub)
    | some (.table sub) => (putAt? sub k e rest).map fun sub => t.put p (.table sub)
    | some _ => none

end Table

structure Build where
  root : Table := []
  /-- Tables that were only mentioned. -/
  mentioned : List Key := []
  arrays : List Key := []
  /-- The table that keys belong to. -/
  context : Key := []

namespace Build

/-- Notes whether the key, or for the empty key the table around it, stands for an array. -/
def note (b : Build) (k : List Char) (isArray : Bool) : Build :=
  let path := if k.isEmpty then b.context else b.context ++ [k]
  let path := if path.isEmpty then [[]] else path
  let others := b.arrays.filter (· != path)
  { b with arrays := if isArray then path :: others else others }

/-- Marks a table as mentioned only. -/
def mention (b : Build) (path : Key) : Build :=
  { b with mentioned := path :: b.mentioned.filter (· != path) }

/-- Marks a table as defined. -/
def settle (b : Build) (path : Key) : Build :=
  { b with mentioned := b.mentioned.filter (· != path) }

def define? (b : Build) (k : List Char) (e : Entry) : Option Build := do
  let path := b.context ++ [k]
  let t ← b.root.at? b.context
  let write : Option Build := do
    let root ← b.root.modifyAt? (fun t => some (t.put k e)) b.context
    some { b with root := root }
  if (t.lookup k).isNone then write
  else if b.arrays.contains path then (← write).settle path
  else if b.mentioned.contains path then b.settle path
  else none

/-- Makes the tables on the way to a key that are not there yet. `done` is the way so far. -/
def openParents? (b : Build) (done : Key) : Key → Option Build
  | [] => some b
  | k :: rest => do
    let t ← b.root.at? done
    let path := done ++ [k]
    let b ←
      match t.lookup k with
      | some (.value _) => none
      | some _ => some b
      | none => do
        let root ← b.root.modifyAt? (fun t => some (t.put k (.table []))) done
        some ({ b with root := root }.mention path)
    b.openParents? path rest

def enter? (b : Build) (key : Key) (inArray : Bool) : Option Build := do
  let parents := key.dropLast
  let last := key.getLastD []
  let b ← b.openParents? [] parents
  let b := { b with context := parents }
  let b ←
    if !inArray then b.define? last (.table [])
    else do
      let t ← b.root.at? parents
      let e ← match t.lookup last with
        | none => some (.tables [] [])
        | some (.tables latest earlier) => some (.tables [] (latest :: earlier))
        | _ => none
      let root ← b.root.modifyAt? (fun t => some (t.put last e)) parents
      some { b with root := root }
  some { b with context := key }

/-- Enters the tables that a key with several parts mentions, one below the other. -/
def enterDotted? (b : Build) : Key → Option Build
  | [] => some b
  | k :: rest => do
    let path := b.context ++ [k]
    let b ← (b.mention path).enter? path false
    b.enterDotted? rest

mutual

/-- Defines what a value under the key `k` of the current table holds beside itself, because inline
tables are tables of the document. Gives what the key stands for. -/
def visit? (b : Build) (k : List Char) (inArray : Bool) : Value → Option (Build × Entry)
  | .array items => do
    let b ← visitItems? (b.note k true) k items
    some (b, .value (.array items))
  | .inlineTable entries => do
    let path := b.context ++ [k]
    let inside ← (b.mention path).enter? path inArray
    let (inside, own) ← visitEntries? inside path [] entries
    some ({ inside with context := b.context }, .table own)
  | v => some (b, .value v)

def visitItems? (b : Build) (k : List Char) : List Value → Option Build
  | [] => some b
  | v :: rest => do
    let (b, _) ← visit? b k true v
    visitItems? b k rest

/-- Defines the entries of the inline table at `path`, in the document and in the table of its own that
it has if it takes the place of an array. -/
def visitEntries? (b : Build) (path : Key) (own : Table) : List (Key × Value) → Option (Build × Table)
  | [] => some (b, own)
  | (key, v) :: rest => do
    let b ← b.enterDotted? key.dropLast
    let k := key.getLastD []
    let (b, e) ← visit? b k false v
    let b ← b.define? k e
    let b := b.note k (match v with | .array _ => true | _ => false)
    let own ← own.putAt? k e key.dropLast
    visitEntries? { b with context := path } path own rest

end

def run? (b : Build) : Statement → Option Build
  | .table key => do
    let b ← b.enter? key false
    some (b.note [] false)
  | .arrayTable key => do
    let b ← b.enter? key true
    some (b.note [] false)
  | .assignment key v => do
    let outer := b.context
    let (b, _) ← visitEntries? b outer [] [(key, v)]
    some { b with context := outer }

end Build

def table? (statements : List Statement) : Option Table :=
  (statements.foldlM Build.run? {}).map (·.root)

end VerboseExpr.Toml
