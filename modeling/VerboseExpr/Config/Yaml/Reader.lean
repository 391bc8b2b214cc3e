import VerboseExpr.Config.Basic
import VerboseExpr.Config.Yaml.Node.Reader

/-!
Reading settings from a YAML document: the root has to be a mapping, whose keys are the names of
settings. Keys without a meaning are ignored, and settings that are missing or stand for nothing keep
their defaults. A mapping may ask for the entries of others, which then count where it has none of its
own.

A value of the wrong kind is noted and makes the document unusable in the end, but reading goes on, so
what follows may still turn out to be worse.
-/

namespace VerboseExpr.Yaml

inductive ReadError where
  | malformed
  /-- A collection is to be told from other keys by its value, which is impossible. -/
  | incomparable
  deriving DecidableEq, Repr

/-- A key as it is told from others. -/
inductive Key where
  | scalar (s : Scalar)
  | collection
  deriving DecidableEq, Repr

/-- The key that a scalar gives. Of a number its value counts, and of nothing nothing. -/
def Key.ofScalar (s : Scalar) : Key :=
  match s.value with
  | .null | .bool _ | .int _ => .scalar ⟨s.value, []⟩
  | _ => .scalar s

def Key.ofText (b : Bytes) : Key := .scalar ⟨.text, b⟩

structure Decoding where
  config : Config
  mistyped : Bool := false
  visits : Nat := 0
  /-- How many of them were behind an alias. -/
  expansions : Nat := 0
  /-- The numbers of the aliases that are being followed. -/
  following : List Nat := []
  /-- While entries of other mappings are taken over: the keys that are taken. -/
  taken : Option (List Key) := none

abbrev DecodeM := StateT Decoding (Except ReadError)

/-- Do aliases account for too much of a document? Of some hundred thousand nodes up to 99 in 100 may be
behind aliases, and of more nodes fewer. -/
def isExcessive (expansions visits : Nat) : Bool :=
  let low := 400000
  let range := 3600000
  let beyond := min (visits - low) range
  100 < expansions && 1000 < visits &&
    visits * (99 * range - 89 * beyond) < 100 * range * expansions

namespace DecodeM

def refuse {α : Type} : DecodeM α := throw .malformed

def visit : DecodeM Unit := do
  let d ← get
  let d :=
    { d with
      visits := d.visits + 1
      expansions := if d.following.isEmpty then d.expansions else d.expansions + 1 }
  if isExcessive d.expansions d.visits then refuse
  set d

def mistype : DecodeM Unit := modify ({ · with mistyped := true })

/-- The node behind an alias, in which the alias must not occur again. -/
def follow {α : Type} (doc : Document) (number target : Nat) (x : Node → DecodeM α) : DecodeM α := do
  let d ← get
  if d.following.contains number then refuse
  match doc.node? target with
  | none => refuse
  | some n =>
    set { d with following := number :: d.following }
    let a ← x n
    modify ({ · with following := d.following })
    return a

def scalar (tag : Option Tag) (plain : Bool) (cs : List Char) : DecodeM Scalar :=
  match scalar? tag plain cs with
  | some s => return s
  | none => refuse

/-- Adds a key to those that are taken. Gives whether it is new, which it always is if no keys are being
kept. -/
def claim (k : Key) : DecodeM Bool := do
  let d ← get
  match d.taken, k with
  | none, .collection => refuse
  | none, _ => return true
  | some _, .collection => throw .incomparable
  | some ks, k =>
    if ks.contains k then return false
    set { d with taken := some (k :: ks) }
    return true

/-- Does something without the keys that are taken, which are kept for later. -/
def apart {α : Type} (x : DecodeM α) : DecodeM α := do
  let taken := (← get).taken
  modify ({ · with taken := none })
  let a ← x
  modify ({ · with taken := taken })
  return a

/-- The text that a node gives. A node that stands for nothing gives none. -/
def text (doc : Document) (n : Node) : (fuel : Nat) → DecodeM (Option Bytes)
  | 0 => refuse
  | fuel + 1 => do
    visit
    match n with
    | .aliasOf _ number target => follow doc number target (text doc · fuel)
    | .scalar tag plain cs =>
      let s ← scalar tag plain cs
      return if s.value = .null then none else some s.text
    | _ =>
      mistype
      return none

def bool (doc : Document) (n : Node) : (fuel : Nat) → DecodeM (Option Bool)
  | 0 => refuse
  | fuel + 1 => do
    visit
    match n with
    | .aliasOf _ number target => follow doc number target (bool doc · fuel)
    | .scalar tag plain cs =>
      let s ← scalar tag plain cs
      let old := oldBool? (String.ofList (s.text.map fun b => Char.ofNat b.toNat))
      match s.value, old with
      | .null, _ => return none
      | .bool b, _ => return some b
      | .text, some b => return some b
      | _, _ =>
        mistype
        return none
    | _ =>
      mistype
      return none

/-- The texts in a sequence. Items that stand for nothing are left out. -/
def texts (doc : Document) (n : Node) : (fuel : Nat) → DecodeM (Option (List Bytes))
  | 0 => refuse
  | fuel + 1 => do
    visit
    match n with
    | .aliasOf _ number target => follow doc number target (texts doc · fuel)
    | .scalar tag plain cs =>
      let s ← scalar tag plain cs
      if s.value = .null then return some []
      mistype
      return none
    | .sequence _ items =>
      let ts ← items.mapM (text doc · fuel)
      return some (ts.filterMap id)
    | .mapping .. =>
      mistype
      return none

/-- The node of the last entry that asks for the entries of others. -/
def mergeNode (entries : List (Node × Node)) : Option Node :=
  entries.foldl (fun found (k, v) => if k.isMerge then some v else found) none

def isMapping (doc : Document) : Node → Bool
  | .mapping .. => true
  | .aliasOf _ _ target =>
    match doc.node? target with
    | some (.mapping ..) | none => true
    | _ => false
  | _ => false

/-- Takes over the entries of other mappings with `x`: of one, or of each in a sequence. -/
def mergeWith (doc : Document) (n : Node) (x : Node → DecodeM Unit) : DecodeM Unit := do
  let mergeOne (n : Node) : DecodeM Unit := if isMapping doc n then x n else refuse
  match n with
  | .sequence _ items => items.forM mergeOne
  | n => mergeOne n

/-- Keeps the keys that are taken while `x` takes over entries. If none are kept yet, those of `keys`
are taken, of which `key` gives the value. -/
def merging (entries : List (Node × Node)) (key : Node → DecodeM (Option Key)) (x : DecodeM Unit) :
    DecodeM Unit := do
  if (← get).taken.isSome then x
  else
    modify ({ · with taken := some [] })
    entries.forM fun (k, _) => do
      match ← key k with
      | none => return ()
      | some k =>
        let _ ← claim k
    x
    modify ({ · with taken := none })

mutual

/-- Visits a node of any kind. Gives what it is as a key, or nothing if it cannot be read. -/
def any (doc : Document) (n : Node) : (fuel : Nat) → DecodeM (Option Key)
  | 0 => refuse
  | fuel + 1 => do
    visit
    match n with
    | .aliasOf _ number target => follow doc number target (any doc · fuel)
    | .scalar tag plain cs => return some (Key.ofScalar (← scalar tag plain cs))
    | .sequence _ items =>
      items.forM fun item => do let _ ← any doc item fuel
      return some .collection
    | .mapping _ entries =>
      if !Node.uniqueKeys entries then
        mistype
        return none
      anyEntries doc (entries.all fun (k, _) => doc.isTextKey k) entries fuel
      return some .collection

/-- Visits the entries of a mapping of any kind, whose keys have to be texts if `textKeys` says so, and
those that it takes over. -/
def anyEntries (doc : Document) (textKeys : Bool) (entries : List (Node × Node)) :
    (fuel : Nat) → DecodeM Unit
  | 0 => refuse
  | fuel + 1 => do
    entries.forM fun (k, v) => do
      if !k.isMerge then
        let key ← apart (if textKeys then do return (← text doc k fuel).map Key.ofText else any doc k fuel)
        match key with
        | none => return ()
        | some key =>
          if ← claim key then
            let _ ← apart (any doc v fuel)
    match mergeNode entries with
    | none => return ()
    | some n =>
      merging entries (any doc · fuel) (mergeWith doc n (anyMerged doc textKeys · fuel))

/-- Takes over the entries of a mapping, or of the mapping behind an alias, into one of any kind. -/
def anyMerged (doc : Document) (textKeys : Bool) (n : Node) : (fuel : Nat) → DecodeM Unit
  | 0 => refuse
  | fuel + 1 => do
    visit
    match n with
    | .aliasOf _ number target => follow doc number target (anyMerged doc textKeys · fuel)
    | .mapping _ entries =>
      if Node.uniqueKeys entries then anyEntries doc textKeys entries fuel else mistype
    | _ => mistype

end

/-- Sets a text, unless the node stands for nothing. -/
def setText (doc : Document) (n : Node) (fuel : Nat) (assign : Config → Bytes → Config) :
    DecodeM Unit := do
  match ← text doc n fuel with
  | none => return ()
  | some t => modify fun d => { d with config := assign d.config t }

def setBool (doc : Document) (n : Node) (fuel : Nat) (assign : Config → Bool → Config) :
    DecodeM Unit := do
  match ← bool doc n fuel with
  | none => return ()
  | some b => modify fun d => { d with config := assign d.config b }

def settingNames : List Bytes :=
  ["name", "package", "output", "engine", "verbose", "no_color", "test_file", "inputs"]

def assign (doc : Document) (name : Bytes) (n : Node) (fuel : Nat) : DecodeM Unit := do
  if name = Bytes.ofString "name" then setText doc n fuel ({ · with name := · })
  else if name = Bytes.ofString "package" then setText doc n fuel ({ · with package := · })
  else if name = Bytes.ofString "output" then setText doc n fuel ({ · with output := · })
  else if name = Bytes.ofString "engine" then setText doc n fuel ({ · with engine := · })
  else if name = Bytes.ofString "verbose" then setBool doc n fuel ({ · with verbose := · })
  else if name = Bytes.ofString "no_color" then setBool doc n fuel ({ · with noColor := · })
  else if name = Bytes.ofString "test_file" then setBool doc n fuel ({ · with testFile := · })
  else
    match ← texts doc n fuel with
    | none => return ()
    | some ts => modify fun d => { d with config := { d.config with inputs := ts } }

/-- Reads the entries of a mapping that is not asked for by another, or by it: `done` are the settings
that it has set. -/
def settingEntries (doc : Document) (fuel : Nat) (done : List Bytes) :
    List (Node × Node) → DecodeM Unit
  | [] => return ()
  | (k, v) :: rest => do
    if k.isMerge then settingEntries doc fuel done rest
    else
      match ← apart (text doc k fuel) with
      | none => settingEntries doc fuel done rest
      | some name =>
        if !(← claim (Key.ofText name)) || !settingNames.contains name then
          settingEntries doc fuel done rest
        else if done.contains name then
          mistype
          settingEntries doc fuel done rest
        else
          apart (assign doc name v fuel)
          settingEntries doc fuel (name :: done) rest

def settings (doc : Document) (n : Node) : (fuel : Nat) → DecodeM Unit
  | 0 => refuse
  | fuel + 1 => do
    visit
    match n with
    | .aliasOf _ number target => follow doc number target (settings doc · fuel)
    | .scalar tag plain cs =>
      let s ← scalar tag plain cs
      if s.value ≠ .null then mistype
    | .sequence .. => mistype
    | .mapping _ entries =>
      if !Node.uniqueKeys entries then mistype
      else
        settingEntries doc fuel [] entries
        match mergeNode entries with
        | none => return ()
        | some n => merging entries (any doc · fuel) (mergeWith doc n (settings doc · fuel))

end DecodeM

/-- The settings that a document gives on top of the defaults. -/
def read (data : Bytes) : Except ReadError Config :=
  match document? data with
  | none => .error .malformed
  | some none => .ok Config.default
  | some (some doc) => do
    let fuel := (data.length + 8) * (data.length + 8)
    let act : DecodeM Unit := do
      DecodeM.visit
      DecodeM.settings doc doc.root fuel
    let (_, d) ← act { config := Config.default }
    if d.mistyped then .error .malformed else .ok d.config

end VerboseExpr.Yaml
