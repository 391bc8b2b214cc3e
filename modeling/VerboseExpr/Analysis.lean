import VerboseExpr.Matcher.Basic

namespace VerboseExpr

inductive Feature where
  | alternation
  | anchored
  | backreference
  | captures
  | charClass
  | escapes
  | quantifiers
  | wildcard
  deriving DecidableEq, Repr

namespace Feature

def all : List Feature :=
  [alternation, anchored, backreference, captures, charClass, escapes, quantifiers, wildcard]

def label : Feature → Bytes
  | alternation => "Alternation"
  | anchored => "Anchored"
  | backreference => "Backreference"
  | captures => "Captures"
  | charClass => "CharClass"
  | escapes => "Escapes"
  | quantifiers => "Quantifiers"
  | wildcard => "Wildcard"

/-- The features that commands make use of, by the names of the commands. -/
def table : List (Bytes × Feature) :=
  [("begin", anchored), ("^", anchored), ("end", anchored), ("$", anchored), ("or", alternation), ("|", alternation),
    ("refer", backreference), ("group", captures), ("range", charClass), ("except", charClass), ("\\n", escapes),
    ("\\r", escapes), ("\\t", escapes), ("anychar", wildcard), (".", wildcard), ("optional", quantifiers),
    ("zero-or-one", quantifiers), ("?", quantifiers), ("one-or-more", quantifiers), ("+", quantifiers),
    ("zero-or-more", quantifiers), ("*", quantifiers), ("times", quantifiers), ("mintimes", quantifiers),
    ("minmaxtimes", quantifiers)]

def ofName? (name : Bytes) : Option Feature := table.lookup name

end Feature

/-- The commands that repeat their arguments. -/
def quantifierNames : List Bytes :=
  ["optional", "zero-or-one", "?", "one-or-more", "+", "zero-or-more", "*", "times", "mintimes", "minmaxtimes"]

/-- The quantifiers without an upper limit. -/
def unboundedNames : List Bytes := ["one-or-more", "+", "zero-or-more", "*", "mintimes"]

def anchorNames : List Bytes := ["begin", "^"]

def groupName : Bytes := "group"

def referenceName : Bytes := "refer"

namespace Element

mutual

/-- Does an element of which `isInner` holds stand below one of which `isOuter` holds? `inside` says
whether there is one above already. -/
def nests (isOuter isInner : Element → Bool) (inside : Bool) : Element → Bool
  | e@(node _ _ args) =>
    (inside && isInner e) || nestsAny isOuter isInner (inside || isOuter e) args

/-- The same for some tree of a list. -/
def nestsAny (isOuter isInner : Element → Bool) (inside : Bool) : List Element → Bool
  | [] => false
  | e :: rest => nests isOuter isInner inside e || nestsAny isOuter isInner inside rest

end

/-- Does a capturing group stand below a quantifier? Such a group keeps only its last repetition. -/
def hasRepeatingCaptures (e : Element) : Bool :=
  nests (·.isNamed quantifierNames) (·.isNamed [groupName]) false e

/-- Does an unlimited repetition stand below another? Backtracking may then take exponential time. -/
def hasNestedQuantifiers (e : Element) : Bool :=
  nests (·.isNamed unboundedNames) (·.isNamed unboundedNames) false e

/-- Does the expression begin with a start anchor? Leading groupings are looked through. -/
def isAnchored : Element → Bool
  | e@(node _ _ args) =>
    if e.isNamed [rootName] then
      match args with
      | [] => false
      | first :: _ => isAnchored first
    else e.isNamed anchorNames

def features (e : Element) : List Feature :=
  let used := (e.walk (!·.isLiteral)).filterMap fun x =>
    if x.isLiteral then none else Feature.ofName? x.value
  Feature.all.filter used.contains

/-- The number of elements that satisfy `p`, none of them below a literal. -/
def countWhere (p : Element → Bool) (e : Element) : Nat := (e.walk (!·.isLiteral)).countP p

end Element

structure Analysis where
  pattern : Bytes
  /-- The features in the order of their labels; at least one label is given. -/
  featureLabels : List Bytes
  engineLabels : List Bytes
  commands : Nat
  literals : Nat
  depth : Nat
  captureGroups : Nat
  hasBackrefs : Bool
  hasCatastrophicRisk : Bool
  hasRepeatingCaptures : Bool
  isAnchored : Bool
  deriving DecidableEq, Repr

namespace Analysis

def engineLabel (pattern : Bytes) : Bytes :=
  match Matcher.make pattern .auto with
  | .error _ => "Invalid"
  | .ok m =>
    match m.engine with
    | .automaton => "RE2"
    | .backtracking => "Backtracking"

def labels (fs : List Feature) : List Bytes :=
  if fs.isEmpty then [Bytes.ofString "Simple"] else fs.map (·.label)

def ofTree (tree : Element) (pattern : Bytes) : Analysis where
  pattern := pattern
  featureLabels := labels tree.features
  engineLabels := [engineLabel pattern]
  commands := tree.countWhere (!·.isLiteral)
  literals := tree.countWhere (·.isLiteral)
  depth := tree.depth
  captureGroups := tree.countWhere fun e => !e.isLiteral && e.value == groupName
  hasBackrefs := 0 < tree.countWhere fun e => !e.isLiteral && e.value == referenceName
  hasCatastrophicRisk := tree.hasNestedQuantifiers
  hasRepeatingCaptures := tree.hasRepeatingCaptures
  isAnchored := tree.isAnchored

def run (source : Bytes) : Except Fault Analysis := do
  let c ← Compilation.run source
  return ofTree c.tree.normalize c.pattern

def bracketed (words : List Bytes) : Bytes :=
  Bytes.ofString "[" ++ Bytes.join (Bytes.ofString " ") words ++ Bytes.ofString "]"

/-- The account of an analysis, message by message, after that of the compilation. -/
def account (source : Bytes) : List Bytes :=
  Compilation.account source ++
    match run source with
    | .error _ => []
    | .ok a =>
      [Compilation.heading (Bytes.ofString "Analysis"),
        Bytes.ofString "Feature labels: " ++ bracketed a.featureLabels,
        Bytes.ofString "Engine labels: " ++ bracketed a.engineLabels,
        Bytes.ofString "Has nested quantifiers: " ++ Bytes.ofBool a.hasCatastrophicRisk,
        Bytes.ofString "Has repeating captures: " ++ Bytes.ofBool a.hasRepeatingCaptures,
        Bytes.ofString "Is anchored: " ++ Bytes.ofBool a.isAnchored]

end Analysis

end VerboseExpr
