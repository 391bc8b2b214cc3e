import VerboseExpr.Analysis
import VerboseExpr.Proofs.Pattern.Operands

namespace VerboseExpr

namespace Command

def feature? : Command → Option Feature
  | start | finish => some .anchored
  | alternation => some .alternation
  | reference => some .backreference
  | group => some .captures
  | range | except => some .charClass
  | control => some .escapes
  | anyCharacter => some .wildcard
  | optional | oneOrMore | zeroOrMore | times | minTimes | minMaxTimes => some .quantifiers
  | concatenation => none

def isQuantifier : Command → Bool
  | optional | oneOrMore | zeroOrMore | times | minTimes | minMaxTimes => true
  | _ => false

def isUnbounded : Command → Bool
  | oneOrMore | zeroOrMore | minTimes => true
  | _ => false

end Command

/-- A table with the names of some commands, and no others. -/
def AreNames (names : List Bytes) (p : Command → Bool) : Prop :=
  ∀ v, names.contains v = (Command.ofName? v).any p

section Tables

theorem areNames_of {names : List Bytes} {p : Command → Bool}
    (hall : ∀ c ∈ Command.all, ∀ v ∈ c.names, names.contains v = p c)
    (hnames : ∀ v ∈ names, Command.ofName? v ≠ none) : AreNames names p := by
  intro v
  cases hc : Command.ofName? v with
  | none =>
    rw [Option.any_none, ← Bool.not_eq_true, List.contains_iff_mem]
    exact fun hmem => hnames v hmem hc
  | some c => exact hall c (List.mem_of_find?_eq_some hc) v (Pattern.mem_names_of_ofName? hc)

theorem areNames_quantifier : AreNames quantifierNames (·.isQuantifier) :=
  areNames_of (by decide) (by decide)

theorem areNames_unbounded : AreNames unboundedNames (·.isUnbounded) :=
  areNames_of (by decide) (by decide)

theorem areNames_anchor : AreNames anchorNames (· == .start) := areNames_of (by decide) (by decide)

theorem areNames_group : AreNames [groupName] (· == .group) := areNames_of (by decide) (by decide)

theorem areNames_reference : AreNames [referenceName] (· == .reference) :=
  areNames_of (by decide) (by decide)

theorem areNames_root : AreNames [Element.rootName] (· == .concatenation) :=
  areNames_of (by decide) (by decide)

theorem AreNames.beq {name : Bytes} {p : Command → Bool} (h : AreNames [name] p) (v : Bytes) :
    (v == name) = (Command.ofName? v).any p := by
  rw [← h v, List.contains_cons, List.contains_nil, Bool.or_false]

theorem Feature.ofName?_eq (v : Bytes) : ofName? v = (Command.ofName? v).bind (·.feature?) := by
  have hall : ∀ c ∈ Command.all, ∀ v ∈ c.names, ofName? v = c.feature? := by decide
  have hnames : ∀ x ∈ table, Command.ofName? x.1 ≠ none := by decide
  cases hc : Command.ofName? v with
  | none =>
    rw [Option.bind_none, ofName?, List.lookup_eq_none_iff]
    intro x hx
    rw [bne_iff_ne]
    rintro rfl
    exact hnames x hx hc
  | some c => exact hall c (List.mem_of_find?_eq_some hc) v (Pattern.mem_names_of_ofName? hc)

end Tables

namespace Element

def command? (e : Element) : Option Command :=
  if e.isCommand then Command.ofName? e.value else none

theorem command?_node {v : Bytes} {args : List Element} : (node .command v args).command? = Command.ofName? v := rfl

theorem command?_of_ne_command {k : Kind} (hk : k ≠ .command) (v : Bytes) (args : List Element) :
    (node k v args).command? = none := by
  unfold command? isCommand kind
  rw [if_neg (mt beq_iff_eq.1 hk)]

theorem isNamed_eq {names : List Bytes} {p : Command → Bool} (h : AreNames names p) (e : Element) :
    e.isNamed names = e.command?.any p := by
  unfold isNamed command?
  cases e.isCommand with
  | false => rfl
  | true => rw [Bool.true_and, h, if_pos rfl]

theorem hasRepeatingCaptures_eq (e : Element) :
    e.hasRepeatingCaptures = nests (·.command?.any (·.isQuantifier)) (·.command?.any (· == .group)) false e := by
  unfold hasRepeatingCaptures
  rw [funext (isNamed_eq areNames_quantifier), funext (isNamed_eq areNames_group)]

theorem hasNestedQuantifiers_eq (e : Element) :
    e.hasNestedQuantifiers = nests (·.command?.any (·.isUnbounded)) (·.command?.any (·.isUnbounded)) false e := by
  unfold hasNestedQuantifiers
  rw [funext (isNamed_eq areNames_unbounded)]

end Element

end VerboseExpr
