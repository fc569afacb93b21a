import Abnf.Analysis.Attributes
import Abnf.Analysis.References

/-!
# Classes of rules

Rules are told apart by how they recur: not at all, into themselves, or in a circle with other
rules. The circles are the groups: two rules are in one group when each reaches the other.
-/

namespace Abnf

/-- How a rule recurs. -/
inductive Kind where
  /-- Never reaches itself. -/
  | nonRecursive
  /-- Reaches itself, but in no circle with another rule. -/
  | recursive
  /-- In a group. -/
  | inGroup
  /-- Never reaches itself, but reaches a group. -/
  | refersToGroup
  /-- Reaches itself and a group that it is not in. -/
  | recursiveRefersToGroup
  deriving Repr, DecidableEq, Inhabited

namespace Kind

/-- Whether rules of this kind reach themselves. -/
def isRecursive : Kind → Bool
  | recursive | inGroup | recursiveRefersToGroup => true
  | nonRecursive | refersToGroup => false

/-- The short name of a kind. -/
def label : Kind → String
  | nonRecursive => "N"
  | recursive => "R"
  | inGroup => "MR"
  | refersToGroup => "NMR"
  | recursiveRefersToGroup => "RMR"

end Kind

/-- What classification finds out about a rule. -/
structure RuleClass where
  kind : Kind
  /-- The number of the rule's group. -/
  group : Option Nat
  /-- How often each rule is reached. -/
  counts : Array Nat
  deriving Repr, DecidableEq, Inhabited

namespace RuleClass

/-- The kind of the rule and, if it is in a group, the group's number. -/
def label (c : RuleClass) : String :=
  match c.group with
  | some group => c.kind.label ++ "(" ++ toString group ++ ")"
  | none => c.kind.label

/-- Whether the rule reaches rule `target`. -/
def reaches (c : RuleClass) (target : Nat) : Bool :=
  0 < c.counts[target]?.getD 0

/-- The rules that are reached, in order. -/
def references (c : RuleClass) : List Nat :=
  (List.range c.counts.size).filter c.reaches

end RuleClass

/-- Classes and attributes of the rules of a table, and the groups in order of their lowest
member. -/
structure Analysis where
  classes : Array RuleClass
  attributes : Array Attributes
  groups : Array (List Nat)
  deriving Repr, DecidableEq

namespace Analysis

/-! ## Groups -/

/-- Whether each of two rules reaches the other. -/
def inCircle (counts : Array (Array Nat)) (i j : Nat) : Bool :=
  let count := fun a b => (counts[a]?.getD #[])[b]?.getD 0
  0 < count i j && 0 < count j i

/-- The group that has `i` as its lowest member. -/
def groupFrom? (counts : Array (Array Nat)) (i : Nat) : Option (List Nat) :=
  let members := (List.range counts.size).filter fun j => j == i || inCircle counts i j
  if members.head? = some i ∧ 2 ≤ members.length then some members else none

/-- The groups, in order of their lowest member. -/
def findGroups (counts : Array (Array Nat)) : List (List Nat) :=
  (List.range counts.size).filterMap (groupFrom? counts)

/-! ## Classification -/

/-- The class of a rule, from its own counts and the groups of all rules. -/
def classOf (groups : List (List Nat)) (i : Nat) (counts : Array Nat) : RuleClass :=
  let reached := fun j => decide (0 < counts[j]?.getD 0)
  let kind :=
    if groups.any (·.contains i) then
      Kind.inGroup
    else
      match reached i, groups.any (·.any reached) with
      | false, false => .nonRecursive
      | true, false => .recursive
      | false, true => .refersToGroup
      | true, true => .recursiveRefersToGroup
  ⟨kind, groups.findIdx? (·.contains i), counts⟩

/-- The attributes that a rule has before any is computed: a recursive rule is taken to recur in
every way but nested. -/
def initialAttributes (kind : Kind) : Attributes :=
  { left := kind.isRecursive, right := kind.isRecursive, cyclic := kind.isRecursive, empty := true }

/-- Classifies the rules of a table. -/
def classify (rules : Array Rule) : Except Fault Analysis := do
  let graph ← References.graph rules
  let counts := (Array.range graph.size).map (References.counts graph)
  let groups := findGroups counts
  let classes := counts.mapIdx (classOf groups)
  return ⟨classes, classes.map fun c => initialAttributes c.kind, groups.toArray⟩

end Analysis

end Abnf
