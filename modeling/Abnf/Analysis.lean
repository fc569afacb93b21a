import Abnf.Analysis.Phrases
import Abnf.Analysis.Recursion

/-!
# Analysis of rule tables

Classification and both passes, and the faults that make a rule useless to a recursive-descent
matcher: it recurs before it has consumed anything, it matches no finite phrase, or it can stand
for itself alone.
-/

namespace Abnf

/-- What makes a rule useless to a recursive-descent matcher. -/
inductive RuleFault where
  | leftRecursive
  | infinite
  | cyclic
  deriving Repr, DecidableEq

/-- How messages name a rule fault. -/
def RuleFault.name : RuleFault → String
  | leftRecursive => "left recursive"
  | infinite => "infinite"
  | cyclic => "cyclic"

/-- A rule fault and the rule that has it. -/
structure FaultyRule where
  rule : String
  index : Nat
  fault : RuleFault
  deriving Repr, DecidableEq

/-- The one-line text of a rule fault. -/
def FaultyRule.text (faulty : FaultyRule) : String :=
  "rule '" ++ faulty.rule ++ "' is " ++ faulty.fault.name

/-- The faults that attributes show. -/
def Attributes.faults (a : Attributes) : List RuleFault :=
  (if a.left then [.leftRecursive] else []) ++ (if a.finite then [] else [.infinite]) ++
    (if a.cyclic then [.cyclic] else [])

namespace Analysis

/-! ## Questions about one rule -/

/-- How a rule recurs. -/
def kindAt (analysis : Analysis) (rule : Nat) : Except Fault Kind :=
  RuleClass.kind <$> fetch analysis.classes rule

/-- The kind of a rule with its group. -/
def labelAt (analysis : Analysis) (rule : Nat) : Except Fault String :=
  RuleClass.label <$> fetch analysis.classes rule

/-- The group of a rule, if it is in one. -/
def groupAt (analysis : Analysis) (rule : Nat) : Except Fault (Option Nat) :=
  RuleClass.group <$> fetch analysis.classes rule

/-- The rules that a rule reaches. -/
def referencesAt (analysis : Analysis) (rule : Nat) : Except Fault (List Nat) :=
  RuleClass.references <$> fetch analysis.classes rule

/-- The attributes of a rule. -/
def attributesAt (analysis : Analysis) (rule : Nat) : Except Fault Attributes :=
  fetch analysis.attributes rule

/-! ## All rules -/

/-- The faults of the rules of a table, in the order of the rules. -/
def faultyRules (analysis : Analysis) (rules : Array Rule) : List FaultyRule :=
  (rules.toList.zip analysis.attributes.toList).flatMap fun (rule, attributes) =>
    attributes.faults.map fun fault => ⟨rule.name, rule.index, fault⟩

/-- Classifies the rules of a table and finds all their attributes. -/
def analyze (rules : Array Rule) : Except Fault Analysis := do
  Recursion.propagate rules (← Phrases.propagate rules (← classify rules))

end Analysis

end Abnf
