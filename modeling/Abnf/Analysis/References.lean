import Abnf.Fault
import Abnf.Rule

/-!
# References between rules

Which rules a rule refers to, directly or through others, and how often.
-/

namespace Abnf.References

/-- The rules that a rule refers to, one entry per reference. -/
def targets (rule : Rule) : List Nat :=
  rule.opcodes.toList.filterMap fun op =>
    match op with
    | .rnm target => some target
    | _ => none

/-- The references of every rule; all have to be rules of the table. -/
def graph (rules : Array Rule) : Except Fault (Array (List Nat)) :=
  if rules.all fun rule => (targets rule).all fun target => target < rules.size then
    .ok (rules.map targets)
  else
    .error .outOfRange

/-- The references of one rule. -/
def successors (graph : Array (List Nat)) (rule : Nat) : List Nat :=
  graph[rule]?.getD []

/-- Adds the rules in `todo` and all they reach to `seen`. Every step takes one rule off `todo`,
and only a rule seen for the first time puts its references there, so `budget` need not exceed
the number of references by more than the length of `todo`. -/
def collect (graph : Array (List Nat)) : (budget : Nat) → (todo seen : List Nat) → List Nat
  | 0, _, seen => seen
  | _ + 1, [], seen => seen
  | budget + 1, rule :: todo, seen =>
    if seen.contains rule then
      collect graph budget todo seen
    else
      collect graph budget (successors graph rule ++ todo) (rule :: seen)

/-- A rule and all the rules it reaches. -/
def closure (graph : Array (List Nat)) (rule : Nat) : List Nat :=
  collect graph (graph.foldl (fun count refs => count + refs.length) 2) [rule] []

/-- How often each rule is referred to from a rule and the rules it reaches. -/
def counts (graph : Array (List Nat)) (rule : Nat) : Array Nat :=
  ((closure graph rule).flatMap (successors graph)).foldl
    (fun counts target => counts.modify target (· + 1)) (Array.replicate graph.size 0)

end Abnf.References
