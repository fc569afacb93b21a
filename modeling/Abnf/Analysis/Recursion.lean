import Abnf.Analysis.Classes
import Abnf.Analysis.Walk

/-!
# Where rules recur

Finds for every recursive rule whether it recurs into itself first, last, between other phrases,
or as its whole phrase. Each rule is the start of a walk of its own. Reaching the start again
counts for what is assumed of it; a rule that is open, or that cannot lead back to the start,
counts for its phrases only.
-/

namespace Abnf.Recursion

open Walk

/-- The walk that looks for ways back to `origin`. -/
def plan (analysis : Analysis) (origin : Nat) : Plan Memo where
  known? path rule memo := do
    let recorded ← fetch analysis.attributes rule
    let isOpen := path.contains rule
    if rule == origin && isOpen then
      return some recorded
    else if isOpen || !analysis.classes[rule]?.any (·.reaches origin) then
      return some recorded.phrasePart
    else
      return memo[rule :: path]?
  leave path rule attributes memo := memo.insert (rule :: path) attributes

/-- Finds where one rule recurs. -/
def walkRule (rules : Array Rule) (analysis : Analysis) (rule : Nat) : Except Fault Analysis := do
  let (found, _) ← start rules (plan analysis rule) rule {}
  return { analysis with
    attributes := analysis.attributes.modify rule fun recorded => recorded.withRecursion found }

/-- Finds where the recursive rules recur. -/
def propagate (rules : Array Rule) (analysis : Analysis) : Except Fault Analysis :=
  let recursive := (List.range analysis.classes.size).filter fun rule =>
    analysis.classes[rule]?.any fun c => c.kind.isRecursive
  recursive.foldlM (walkRule rules) analysis

end Abnf.Recursion
