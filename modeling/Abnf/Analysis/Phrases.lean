import Abnf.Analysis.Classes
import Abnf.Analysis.Walk

/-!
# Which phrases rules match

Finds for every rule whether it matches some finite phrase, the empty phrase, and a phrase that is
not empty. Rules outside all groups that reach no group come first and are final once they have
been walked. What a member of a group counts for depends on the path into the group, so every
member is walked on its own, with a memory of its own. The rules that reach groups come last.
-/

namespace Abnf.Phrases

open Walk

/-- What the pass knows while it runs. -/
structure State where
  attributes : Array Attributes
  /-- The rules whose attributes are final. -/
  complete : Array Bool
  /-- Results by path; only walks that start in a group keep them. -/
  memo : Option Memo

/-- The walks of the pass. A rule that is open or complete counts for what is recorded of it. -/
def plan : Plan State where
  known? path rule state := do
    let recorded ← fetch state.attributes rule
    if path.contains rule || state.complete[rule]?.getD false then
      return some recorded.phrasePart
    else
      return state.memo.bind fun memo => memo[rule :: path]?
  leave path rule attributes state :=
    { attributes := state.attributes.modify rule fun recorded => recorded.withPhrases attributes
      complete := if state.memo.isNone then state.complete.setIfInBounds rule true
        else state.complete
      memo := state.memo.map fun memo => memo.insert (rule :: path) attributes }

/-- Walks a rule that is reached by no path yet. -/
def walkRule (rules : Array Rule) (state : State) (rule : Nat) : Except Fault State :=
  Prod.snd <$> start rules plan rule state

/-- Walks a member of a group with a memory of its own; afterwards the member is final. -/
def walkMember (rules : Array Rule) (state : State) (rule : Nat) : Except Fault State := do
  let state ← walkRule rules { state with memo := some {} } rule
  return { state with complete := state.complete.setIfInBounds rule true }

/-- The rules of the given kinds, in order. -/
def rulesOfKind (analysis : Analysis) (kinds : List Kind) : List Nat :=
  (List.range analysis.classes.size).filter fun rule =>
    analysis.classes[rule]?.any fun c => kinds.contains c.kind

/-- Finds which phrases the rules match. -/
def propagate (rules : Array Rule) (analysis : Analysis) : Except Fault Analysis := do
  let state : State :=
    ⟨analysis.attributes, Array.replicate analysis.attributes.size false, none⟩
  let state ← (rulesOfKind analysis [.nonRecursive, .recursive]).foldlM (walkRule rules) state
  let state ← analysis.groups.toList.flatten.foldlM (walkMember rules) state
  let state ←
    (rulesOfKind analysis [.refersToGroup, .recursiveRefersToGroup]).foldlM (walkRule rules)
      { state with memo := none }
  return { analysis with attributes := state.attributes }

end Abnf.Phrases
