import Abnf.Analysis.Phrases
import Abnf.Analysis.Recursion

/-!
# Passes that see less

What a walk remembers of earlier walks only spares it work. To say so, the passes are given a view
through which their walks look at what they know. A view may hide what is remembered. It shows the
rest as it is, and what is written goes past it. The passes themselves are those that see all.
-/

namespace Abnf

namespace Walk

/-- The plan that looks at what it knows through a view. -/
def Plan.through {σ : Type} (plan : Plan σ) (view : σ → σ) : Plan σ :=
  { plan with known? := fun path rule state => plan.known? path rule (view state) }

/-- All that is seen is in the memory. -/
def IsPart (seen memory : Memo) : Prop :=
  ∀ (path : List Nat) a, seen[path]? = some a → memory[path]? = some a

end Walk

namespace Phrases

open Walk

/-- A view that shows what is recorded, and a part of what is remembered. -/
structure Restricts (view : State → State) : Prop where
  attributes : ∀ state, (view state).attributes = state.attributes
  complete : ∀ state, (view state).complete = state.complete
  memo : ∀ state seen, (view state).memo = some seen →
    ∃ memory, state.memo = some memory ∧ IsPart seen memory

/-- The view in which nothing is remembered. -/
def forget (state : State) : State :=
  { state with memo := none }

theorem restricts_id : Restricts id :=
  ⟨fun _ => rfl, fun _ => rfl, fun _ memory hmemory => ⟨memory, hmemory, fun _ _ h => h⟩⟩

theorem restricts_forget : Restricts forget :=
  ⟨fun _ => rfl, fun _ => rfl, nofun⟩

/-- Walks a rule that is reached by no path yet. -/
def walkRuleThrough (view : State → State) (rules : Array Rule) (state : State) (rule : Nat) :
    Except Fault State :=
  Prod.snd <$> start rules (plan.through view) rule state

/-- Walks a member of a group with a memory of its own; afterwards the member is final. -/
def walkMemberThrough (view : State → State) (rules : Array Rule) (state : State) (rule : Nat) :
    Except Fault State := do
  let state ← walkRuleThrough view rules { state with memo := some {} } rule
  return { state with complete := state.complete.setIfInBounds rule true }

/-- Finds which phrases the rules match, by walks that look through a view. -/
def propagateThrough (view : State → State) (rules : Array Rule) (analysis : Analysis) :
    Except Fault Analysis := do
  let state : State :=
    ⟨analysis.attributes, Array.replicate analysis.attributes.size false, none⟩
  let state ← (rulesOfKind analysis [.nonRecursive, .recursive]).foldlM
    (walkRuleThrough view rules) state
  let state ← analysis.groups.toList.flatten.foldlM (walkMemberThrough view rules) state
  let state ←
    (rulesOfKind analysis [.refersToGroup, .recursiveRefersToGroup]).foldlM
      (walkRuleThrough view rules) { state with memo := none }
  return { analysis with attributes := state.attributes }

theorem propagateThrough_id : propagateThrough id = propagate := rfl

end Phrases

namespace Recursion

open Walk

/-- Finds where one rule recurs, by a walk that looks at its memory through a view. -/
def walkRuleThrough (view : Memo → Memo) (rules : Array Rule) (analysis : Analysis) (rule : Nat) :
    Except Fault Analysis := do
  let (found, _) ← start rules ((plan analysis rule).through view) rule {}
  return { analysis with
    attributes := analysis.attributes.modify rule fun recorded => recorded.withRecursion found }

/-- Finds where the recursive rules recur, by walks that look at their memory through a view. -/
def propagateThrough (view : Memo → Memo) (rules : Array Rule) (analysis : Analysis) :
    Except Fault Analysis :=
  let recursive := (List.range analysis.classes.size).filter fun rule =>
    analysis.classes[rule]?.any fun c => c.kind.isRecursive
  recursive.foldlM (walkRuleThrough view rules) analysis

theorem propagateThrough_id : propagateThrough id = propagate := rfl

end Recursion

end Abnf
