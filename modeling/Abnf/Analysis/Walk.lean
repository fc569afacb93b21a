import Std.Data.HashMap
import Abnf.Analysis.Attributes
import Abnf.Expr
import Abnf.Fault
import Abnf.Rule

/-!
# Walks through rules

Attributes of a rule are found by walking through its expression and into the rules it refers to.
A walk never enters a rule that is open on its path, so the path never gets longer than the table;
what a reference to such a rule counts for, and what is remembered of a walk, is up to the walk.
-/

namespace Abnf.Walk

/-! ## Shapes -/

/-- The expression at `op` of a flat opcode tree, found within `depth` levels. Look-around
operators are leaves: their operands consume nothing. -/
def shapeAt (opcodes : Array Opcode) : (depth op : Nat) → Except Fault (Expr Opcode)
  | 0, _ => .error .exhausted
  | depth + 1, op => do
    match ← fetch opcodes op with
    | .alt children => Expr.alt <$> children.mapM (shapeAt opcodes depth)
    | .cat children => Expr.cat <$> children.mapM (shapeAt opcodes depth)
    | .rep min max => Expr.under (.rep min max) <$> shapeAt opcodes depth (op + 1)
    | leaf => .ok (.atom leaf)

/-- The expression of a rule. In a tree no path has more opcodes than the rule. -/
def shape (rule : Rule) : Except Fault (Expr Opcode) :=
  shapeAt rule.opcodes (rule.opcodes.size + 1) 0

/-! ## Attributes of expressions -/

variable {σ : Type}

mutual

/-- The attributes of an expression, where `visit` gives those of the rules it refers to. Every
part is visited, from left to right. -/
def attributesOf (visit : Nat → σ → Except Fault (Attributes × σ)) :
    Expr Opcode → σ → Except Fault (Attributes × σ)
  | .atom op, state =>
    match op with
    | .rnm rule => visit rule state
    | leaf => .ok (.ofLeaf leaf, state)
  | .alt es, state => do
    let (parts, state) ← attributesOfAll visit es state
    return (.alternation parts, state)
  | .cat es, state => do
    let (parts, state) ← attributesOfAll visit es state
    return (.concatenation parts, state)
  | .under op e, state => do
    let (a, state) ← attributesOf visit e state
    match op with
    | .rep min _ => return (a.repeated min, state)
    | leaf => return (.ofLeaf leaf, state)

/-- The attributes of several expressions. -/
def attributesOfAll (visit : Nat → σ → Except Fault (Attributes × σ)) :
    List (Expr Opcode) → σ → Except Fault (List Attributes × σ)
  | [], state => .ok ([], state)
  | e :: es, state => do
    let (a, state) ← attributesOf visit e state
    let (rest, state) ← attributesOfAll visit es state
    return (a :: rest, state)

end

/-! ## Walks -/

/-- What makes a walk: what is known of a rule without entering it, given the open rules
(innermost first), and what is remembered when the rule is left. -/
structure Plan (σ : Type) where
  known? : (path : List Nat) → (rule : Nat) → σ → Except Fault (Option Attributes)
  leave : (path : List Nat) → (rule : Nat) → Attributes → σ → σ

/-- The attributes of a rule that is reached along `path`, entering at most `depth` rules. -/
def visitRule (rules : Array Rule) (plan : Plan σ) :
    (depth : Nat) → (path : List Nat) → (rule : Nat) → σ → Except Fault (Attributes × σ)
  | 0, _, _, _ => .error .exhausted
  | depth + 1, path, rule, state => do
    match ← plan.known? path rule state with
    | some attributes => return (attributes, state)
    | none =>
      let e ← shape (← fetch rules rule)
      let (attributes, state) ←
        attributesOf (visitRule rules plan depth (rule :: path)) e state
      return (attributes, plan.leave path rule attributes state)

/-- The attributes of a rule from which a walk starts. -/
def start (rules : Array Rule) (plan : Plan σ) (rule : Nat) (state : σ) :
    Except Fault (Attributes × σ) :=
  visitRule rules plan (rules.size + 1) [] rule state

/-! ## Memory -/

/-- Results of earlier walks into a rule along the same path, the rule itself included. -/
abbrev Memo := Std.HashMap (List Nat) Attributes

end Abnf.Walk
