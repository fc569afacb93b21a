import Abnf.Opcode

/-!
# Expressions

Grammar expressions as trees, and their layout as a flat opcode list. The layout is in pre-order:
an opcode comes first, then its operands from left to right, so every child stands after its
parent and an operand of a governing operator stands right after it.
-/

namespace Abnf

/-- An expression whose leaves and governing operators are drawn from `α`. -/
inductive Expr (α : Type) where
  /-- A leaf. -/
  | atom (a : α)
  /-- A choice between expressions. -/
  | alt (es : List (Expr α))
  /-- A sequence of expressions. -/
  | cat (es : List (Expr α))
  /-- An operator that governs one operand. -/
  | under (operator : α) (operand : Expr α)
  deriving Inhabited

namespace Expr

variable {α β : Type}

/-! ## Size and atoms -/

mutual

/-- The number of nodes, which is the number of opcodes of the layout. -/
def size : Expr α → Nat
  | atom _ => 1
  | alt es => sizeAll es + 1
  | cat es => sizeAll es + 1
  | under _ e => size e + 1

/-- The number of nodes of several expressions. -/
def sizeAll : List (Expr α) → Nat
  | [] => 0
  | e :: es => size e + sizeAll es

end

mutual

/-- The leaves and governing operators, from left to right. -/
def atoms : Expr α → List α
  | atom a => [a]
  | alt es => atomsAll es
  | cat es => atomsAll es
  | under a e => a :: atoms e

/-- The leaves and governing operators of several expressions, from left to right. -/
def atomsAll : List (Expr α) → List α
  | [] => []
  | e :: es => atoms e ++ atomsAll es

end

mutual

/-- Replaces every leaf and governing operator. -/
def map (f : α → β) : Expr α → Expr β
  | atom a => atom (f a)
  | alt es => alt (mapAll f es)
  | cat es => cat (mapAll f es)
  | under a e => under (f a) (map f e)

/-- Replaces every leaf and governing operator of several expressions. -/
def mapAll (f : α → β) : List (Expr α) → List (Expr β)
  | [] => []
  | e :: es => map f e :: mapAll f es

end

/-! ## Layout -/

/-- The positions of expressions that are laid out one after the other from `start` on. -/
def starts (start : Nat) : List (Expr α) → List Nat
  | [] => []
  | e :: es => start :: starts (start + size e) es

mutual

/-- The opcodes of an expression whose root stands at position `start`. -/
def layoutFrom (start : Nat) : Expr Opcode → List Opcode
  | atom op => [op]
  | alt es => .alt (starts (start + 1) es) :: layoutAllFrom (start + 1) es
  | cat es => .cat (starts (start + 1) es) :: layoutAllFrom (start + 1) es
  | under op e => op :: layoutFrom (start + 1) e

/-- The opcodes of expressions laid out one after the other from `start` on. -/
def layoutAllFrom (start : Nat) : List (Expr Opcode) → List Opcode
  | [] => []
  | e :: es => layoutFrom start e ++ layoutAllFrom (start + size e) es

end

/-- The flat opcode tree of an expression. -/
def layout (e : Expr Opcode) : Array Opcode :=
  (layoutFrom 0 e).toArray

end Expr

end Abnf
