import Abnf.Fault
import Abnf.Rule

/-!
# Reduction

A choice or a sequence of one child, and a repetition of exactly once, match just what their only
operand matches. Reduction drops them and leads every child index past the dropped opcodes to the
one that stays. Reducing a second time changes nothing.
-/

namespace Abnf.Reduction

/-- The only operand of a redundant opcode; nothing if the opcode at `index` stays. A repetition
that ends its table governs nothing and stays. -/
def soleChild (opcodes : Array Opcode) (index : Nat) : Option Nat :=
  match opcodes[index]? with
  | some (.alt [child]) | some (.cat [child]) => some child
  | some (.rep 1 (some 1)) => if index + 1 < opcodes.size then some (index + 1) else none
  | _ => none

/-- Numbers the entries that stay from `next` on, in order. -/
def renumber (next : Nat) : List Bool → List (Option Nat)
  | [] => []
  | true :: stays => some next :: renumber (next + 1) stays
  | false :: stays => none :: renumber next stays

/-- Whether each opcode stays. -/
def stays (opcodes : Array Opcode) : List Bool :=
  (List.range opcodes.size).map fun index => (soleChild opcodes index).isNone

/-- The new position of the opcode that the one at `index` stands for, found within `steps`
steps. -/
def resolve (opcodes : Array Opcode) (positions : Array (Option Nat)) :
    (steps : Nat) → (index : Nat) → Except Fault Nat
  | 0, index => .error (.unresolved index)
  | steps + 1, index => do
    match ← fetch positions index with
    | some position => .ok position
    | none =>
      match soleChild opcodes index with
      | some child => resolve opcodes positions steps child
      | none => .error (.unresolved index)

/-- Replaces the children of a choice or a sequence. -/
def redirect (f : Nat → Except Fault Nat) : Opcode → Except Fault Opcode
  | .alt children => Opcode.alt <$> children.mapM f
  | .cat children => Opcode.cat <$> children.mapM f
  | op => .ok op

/-- The opcodes of one rule without the redundant ones. -/
def reduceOpcodes (opcodes : Array Opcode) : Except Fault (Array Opcode) :=
  if (stays opcodes).all id then
    .ok opcodes
  else
    let positions := (renumber 0 (stays opcodes)).toArray
    let kept := (opcodes.toList.zip (stays opcodes)).filterMap fun (op, stay) =>
      if stay then some op else none
    List.toArray <$> kept.mapM (redirect (resolve opcodes positions opcodes.size))

/-- One rule without its redundant opcodes. -/
def reduceRule (rule : Rule) : Except Fault Rule := do
  return { rule with opcodes := ← reduceOpcodes rule.opcodes }

/-- Every rule without its redundant opcodes; rules keep their order and their positions. -/
def reduce (rules : Array Rule) : Except Fault (Array Rule) :=
  rules.mapM reduceRule

end Abnf.Reduction
