import Abnf.Opcode

/-!
# Faults

A fault is a broken promise of a table, not a mistake in the text being read: an index past the
end, a chain of redundant opcodes that closes on itself, an opcode the matcher has no meaning for.
Tables built from text never cause one; tables that come from elsewhere may.
-/

namespace Abnf

/-- What can go wrong when a table is not well formed. -/
inductive Fault where
  /-- An index points past the end of the table it is looked up in. -/
  | outOfRange
  /-- Following redundant opcodes from here never reaches one that stays. -/
  | unresolved (opcode : Nat)
  /-- The matcher has no meaning for this opcode. -/
  | notExecutable (opcode : Opcode)
  /-- The evaluation went deeper than any evaluation that ends. -/
  | exhausted
  deriving Repr, DecidableEq

namespace Fault

/-- The message of a fault. -/
def message : Fault → String
  | outOfRange => "index out of bounds"
  | unresolved opcode => s!"opcode {opcode} does not resolve to a surviving opcode"
  | notExecutable opcode =>
    "internal error: entered unreachable code: " ++ opcode.mnemonic ++
      " opcodes are not executed by the grammar engine"
  | exhausted => "evaluation does not end"

end Fault

/-- The entry of `table` at `index`, or the fault of looking past its end. -/
def fetch {α : Type} (table : Array α) (index : Nat) : Except Fault α :=
  match table[index]? with
  | some entry => .ok entry
  | none => .error .outOfRange

theorem fetch_eq_ok {α : Type} {table : Array α} {index : Nat} {entry : α} :
    fetch table index = .ok entry ↔ table[index]? = some entry := by
  unfold fetch
  split <;> simp_all

/-! ## Computations that succeed -/

theorem exists_of_bind_eq_ok {ε α β : Type} {x : Except ε α} {f : α → Except ε β} {b : β}
    (h : x >>= f = .ok b) : ∃ a, x = .ok a ∧ f a = .ok b := by
  cases x with
  | error => cases h
  | ok a => exact ⟨a, rfl, h⟩

theorem exists_of_map_eq_ok {ε α β : Type} {f : α → β} {x : Except ε α} {b : β}
    (h : f <$> x = .ok b) : ∃ a, x = .ok a ∧ f a = b := by
  cases x with
  | error => cases h
  | ok a => exact ⟨a, rfl, Except.ok.inj h⟩

theorem eq_ok_of_toOption {ε α : Type} {x : Except ε α} {a : α} (h : x.toOption = some a) :
    x = .ok a := by
  cases x with
  | error => cases h
  | ok => cases h; rfl

end Abnf
