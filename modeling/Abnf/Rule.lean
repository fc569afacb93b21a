import Abnf.Opcode

/-!
# Rules

Rules and user-defined terminals. Names are case-insensitive: two names are the same name when
they agree after lowering their ASCII letters.
-/

namespace Abnf

/-- A name with its ASCII letters in lower case, the form in which names are compared. -/
def lowerName (name : String) : String :=
  name.map Char.toLower

/-- A named rule and its flat opcode tree. -/
structure Rule where
  name : String
  /-- The position that references to this rule use. -/
  index : Nat
  opcodes : Array Opcode
  deriving Repr, DecidableEq, Inhabited

/-- The form of the rule's name that is compared. -/
def Rule.lower (rule : Rule) : String :=
  lowerName rule.name

/-- A terminal that the application recognises itself; `empty` says whether it may match the
empty phrase. -/
structure Udt where
  name : String
  index : Nat
  empty : Bool
  deriving Repr, DecidableEq, Inhabited

/-- The form of the terminal's name that is compared. -/
def Udt.lower (udt : Udt) : String :=
  lowerName udt.name

/-- The number of opcodes of all rules together. -/
def opcodeCount (rules : Array Rule) : Nat :=
  rules.foldl (fun count rule => count + rule.opcodes.size) 0

end Abnf
