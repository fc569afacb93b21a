import Abnf.Grammar

/-!
# Summaries

How large a grammar is: how many rules, user-defined terminals and opcodes it has, how many
opcodes of each kind, and which characters its terminals use.
-/

namespace Abnf

/-- The size of a grammar. -/
structure Summary where
  rules : Nat
  udts : Nat
  opcodes : Nat
  /-- The number of opcodes of each kind, by mnemonic. -/
  kinds : List (String × Nat)
  /-- The smallest and the largest character of any terminal. -/
  characters : Option (UInt32 × UInt32)
  deriving Repr, DecidableEq

/-- The smallest and the largest character of a terminal; a range has its ends, and an empty
literal has neither. -/
def Opcode.characterBounds : Opcode → Option (UInt32 × UInt32)
  | tls chars | tbs chars => return (← chars.min?, ← chars.max?)
  | trg min max => some (min, max)
  | _ => none

/-- The smallest and the largest character of any terminal among some opcodes. -/
def characterBounds (ops : List Opcode) : Option (UInt32 × UInt32) :=
  let bounds := ops.filterMap Opcode.characterBounds
  return (← (bounds.map Prod.fst).min?, ← (bounds.map Prod.snd).max?)

namespace Summary

/-- The mnemonics in the order in which a summary lists them. -/
def order : List String :=
  ["ALT", "CAT", "RNM", "UDT", "BKR", "REP", "AND", "NOT", "BKA", "BKN", "ABG", "AEN", "TLS",
    "TBS", "TRG"]

/-- The summary of a grammar. -/
def ofGrammar (grammar : Grammar) : Summary :=
  let ops := grammar.rules.toList.flatMap fun rule => rule.opcodes.toList
  { rules := grammar.rules.size
    udts := grammar.udts.size
    opcodes := opcodeCount grammar.rules
    kinds := order.map fun name => (name, ops.countP fun op => op.mnemonic == name)
    characters := characterBounds ops }

/-- The number of opcodes with the mnemonic. -/
def count (summary : Summary) (mnemonic : String) : Nat :=
  (summary.kinds.lookup mnemonic).getD 0

/-- A line of a summary: the label ends in column 10. -/
def line (label : String) (n : Nat) : String :=
  String.ofList (List.replicate (10 - label.length) ' ') ++ label ++ s!" = {n}"

/-- The line that tells which characters are used. -/
def characterLine (summary : Summary) : String :=
  let bounds := match summary.characters with
    | some (min, max) => s!"characters = [{min} - {max}]"
    | none => "characters = [none defined]"
  if 0 < summary.count "UDT" then bounds ++ " + user defined" else bounds

/-- The lines of a summary. -/
def lines (summary : Summary) : List String :=
  [line "rules" summary.rules, line "udts" summary.udts, line "opcodes" summary.opcodes] ++
    summary.kinds.map (fun (name, n) => line name n) ++ [summary.characterLine]

/-- The text of a summary. -/
def text (summary : Summary) : String :=
  "\n".intercalate summary.lines

end Summary

end Abnf
