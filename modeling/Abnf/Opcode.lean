import Abnf.Decisions

/-!
# Opcodes

A rule is stored as a flat list of opcodes whose root is opcode 0. Choice and sequence list their
children by position in that same list; repetition and the look-around operators govern the
opcode right after them. References name a rule, or a user-defined terminal, by its position in
the grammar.
-/

namespace Abnf

open scoped Decisions

/-- One node of a rule's flat opcode tree. -/
inductive Opcode where
  /-- Ordered choice over the children. -/
  | alt (children : List Nat)
  /-- Sequence of the children. -/
  | cat (children : List Nat)
  /-- Repetition of the next opcode from `min` to `max` times, without bound if `max` is missing. -/
  | rep (min : UInt32) (max : Option UInt32)
  /-- Reference to a rule. -/
  | rnm (rule : Nat)
  /-- User-defined terminal; `empty` says whether it may match the empty phrase. -/
  | udt (index : Nat) (empty : Bool)
  /-- Positive look-ahead. -/
  | and
  /-- Negative look-ahead. -/
  | not
  /-- Positive look-behind. -/
  | bka
  /-- Negative look-behind. -/
  | bkn
  /-- Anchor at the beginning of the input. -/
  | abg
  /-- Anchor at the end of the input. -/
  | aen
  /-- Back-reference to the last phrase matched by a rule or a user-defined terminal. -/
  | bkr (index : Nat) (toUdt caseInsensitive : Bool)
  /-- Case-insensitive literal, stored in lower case. -/
  | tls (chars : List UInt32)
  /-- Literal matched exactly. -/
  | tbs (chars : List UInt32)
  /-- One character in an inclusive range. -/
  | trg (min max : UInt32)
  deriving Repr, DecidableEq, Inhabited

namespace Opcode

/-- The number that tells the kinds of opcode apart in listings. -/
def typeId : Opcode → Nat
  | alt _ => 1
  | cat _ => 2
  | rep .. => 3
  | rnm _ => 4
  | udt .. => 5
  | and => 6
  | not => 7
  | trg .. => 8
  | tls _ => 9
  | tbs _ => 10
  | bkr .. => 11
  | bka => 12
  | bkn => 13
  | abg => 14
  | aen => 15

/-- The three-letter name of an opcode's kind. -/
def mnemonic : Opcode → String
  | alt _ => "ALT"
  | cat _ => "CAT"
  | rep .. => "REP"
  | rnm _ => "RNM"
  | udt .. => "UDT"
  | and => "AND"
  | not => "NOT"
  | bka => "BKA"
  | bkn => "BKN"
  | abg => "ABG"
  | aen => "AEN"
  | bkr .. => "BKR"
  | tls _ => "TLS"
  | tbs _ => "TBS"
  | trg .. => "TRG"

/-- The children of a choice or a sequence; no other opcode lists any. -/
def children : Opcode → List Nat
  | alt cs | cat cs => cs
  | _ => []

/-- Whether the opcode applies to the opcode right after it. -/
def governsNext : Opcode → Bool
  | rep .. | and | not | bka | bkn => true
  | _ => false

/-- Decimal numbers separated by commas. -/
def commaList (numbers : List Nat) : String :=
  ",".intercalate (numbers.map toString)

/-- The text form of an opcode: its mnemonic and, in parentheses, what it carries. -/
def text (op : Opcode) : String :=
  match op with
  | alt cs | cat cs => op.mnemonic ++ "(" ++ commaList cs ++ ")"
  | rep min (some max) => s!"REP({min},{max})"
  | rep min none => s!"REP({min},inf)"
  | rnm rule => s!"RNM({rule})"
  | udt index empty => "UDT(" ++ toString index ++ (if empty then ",1)" else ",0)")
  | bkr index toUdt caseInsensitive =>
    "BKR(" ++ (if toUdt then "udt " else "rule ") ++ toString index ++
      (if caseInsensitive then ",%i)" else ",%s)")
  | tls chars | tbs chars => op.mnemonic ++ "(" ++ commaList (chars.map UInt32.toNat) ++ ")"
  | trg min max => s!"TRG({min},{max})"
  | and | not | bka | bkn | abg | aen => op.mnemonic

end Opcode

end Abnf
