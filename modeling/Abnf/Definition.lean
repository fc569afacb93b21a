import Abnf.Expr
import Abnf.Forest
import Abnf.Metagrammar.Recognition

/-!
# Definitions

The definition lines of a grammar text, read from the phrases that recognition recorded. Names are
still names and numerals still digits here; each keeps the offset that a diagnostic about it
points to.
-/

namespace Abnf

open Metagrammar

/-- The text of some bytes, each of which is one ASCII character. -/
def Source.phrase (source : Source) (offset length : Nat) : String :=
  String.ofList ((source.bytes.extract offset (offset + length)).toList.map fun byte =>
    Char.ofNat byte.toNat)

/-! ## Numerals -/

/-- Digits of some base, as written. -/
structure Numeral where
  offset : Nat
  digits : String
  base : Nat
  deriving Repr, DecidableEq

/-- The value of a digit; letters count on from ten. -/
def digitValue (digit : Char) : Nat :=
  if digit.isDigit then digit.toNat - '0'.toNat else digit.toLower.toNat - 'a'.toNat + 10

/-- The number that some digits stand for. -/
def valueOfDigits (base : Nat) (digits : List Char) : Nat :=
  digits.foldl (fun value digit => value * base + digitValue digit) 0

namespace Numeral

/-- The number a numeral stands for. -/
def toNat (numeral : Numeral) : Nat :=
  valueOfDigits numeral.base numeral.digits.toList

/-- Whether the number fits in 32 bits. -/
def fits (numeral : Numeral) : Bool :=
  numeral.toNat < UInt32.size

/-- The number as a 32-bit word; one that does not fit counts as zero. -/
def word (numeral : Numeral) : UInt32 :=
  if numeral.fits then numeral.toNat.toUInt32 else 0

end Numeral

/-! ## Atoms -/

/-- A leaf or a governing operator of a definition, before names are looked up. -/
inductive Atom where
  /-- An opcode that needs nothing else. -/
  | plain (op : Opcode)
  /-- The name of a rule. -/
  | ruleName (offset : Nat) (name : String)
  /-- The name of a user-defined terminal. -/
  | udtName (name : String) (empty : Bool)
  /-- A back-reference to a rule or a user-defined terminal. -/
  | backReference (offset : Nat) (name : String) (caseInsensitive : Bool)
  /-- A repetition with an optional lower and an optional upper bound. -/
  | repetition (offset : Nat) (min max : Option Numeral)
  /-- A repetition of an exact number of times. -/
  | exactly (count : Numeral)
  /-- Characters given by numerals. -/
  | string (chars : List Numeral)
  /-- A range of characters given by numerals. -/
  | range (offset : Nat) (min max : Numeral)
  deriving Repr, DecidableEq

namespace Atom

variable (source : Source)

/-- A phrase read as a numeral. -/
def numeral (base : Nat) (node : Node) : Numeral :=
  ⟨node.offset, source.phrase node.offset node.length, base⟩

/-- The bytes between the delimiters of a quoted phrase. -/
def quoted (node : Node) : List UInt8 :=
  (source.bytes.extract (node.offset + 1) (node.offset + node.length - 1)).toList

/-- The symbol of a phrase. -/
def symbol? (node : Node) : Option Symbol :=
  Symbol.ofIndex? node.rule

/-- The numeral of the first child that has the given symbol. -/
def bound? (node : Node) (symbol : Symbol) : Option Numeral :=
  (node.children.find? fun child => symbol? child = some symbol).map (numeral source 10)

/-- The base of the numerals that a symbol stands for. -/
def baseOf : Symbol → Nat
  | .xString | .xmin | .xmax => 16
  | .bString | .bmin | .bmax => 2
  | _ => 10

/-- A phrase read as a numeral of its symbol's base. -/
def numeralOf (node : Node) : Numeral :=
  numeral source ((symbol? node).elim 10 baseOf) node

/-- The operator that a phrase stands for, if it governs what follows. An open option bracket
governs the alternatives after it. -/
def operator? (node : Node) : Option Atom :=
  match symbol? node with
  | some .andOp => some (.plain .and)
  | some .notOp => some (.plain .not)
  | some .bkaOp => some (.plain .bka)
  | some .bknOp => some (.plain .bkn)
  | some .optionOpen => some (.plain (.rep 0 (some 1)))
  | some .repOp =>
    match bound? source node .repMinMax with
    | some count => some (.exactly count)
    | none =>
      some (.repetition node.offset (bound? source node .repMin) (bound? source node .repMax))
  | _ => none

/-- The leaf that a phrase stands for. A case-sensitive string without characters is the empty
literal. -/
def leaf? (node : Node) : Option Atom :=
  match symbol? node with
  | some .abgOp => some (.plain .abg)
  | some .aenOp => some (.plain .aen)
  | some .rnmOp => some (.ruleName node.offset (source.phrase node.offset node.length))
  | some .udtEmpty => some (.udtName (source.phrase node.offset node.length) true)
  | some .udtNonEmpty => some (.udtName (source.phrase node.offset node.length) false)
  | some .bkrOp =>
    let isName := fun child => decide (symbol? child = some Symbol.bkrName)
    let isCaseSensitive := fun child => decide (symbol? child = some Symbol.bkrCs)
    let name := (node.children.find? isName).elim "" fun child =>
      source.phrase child.offset child.length
    some (.backReference node.offset name !(node.children.any isCaseSensitive))
  | some .tlsOp =>
    some (.plain (.tls ((quoted source node).map fun byte => (Engine.lowerByte byte).toUInt32)))
  | some .clsOp =>
    let chars := (quoted source node).map UInt8.toUInt32
    some (.plain (if chars.isEmpty then .tls chars else .tbs chars))
  | some .tbsOp => some (.string (node.children.map (numeralOf source)))
  | some .trgOp =>
    match node.children with
    | [min, max] => some (.range node.offset (numeralOf source min) (numeralOf source max))
    | _ => none
  | _ => none

end Atom

/-! ## Definition lines -/

/-- One definition line: a name and the alternatives given to it, by "=" or, if `incremental`, by
"=/". -/
structure Definition where
  offset : Nat
  name : String
  incremental : Bool
  alternatives : List (Expr Atom)

namespace Definition

variable (source : Source)

mutual

/-- Reads the parts of an element: governing operators, then what they govern. -/
def readElement : List Node → Option (Expr Atom)
  | [] => none
  | node :: rest =>
    match Atom.operator? source node with
    | some operator =>
      match readElement rest with
      | some operand => some (.under operator operand)
      | none => some (.atom operator)
    | none => readOperand node

/-- Reads what can be governed: alternatives in brackets, or a leaf. -/
def readOperand : Node → Option (Expr Atom)
  | .mk rule offset length children =>
    if Symbol.ofIndex? rule = some .alternation then
      some (.alt (readAlternatives children))
    else
      (Atom.leaf? source (.mk rule offset length children)).map .atom

/-- Reads the element that a phrase holds. -/
def elementOf : Node → Option (Expr Atom)
  | .mk _ _ _ children => readElement children

/-- Reads the elements of one alternative. -/
def readElements : List Node → List (Expr Atom)
  | [] => []
  | node :: rest =>
    match elementOf node with
    | some element => element :: readElements rest
    | none => readElements rest

/-- Reads the alternative that a phrase holds. -/
def alternativeOf : Node → Expr Atom
  | .mk _ _ _ children => .cat (readElements children)

/-- Reads alternatives. -/
def readAlternatives : List Node → List (Expr Atom)
  | [] => []
  | node :: rest => alternativeOf node :: readAlternatives rest

end

/-- Reads a definition line. -/
def ofNode? (node : Node) : Option Definition :=
  match node.children with
  | [lookup, body] =>
    match lookup.children with
    | [name, sign] =>
      some
        { offset := name.offset
          name := source.phrase name.offset name.length
          incremental := decide (Atom.symbol? sign = some .incAlt)
          alternatives := readAlternatives source body.children }
    | _ => none
  | _ => none

/-- The definition lines among recorded phrases, in order. -/
def ofForest (forest : List Node) : List Definition :=
  (forest.flatMap Node.children).filterMap (ofNode? source)

/-- The form of the name that is compared. -/
def lower (definition : Definition) : String :=
  lowerName definition.name

/-- The atoms of a definition, from left to right. -/
def atoms (definition : Definition) : List Atom :=
  Expr.atomsAll definition.alternatives

end Definition

end Abnf
