import Abnf.Analysis.Classes
import Abnf.Cache.Varint

/-!
# Values as bytes

How flags, texts, lists and the parts of a grammar are written, and how they are read again. What
can be missing is led by a flag, what varies in length is led by its length, and each of several
forms is led by a number of its own.
-/

namespace Abnf.Cache

/-- Thirty-two bytes that stand for a text. -/
abbrev Digest :=
  Vector UInt8 32

/-! ## General values -/

/-- Writes a flag. -/
def writeFlag (flag : Bool) : List UInt8 :=
  [if flag then 1 else 0]

/-- Reads a flag, which is 0 or 1. -/
def readFlag : Reader Bool := do
  let byte ← readByte
  guard (byte ≤ 1)
  return byte == 1

/-- Writes what can be missing. -/
def writeOption {α : Type} (write : α → List UInt8) : Option α → List UInt8
  | none => writeFlag false
  | some a => writeFlag true ++ write a

/-- Reads what can be missing. -/
def readOption {α : Type} (read : Reader α) : Reader (Option α) := do
  if ← readFlag then return some (← read) else return none

/-- Writes a list. -/
def writeList {α : Type} (write : α → List UInt8) (as : List α) : List UInt8 :=
  Varint.write as.length ++ as.flatMap write

/-- Reads `count` values. -/
def readMany {α : Type} (read : Reader α) : (count : Nat) → Reader (List α)
  | 0 => return []
  | count + 1 => do return (← read) :: (← readMany read count)

/-- Reads a list. -/
def readList {α : Type} (read : Reader α) : Reader (List α) := do
  readMany read (← Varint.read .eight)

/-- Writes a text in UTF-8, after the number of its bytes. -/
def writeText (text : String) : List UInt8 :=
  Varint.write text.utf8ByteSize ++ text.toUTF8.data.toList

/-- Reads a text. -/
def readText : Reader String := do
  let bytes ← readBytes (← Varint.read .eight)
  String.fromUTF8? ⟨bytes.toArray⟩

/-- Writes a digest. -/
def writeDigest (digest : Digest) : List UInt8 :=
  digest.toList

/-- Reads a digest. -/
def readDigest : Reader Digest := fun bytes =>
  if h : 32 ≤ bytes.length then
    some (⟨(bytes.take 32).toArray, by simp [h]⟩, bytes.drop 32)
  else
    none

/-- Reads a number that fits in 32 bits. -/
def readWord : Reader UInt32 :=
  Nat.toUInt32 <$> Varint.read .four

/-- Reads a position in a table. -/
def readIndex : Reader Nat :=
  Varint.read .eight

/-- Writes a number that fits in 32 bits. -/
def writeWord (word : UInt32) : List UInt8 :=
  Varint.write word.toNat

/-! ## Opcodes -/

/-- Writes an opcode: the number of its kind and what it carries. -/
def writeOpcode : Opcode → List UInt8
  | .alt children => 0 :: writeList Varint.write children
  | .cat children => 1 :: writeList Varint.write children
  | .rep min max => 2 :: (writeWord min ++ writeOption writeWord max)
  | .rnm rule => 3 :: Varint.write rule
  | .udt index empty => 4 :: (Varint.write index ++ writeFlag empty)
  | .and => [5]
  | .not => [6]
  | .bka => [7]
  | .bkn => [8]
  | .abg => [9]
  | .aen => [10]
  | .bkr index toUdt caseInsensitive =>
    11 :: (Varint.write index ++ writeFlag toUdt ++ writeFlag caseInsensitive)
  | .tls chars => 12 :: writeList writeWord chars
  | .tbs chars => 13 :: writeList writeWord chars
  | .trg min max => 14 :: (writeWord min ++ writeWord max)

/-- Reads an opcode. -/
def readOpcode : Reader Opcode := do
  match ← Varint.read .four with
  | 0 => return .alt (← readList readIndex)
  | 1 => return .cat (← readList readIndex)
  | 2 => return .rep (← readWord) (← readOption readWord)
  | 3 => return .rnm (← readIndex)
  | 4 => return .udt (← readIndex) (← readFlag)
  | 5 => return .and
  | 6 => return .not
  | 7 => return .bka
  | 8 => return .bkn
  | 9 => return .abg
  | 10 => return .aen
  | 11 => return .bkr (← readIndex) (← readFlag) (← readFlag)
  | 12 => return .tls (← readList readWord)
  | 13 => return .tbs (← readList readWord)
  | 14 => return .trg (← readWord) (← readWord)
  | _ => failure

/-! ## Classes and attributes -/

/-- Writes how a rule recurs. -/
def writeKind : Kind → List UInt8
  | .nonRecursive => [0]
  | .recursive => [1]
  | .inGroup => [2]
  | .refersToGroup => [3]
  | .recursiveRefersToGroup => [4]

/-- Reads how a rule recurs. -/
def readKind : Reader Kind := do
  match ← Varint.read .four with
  | 0 => return .nonRecursive
  | 1 => return .recursive
  | 2 => return .inGroup
  | 3 => return .refersToGroup
  | 4 => return .recursiveRefersToGroup
  | _ => failure

/-- Writes attributes as seven flags. -/
def writeAttributes (a : Attributes) : List UInt8 :=
  [a.left, a.nested, a.right, a.cyclic, a.finite, a.empty, a.notEmpty].flatMap writeFlag

/-- Reads attributes. -/
def readAttributes : Reader Attributes := do
  return ⟨← readFlag, ← readFlag, ← readFlag, ← readFlag, ← readFlag, ← readFlag, ← readFlag⟩

/-- Writes the class and the attributes of a rule. -/
def writeFinding (finding : RuleClass × Attributes) : List UInt8 :=
  writeKind finding.1.kind ++ writeOption Varint.write finding.1.group ++
    writeAttributes finding.2 ++ writeList Varint.write finding.1.counts.toList

/-- Reads the class and the attributes of a rule. -/
def readFinding : Reader (RuleClass × Attributes) := do
  let kind ← readKind
  let group ← readOption readIndex
  let attributes ← readAttributes
  let counts ← readList (Varint.read .four)
  return (⟨kind, group, counts.toArray⟩, attributes)

end Abnf.Cache
