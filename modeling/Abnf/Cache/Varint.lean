/-!
# Numbers of varying width

A number below 251 is one byte. A larger one is a marker byte, which tells how many bytes follow,
and the number in those bytes, lowest first: 251 for two bytes, 252 for four and 253 for eight.
A number may be read from a wider form than it needs, but never from one that is wider than the
field it stands in.
-/

namespace Abnf.Cache

/-- The lowest `width` bytes of a number, lowest first. -/
def littleEndian : (width : Nat) → Nat → List UInt8
  | 0, _ => []
  | width + 1, n => (n % 256).toUInt8 :: littleEndian width (n / 256)

/-- The number whose bytes are given, lowest first. -/
def ofLittleEndian : List UInt8 → Nat
  | [] => 0
  | byte :: bytes => byte.toNat + 256 * ofLittleEndian bytes

/-- Takes a value off the front of some bytes and leaves the rest; nothing if the bytes do not
begin with a value. -/
abbrev Reader (α : Type) :=
  StateT (List UInt8) Option α

/-- Takes `count` bytes. -/
def readBytes (count : Nat) : Reader (List UInt8) := fun bytes =>
  if count ≤ bytes.length then some (bytes.take count, bytes.drop count) else none

/-- Takes one byte. -/
def readByte : Reader UInt8
  | [] => none
  | byte :: bytes => some (byte, bytes)

/-- How many bytes the fields for numbers have. -/
inductive Width where
  | four
  | eight
  deriving Repr, DecidableEq

/-- The bytes of a field. -/
def Width.bytes : Width → Nat
  | four => 4
  | eight => 8

namespace Varint

/-- Writes a number. -/
def write (n : Nat) : List UInt8 :=
  if n < 251 then [n.toUInt8]
  else if n < UInt16.size then 251 :: littleEndian 2 n
  else if n < UInt32.size then 252 :: littleEndian 4 n
  else 253 :: littleEndian 8 n

/-- How many bytes follow a marker. -/
def follow? (marker : UInt8) : Option Nat :=
  if marker = 251 then some 2
  else if marker = 252 then some 4
  else if marker = 253 then some 8
  else none

/-- Reads a number for a field of the given width. -/
def read (width : Width) : Reader Nat := do
  let first ← readByte
  if first < 251 then
    return first.toNat
  let count ← follow? first
  guard (count ≤ width.bytes)
  return ofLittleEndian (← readBytes count)

end Varint

end Abnf.Cache
