import Abnf.Cache.Blake3
import Abnf.Cache.Validity

/-!
# Caches

A compiled grammar as bytes, to be loaded again without compiling. A header of 32 bytes comes
first: four bytes that tell what the file is, the version of the format and that of the program
(two bytes each), four bytes of flags, which are not used yet, the length of the payload (four
bytes) and the first 16 bytes of the payload's digest. The payload follows.
-/

namespace Abnf.Cache

/-! ## Header -/

/-- The four bytes that every cache begins with. -/
def magic : List UInt8 :=
  [83, 65, 66, 78]

/-- The version of the format. -/
def formatVersion : Nat := 1

/-- The version of the program that writes the cache; no reader asks for it. -/
def programVersion : Nat := 1

/-- The length of the header. -/
def headerSize : Nat := 32

/-- The part of the digest that the header holds. -/
def checksum (hash : List UInt8 → Digest) (payload : List UInt8) : List UInt8 :=
  (hash payload).toList.take 16

/-- The header of a payload. -/
def header (hash : List UInt8 → Digest) (payload : List UInt8) : List UInt8 :=
  magic ++ littleEndian 2 formatVersion ++ littleEndian 2 programVersion ++ littleEndian 4 0 ++
    littleEndian 4 payload.length ++ checksum hash payload

/-! ## Saving and loading -/

/-- Why bytes are no cache. -/
inductive LoadError where
  | magic
  | version (found : Nat)
  | length (expected actual : Nat)
  | checksum
  | unreadable
  | invalid (flaw : PayloadFlaw)
  deriving Repr, DecidableEq

/-- The message of a failed load. -/
def LoadError.message : LoadError → String
  | magic => "not a sabnf binary: invalid magic bytes"
  | version found =>
    s!"incompatible format version: blob is v{found}, engine supports v{formatVersion}"
  | length expected actual =>
    s!"payload length mismatch: expected {expected} bytes, got {actual}"
  | checksum => "integrity check failed: BLAKE3 checksum mismatch"
  | unreadable => "failed to decode payload"
  | invalid flaw => "validation failed: " ++ flaw.message

/-- The bytes of a grammar. -/
def save (hash : List UInt8 → Digest) (grammar : Grammar) : List UInt8 :=
  let payload := (Payload.ofGrammar hash grammar).write
  header hash payload ++ payload

/-- `count` bytes from an offset on. -/
def slice (bytes : List UInt8) (offset count : Nat) : List UInt8 :=
  (bytes.drop offset).take count

/-- The payload of a cache, if its header is right. Bytes behind the payload are ignored. -/
def payloadOf (hash : List UInt8 → Digest) (bytes : List UInt8) :
    Except LoadError (List UInt8) := do
  if bytes.length < headerSize then
    throw (.length headerSize bytes.length)
  if slice bytes 0 4 ≠ magic then
    throw .magic
  let version := ofLittleEndian (slice bytes 4 2)
  if version ≠ formatVersion then
    throw (.version version)
  let length := ofLittleEndian (slice bytes 12 4)
  if bytes.length < headerSize + length then
    throw (.length length (bytes.length - headerSize))
  let payload := slice bytes headerSize length
  if checksum hash payload ≠ slice bytes 16 16 then
    throw .checksum
  return payload

/-- The grammar that a cache holds. -/
def load (hash : List UInt8 → Digest) (bytes : List UInt8) : Except LoadError Grammar := do
  match Payload.read (← payloadOf hash bytes) with
  | none => throw .unreadable
  | some (payload, _) =>
    match payload.flaw? hash with
    | some flaw => throw (.invalid flaw)
    | none => return payload.toGrammar

end Abnf.Cache

namespace Abnf.Grammar

/-- The bytes of a grammar, with BLAKE3 digests. -/
def toBytes (grammar : Grammar) : List UInt8 :=
  Cache.save Cache.Blake3.hash grammar

/-- The grammar that some bytes hold, with BLAKE3 digests. -/
def ofBytes (bytes : List UInt8) : Except Cache.LoadError Grammar :=
  Cache.load Cache.Blake3.hash bytes

end Abnf.Grammar
