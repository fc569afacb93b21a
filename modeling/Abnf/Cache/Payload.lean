import Abnf.Cache.Wire
import Abnf.Grammar

/-!
# Payloads

What a cache holds of a grammar. Positions of rules and user-defined terminals are not written:
they follow from the order. Counts and a digest of the text are written besides, so that a
payload can be checked against itself.
-/

namespace Abnf.Cache

/-- The parts of a cached grammar, and what is said about them. -/
structure Payload where
  ruleCount : Nat
  udtCount : Nat
  opcodeCount : Nat
  /-- The digest of `source`. -/
  digest : Digest
  rules : List (String × List Opcode)
  udts : List (String × Bool)
  findings : List (RuleClass × Attributes)
  groups : List (List Nat)
  source : String
  deriving Repr, DecidableEq

namespace Payload

/-- The payload of a grammar, with digests taken by `hash`. -/
def ofGrammar (hash : List UInt8 → Digest) (grammar : Grammar) : Payload where
  ruleCount := grammar.rules.size
  udtCount := grammar.udts.size
  opcodeCount := Abnf.opcodeCount grammar.rules
  digest := hash grammar.source.toUTF8.data.toList
  rules := grammar.rules.toList.map fun rule => (rule.name, rule.opcodes.toList)
  udts := grammar.udts.toList.map fun udt => (udt.name, udt.empty)
  findings := grammar.analysis.classes.toList.zip grammar.analysis.attributes.toList
  groups := grammar.analysis.groups.toList
  source := grammar.source

/-- The grammar that a payload holds. -/
def toGrammar (payload : Payload) : Grammar where
  rules := (payload.rules.zipIdx.map fun ((name, opcodes), index) =>
    ⟨name, index, opcodes.toArray⟩).toArray
  udts := (payload.udts.zipIdx.map fun ((name, empty), index) => ⟨name, index, empty⟩).toArray
  analysis :=
    { classes := (payload.findings.map Prod.fst).toArray
      attributes := (payload.findings.map Prod.snd).toArray
      groups := payload.groups.toArray }
  source := payload.source

/-- Writes a payload. -/
def write (payload : Payload) : List UInt8 :=
  Varint.write payload.ruleCount ++ Varint.write payload.udtCount ++
    Varint.write payload.opcodeCount ++ writeDigest payload.digest ++
    writeList (fun (name, opcodes) => writeText name ++ writeList writeOpcode opcodes)
      payload.rules ++
    writeList (fun (name, empty) => writeText name ++ writeFlag empty) payload.udts ++
    writeList writeFinding payload.findings ++
    writeList (writeList Varint.write) payload.groups ++
    writeText payload.source

/-- Reads a payload. -/
def read : Reader Payload := do
  let ruleCount ← readIndex
  let udtCount ← readIndex
  let opcodeCount ← readIndex
  let digest ← readDigest
  let rules ← readList do return (← readText, ← readList readOpcode)
  let udts ← readList do return (← readText, ← readFlag)
  let findings ← readList readFinding
  let groups ← readList (readList readIndex)
  let source ← readText
  return { ruleCount, udtCount, opcodeCount, digest, rules, udts, findings, groups, source }

end Payload

end Abnf.Cache
