import Abnf.Cache.Payload

/-!
# Valid payloads

A payload is valid when what it says about itself is so, every index in it stays within its table,
and the groups that rules claim to be in are those that list them.
-/

namespace Abnf.Cache

/-! ## Flaws -/

/-- What can be wrong with an opcode. -/
inductive OpcodeFlaw where
  | noChildren
  | childRange (child size : Nat)
  | repetitionBounds (min max : UInt32)
  | rangeBounds (min max : UInt32)
  | ruleRange (index count : Nat)
  | udtRange (index count : Nat)
  | backReferenceRange (index count : Nat)
  | noOperand
  deriving Repr, DecidableEq

/-- The message of a flaw of an opcode. -/
def OpcodeFlaw.message : OpcodeFlaw → String
  | noChildren => "ALT/CAT with no children"
  | childRange child size => s!"child {child} out of bounds (max {size})"
  | repetitionBounds min max => s!"REP min {min} greater than max {max}"
  | rangeBounds min max => s!"TRG min {min} greater than max {max}"
  | ruleRange index count => s!"rule index {index} out of bounds (max {count})"
  | udtRange index count => s!"udt index {index} out of bounds (max {count})"
  | backReferenceRange index count => s!"back reference {index} out of bounds (max {count})"
  | noOperand => "operator has no following opcode"

/-- What can be wrong with a payload. -/
inductive PayloadFlaw where
  | ruleCount (said found : Nat)
  | udtCount (said found : Nat)
  | opcodeCount (said found : Nat)
  | digest
  | noOpcodes (rule : String)
  | opcode (rule : String) (position : Nat) (flaw : OpcodeFlaw)
  | findingCount (found rules : Nat)
  | countRow (rule : String) (found rules : Nat)
  | wrongGroup (rule : String) (group : Nat)
  | noGroup (rule : String)
  | noMember (group rule : Nat)
  deriving Repr, DecidableEq

/-- The message of a flaw of a payload. -/
def PayloadFlaw.message : PayloadFlaw → String
  | ruleCount said found => s!"metadata says {said} rules but payload has {found}"
  | udtCount said found => s!"metadata says {said} udts but payload has {found}"
  | opcodeCount said found => s!"metadata says {said} opcodes but payload has {found}"
  | digest => "source text does not match its digest"
  | noOpcodes rule => "rule '" ++ rule ++ "' has no opcodes"
  | opcode rule position flaw =>
    "rule '" ++ rule ++ s!"' opcode {position}: " ++ flaw.message
  | findingCount found rules => s!"analysis has {found} entries but {rules} rules exist"
  | countRow rule found rules =>
    "rule '" ++ rule ++ s!"' has {found} reference counts but {rules} rules exist"
  | wrongGroup rule group =>
    "rule '" ++ rule ++ s!"' has invalid mutual recursion group {group}"
  | noGroup rule => "mutually recursive rule '" ++ rule ++ "' has no group"
  | noMember group rule =>
    s!"mutual recursion group {group} lists rule {rule} which is not a member"

/-! ## Checks -/

/-- The objection `flaw`, unless `b` holds. -/
def unless? {α : Type} (b : Bool) (flaw : α) : Option α :=
  if b then none else some flaw

/-- The flaw of what an opcode carries, in a rule of `size` opcodes of a grammar with the given
numbers of rules and user-defined terminals. -/
def contentFlaw? (rules udts size : Nat) : Opcode → Option OpcodeFlaw
  | .alt children | .cat children =>
    if children.isEmpty then some .noChildren
    else (children.find? fun child => size ≤ child).map (.childRange · size)
  | .rep min (some max) => unless? (min ≤ max) (.repetitionBounds min max)
  | .trg min max => unless? (min ≤ max) (.rangeBounds min max)
  | .rnm index => unless? (index < rules) (.ruleRange index rules)
  | .udt index _ => unless? (index < udts) (.udtRange index udts)
  | .bkr index toUdt _ =>
    let count := if toUdt then udts else rules
    unless? (index < count) (.backReferenceRange index count)
  | _ => none

/-- The flaw of the opcode at a position of a rule. -/
def opcodeFlaw? (rules udts size position : Nat) (op : Opcode) : Option OpcodeFlaw :=
  (contentFlaw? rules udts size op).or
    (unless? (!op.governsNext || position + 1 < size) .noOperand)

/-- The objection to a count that is not the number found. -/
def miscount? (flaw : Nat → Nat → PayloadFlaw) (said found : Nat) : Option PayloadFlaw :=
  unless? (said == found) (flaw said found)

namespace Payload

/-- The number of opcodes of all rules together. -/
def totalOpcodes (payload : Payload) : Nat :=
  payload.rules.foldl (fun count rule => count + rule.2.length) 0

/-- The flaw of the counts. -/
def countFlaw? (payload : Payload) : Option PayloadFlaw :=
  (miscount? .ruleCount payload.ruleCount payload.rules.length).or <|
    (miscount? .udtCount payload.udtCount payload.udts.length).or <|
      miscount? .opcodeCount payload.opcodeCount payload.totalOpcodes

/-- The first flaw of the opcodes of a rule. -/
def ruleFlaw? (payload : Payload) (rule : String × List Opcode) : Option PayloadFlaw :=
  if rule.2.isEmpty then
    some (.noOpcodes rule.1)
  else
    rule.2.zipIdx.findSome? fun (op, position) =>
      (opcodeFlaw? payload.rules.length payload.udts.length rule.2.length position op).map
        (.opcode rule.1 position)

/-- The flaw of the class of a rule: just the rules in a group name one. -/
def classFlaw? (payload : Payload) (rule : String) (found : RuleClass) : Option PayloadFlaw :=
  (unless? (found.counts.size == payload.rules.length)
      (.countRow rule found.counts.size payload.rules.length)).or <|
    match found.group with
    | some group =>
      unless? (found.kind == .inGroup && group < payload.groups.length) (.wrongGroup rule group)
    | none => unless? (found.kind != .inGroup) (.noGroup rule)

/-- The group that the rule at a position claims to be in. -/
def groupOf? (payload : Payload) (rule : Nat) : Option Nat :=
  payload.findings[rule]?.bind fun finding => finding.1.group

/-- The flaw of a group: it lists only rules that claim to be in it. -/
def groupFlaw? (payload : Payload) (group : Nat) (members : List Nat) : Option PayloadFlaw :=
  (members.find? fun rule => payload.groupOf? rule != some group).map (.noMember group)

/-- The first flaw of a payload; nothing if it is valid. -/
def flaw? (hash : List UInt8 → Digest) (payload : Payload) : Option PayloadFlaw :=
  payload.countFlaw?.or <|
    (unless? (hash payload.source.toUTF8.data.toList == payload.digest) .digest).or <|
      (payload.rules.findSome? payload.ruleFlaw?).or <|
        (unless? (payload.findings.length == payload.rules.length)
            (.findingCount payload.findings.length payload.rules.length)).or <|
          ((payload.rules.zip payload.findings).findSome? fun (rule, finding) =>
              payload.classFlaw? rule.1 finding.1).or <|
            payload.groups.zipIdx.findSome? fun (members, group) =>
              payload.groupFlaw? group members

end Payload

end Abnf.Cache
