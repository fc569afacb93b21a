import Std.Data.HashMap
import Abnf.Tables
import Abnf.Proofs.Engine.Records

/-!
# The translator

A text is turned into tables by one walk over its records. Every symbol calls the translator where its
phrase begins and where it is complete, and the translator pushes one opcode after the other onto the
rule that is being built. A choice or a sequence is pushed without children; the levels that are
open say which of them an element or an alternative that begins is added to. Names of rules are kept
as references, and the opcodes that wait for them are patched when the walk is over.

* `Translator`: what is remembered from call to call.
* `Translator.visit`: one call.
* `Translates`: the walk, step by step.
* `Walks.translates`: over the records of trees, the walk follows the trees.
-/

namespace Abnf

/-- Adds children to a choice or a sequence. -/
def Opcode.adopt (more : List Nat) : Opcode → Opcode
  | alt children => alt (children ++ more)
  | cat children => cat (children ++ more)
  | op => op

/-- Sets the bounds of a repetition that are given. -/
def Opcode.bound (min max : Option UInt32) : Opcode → Opcode
  | rep min' max' => rep (min.getD min') (max.or max')
  | op => op

namespace Translation

open Metagrammar

/-! ## The state -/

/-- How a line gives alternatives to its name. -/
inductive Sign where
  /-- "=": a new rule. -/
  | defined
  /-- "=/": more alternatives for an existing rule. -/
  | incremental
  deriving DecidableEq

/-- What a name is looked up as. -/
inductive ReferenceKind where
  | rule
  | backReference (caseInsensitive : Bool)

/-- A name that is used before all rules are known, and the opcode that waits for it. -/
structure Reference where
  rule : Nat
  opcode : Nat
  name : String
  offset : Nat
  kind : ReferenceKind

/-- The flaw of a reference to nothing. -/
def Reference.flaw (reference : Reference) : MeaningFlaw :=
  match reference.kind with
  | .rule => .undefinedRule reference.name
  | .backReference _ => .undefinedBackReference reference.name

/-- The choice that is filled at one level, and the sequence that was begun last inside it. -/
structure Level where
  choice : Nat
  sequence : Nat

/-- What the phrases within a leaf or an operator leave for the opcode that it becomes. -/
structure Registers where
  /-- The position of the repetition whose bounds are read. -/
  repetition : Nat := 0
  range : UInt32 × UInt32 := (0, 0)
  string : List UInt32 := []
  caseInsensitive : Bool := false
  backName : String := ""

/-- What is remembered from one call to the next. -/
structure Translator where
  rules : Array Rule := #[]
  udts : Array Udt := #[]
  ruleNames : Std.HashMap String Nat := {}
  udtNames : Std.HashMap String Nat := {}
  references : List Reference := []
  /-- Messages with their offsets, in the order found. -/
  flaws : List (Nat × String) := []
  ruleName : String := ""
  ruleOffset : Nat := 0
  sign : Option Sign := none
  /-- The rule that is being built. -/
  current : Option Nat := none
  /-- The open levels, innermost first. -/
  levels : List Level := []
  registers : Registers := {}

/-! ## Phrases -/

/-- What a phrase says; it is a fault to look past the end of the text. -/
def slice (source : Source) (offset length : Nat) : Except Fault String :=
  if offset + length ≤ source.bytes.size then .ok (source.phrase offset length)
  else .error .outOfRange

/-- The bytes between the delimiters of a quoted phrase. -/
def inside (source : Source) (offset length : Nat) : Except Fault (List UInt8) :=
  if length < 2 then .ok []
  else if offset + length - 1 ≤ source.bytes.size then
    .ok (source.bytes.extract (offset + 1) (offset + length - 1)).toList
  else .error .outOfRange

namespace Translator

variable (t : Translator)

/-! ## Opcodes -/

/-- Notes a flaw. -/
def note (offset : Nat) (message : String) : Translator :=
  { t with flaws := t.flaws ++ [(offset, message)] }

/-- Pushes an opcode onto the rule that is being built; the first result is its position. -/
def push (op : Opcode) : Except Fault (Nat × Translator) :=
  match t.current with
  | none => .ok (0, t)
  | some r => do
    let rule ← fetch t.rules r
    return (rule.opcodes.size, { t with
      rules := t.rules.modify r fun rule => { rule with opcodes := rule.opcodes.push op } })

/-- Pushes an opcode that nothing refers to by its position. -/
def emit (op : Opcode) : Except Fault Translator := do
  let (_, t) ← t.push op
  return t

/-- The position of the next opcode. -/
def nextIndex : Except Fault Nat :=
  match t.current with
  | none => .ok 0
  | some r => do
    let rule ← fetch t.rules r
    return rule.opcodes.size

/-- The opcode at a position of the rule that is being built, if there is one. -/
def opcode? (i : Nat) : Except Fault (Option Opcode) :=
  match t.current with
  | none => .ok none
  | some r => do
    let rule ← fetch t.rules r
    return rule.opcodes[i]?

/-- Changes the opcode at a position of the rule that is being built, if there is one. -/
def change (i : Nat) (f : Opcode → Opcode) : Except Fault Translator :=
  match t.current with
  | none => .ok t
  | some r => do
    let _ ← fetch t.rules r
    return { t with
      rules := t.rules.modify r fun rule => { rule with opcodes := rule.opcodes.modify i f } }

/-! ## Levels -/

/-- Opens a level. The alternatives of a line that extends a rule go to the choice at the root of the
rule. -/
def beginAlternation : Except Fault Translator :=
  if t.levels.isEmpty && t.sign == some .incremental then
    .ok { t with levels := [⟨0, 0⟩] }
  else do
    let (choice, t) ← t.push (.alt [])
    return { t with levels := ⟨choice, 0⟩ :: t.levels }

/-- Begins an alternative of the innermost level. -/
def beginConcatenation : Except Fault Translator :=
  match t.levels with
  | [] => .ok t
  | level :: levels => do
    let sequence ← t.nextIndex
    let t ← t.change level.choice (Opcode.adopt [sequence])
    let t ← t.emit (.cat [])
    return { t with levels := { level with sequence := sequence } :: levels }

/-- Begins an element of the alternative that was begun last. -/
def beginRepetition : Except Fault Translator :=
  match t.levels with
  | [] => .ok t
  | level :: _ => do
    let element ← t.nextIndex
    t.change level.sequence (Opcode.adopt [element])

/-! ## Names -/

/-- Enters the name of a line: as a new rule, or as the rule that is extended. A line to which there is
an objection has no sign any more, so its alternatives are passed over. -/
def enterRule : Translator :=
  let name := t.ruleName
  let t := { t with ruleName := "" }
  match t.sign, t.ruleNames[lowerName name]? with
  | some .defined, none =>
    { t with
      rules := t.rules.push ⟨name, t.rules.size, #[]⟩
      ruleNames := t.ruleNames.insert (lowerName name) t.rules.size
      current := some t.rules.size }
  | some .defined, some _ =>
    { t.note t.ruleOffset (MeaningFlaw.redefined name).message with sign := none }
  | some .incremental, some r => { t with current := some r }
  | some .incremental, none =>
    { t.note t.ruleOffset (MeaningFlaw.notYetDefined name).message with sign := none }
  | none, _ => t

/-- The position of a user-defined terminal, which is entered if its name is new. -/
def udt (name : String) (empty : Bool) (offset : Nat) : Except Fault (Nat × Translator) :=
  match t.udtNames[lowerName name]? with
  | some i => do
    let known ← fetch t.udts i
    if known.empty = empty then
      return (i, t)
    else
      return (i, t.note offset
        ("UDT name '" ++ name ++ "' previously used with a different empty flag."))
  | none =>
    .ok (t.udts.size, { t with
      udts := t.udts.push ⟨name, t.udts.size, empty⟩
      udtNames := t.udtNames.insert (lowerName name) t.udts.size })

/-- Keeps a name for the opcode at a position of the rule that is being built. -/
def refer (opcode : Nat) (name : String) (offset : Nat) (kind : ReferenceKind) : Translator :=
  match t.current with
  | none => t
  | some r => { t with references := t.references ++ [⟨r, opcode, name, offset, kind⟩] }

/-- The opcode that a reference stands for, if its name is known. A back-reference looks among the
user-defined terminals first. -/
def resolve (reference : Reference) : Option Opcode :=
  let name := lowerName reference.name
  match reference.kind with
  | .rule => t.ruleNames[name]?.map .rnm
  | .backReference caseInsensitive =>
    (t.udtNames[name]?.map fun i => .bkr i true caseInsensitive).or
      (t.ruleNames[name]?.map fun i => .bkr i false caseInsensitive)

/-- Looks a reference up, and patches the opcode that waits for it. -/
def patch (reference : Reference) : Except Fault Translator :=
  match t.resolve reference with
  | some op => do
    let rule ← fetch t.rules reference.rule
    let _ ← fetch rule.opcodes reference.opcode
    return { t with rules := t.rules.modify reference.rule fun rule =>
      { rule with opcodes := rule.opcodes.setIfInBounds reference.opcode op } }
  | none => .ok (t.note reference.offset reference.flaw.message)

/-- Looks all references up, in the order in which they were kept. -/
def resolveReferences : Except Fault Translator :=
  t.references.foldlM patch { t with references := [] }

/-! ## Numerals -/

/-- What a phrase counts as when it is read as a numeral. -/
def number (source : Source) (base offset length : Nat) : Except Fault (UInt32 × Translator) := do
  let digits ← slice source offset length
  let numeral : Numeral := ⟨offset, digits, base⟩
  return (numeral.word,
    if numeral.fits then t else t.note offset (MeaningFlaw.tooLarge digits).message)

/-- Sets the bounds that are given of the repetition that is being read. -/
def setBounds (min max : Option UInt32) : Except Fault Translator :=
  t.change t.registers.repetition (Opcode.bound min max)

/-- Notes a lower bound above the upper one, when the repetition has been read. -/
def endRepetition (offset : Nat) : Except Fault Translator := do
  match ← t.opcode? t.registers.repetition with
  | some (.rep min (some max)) =>
    return if max < min then t.note offset (MeaningFlaw.repetitionBounds min max).message else t
  | _ => return t

/-- Reads a character of a string. -/
def pushChar (source : Source) (base offset length : Nat) : Except Fault Translator := do
  let (char, t) ← t.number source base offset length
  return { t with registers := { t.registers with string := t.registers.string ++ [char] } }

/-- Reads the lower bound of a range. -/
def setLow (source : Source) (base offset length : Nat) : Except Fault Translator := do
  let (min, t) ← t.number source base offset length
  return { t with registers := { t.registers with range := (min, t.registers.range.2) } }

/-- Reads the upper bound of a range. -/
def setHigh (source : Source) (base offset length : Nat) : Except Fault Translator := do
  let (max, t) ← t.number source base offset length
  return { t with registers := { t.registers with range := (t.registers.range.1, max) } }

/-! ## Calls -/

/-- What a symbol does where its phrase begins, and where it is complete. -/
def call (source : Source) (offset length : Nat) : Symbol → Visit → Except Fault Translator
  | .file, .post => t.resolveReferences
  | .rule, .pre => .ok { t with levels := [], sign := none, current := none }
  | .ruleLookup, .post => .ok t.enterRule
  | .ruleName, .post => do
    let name ← slice source offset length
    return { t with ruleName := name, ruleOffset := offset }
  | .defined, .post => .ok { t with sign := some .defined }
  | .incAlt, .post => .ok { t with sign := some .incremental }
  | .alternation, .pre => t.beginAlternation
  | .alternation, .post => .ok { t with levels := t.levels.tail }
  | .concatenation, .pre => t.beginConcatenation
  | .repetition, .pre => t.beginRepetition
  | .optionOpen, .post => t.emit (.rep 0 (some 1))
  | .repOp, .pre => do
    let (i, t) ← t.push (.rep 0 none)
    return { t with registers := { t.registers with repetition := i } }
  | .repOp, .post => t.endRepetition offset
  | .repMin, .post => do
    let (min, t) ← t.number source 10 offset length
    t.setBounds (some min) none
  | .repMax, .post => do
    let (max, t) ← t.number source 10 offset length
    t.setBounds none (some max)
  | .repMinMax, .post => do
    let (count, t) ← t.number source 10 offset length
    t.setBounds (some count) (some count)
  | .andOp, .post => t.emit .and
  | .notOp, .post => t.emit .not
  | .bkaOp, .post => t.emit .bka
  | .bknOp, .post => t.emit .bkn
  | .abgOp, .post => t.emit .abg
  | .aenOp, .post => t.emit .aen
  | .bkrOp, .pre =>
    .ok { t with registers := { t.registers with caseInsensitive := true, backName := "" } }
  | .bkrOp, .post => do
    let caseInsensitive := t.registers.caseInsensitive
    let (i, t) ← t.push (.bkr 0 false caseInsensitive)
    let name := t.registers.backName
    let t := { t with registers := { t.registers with backName := "" } }
    return t.refer i name offset (.backReference caseInsensitive)
  | .bkrCs, .post => .ok { t with registers := { t.registers with caseInsensitive := false } }
  | .bkrCi, .post => .ok { t with registers := { t.registers with caseInsensitive := true } }
  | .bkrName, .post => do
    let name ← slice source offset length
    return { t with registers := { t.registers with backName := name } }
  | .rnmOp, .post => do
    let (i, t) ← t.push (.rnm 0)
    let name ← slice source offset length
    return t.refer i name offset .rule
  | .udtEmpty, .post => do
    let name ← slice source offset length
    let (i, t) ← t.udt name true offset
    t.emit (.udt i true)
  | .udtNonEmpty, .post => do
    let name ← slice source offset length
    let (i, t) ← t.udt name false offset
    t.emit (.udt i false)
  | .tlsOp, .post => do
    let bytes ← inside source offset length
    t.emit (.tls (bytes.map fun byte => (Engine.lowerByte byte).toUInt32))
  | .clsOp, .post => do
    let bytes ← inside source offset length
    let string := bytes.map UInt8.toUInt32
    t.emit (if string.isEmpty then .tls string else .tbs string)
  | .tbsOp, .pre => .ok { t with registers := { t.registers with string := [] } }
  | .tbsOp, .post =>
    let string := t.registers.string
    { t with registers := { t.registers with string := [] } }.emit (.tbs string)
  | .dString, .post => t.pushChar source 10 offset length
  | .xString, .post => t.pushChar source 16 offset length
  | .bString, .post => t.pushChar source 2 offset length
  | .trgOp, .pre => .ok { t with registers := { t.registers with range := (0, 0) } }
  | .trgOp, .post =>
    let (min, max) := t.registers.range
    let t := if max < min then t.note offset (MeaningFlaw.rangeBounds min max).message else t
    t.emit (.trg min max)
  | .dmin, .post => t.setLow source 10 offset length
  | .xmin, .post => t.setLow source 16 offset length
  | .bmin, .post => t.setLow source 2 offset length
  | .dmax, .post => t.setHigh source 10 offset length
  | .xmax, .post => t.setHigh source 16 offset length
  | .bmax, .post => t.setHigh source 2 offset length
  | _, _ => .ok t


/-- What a call says about the phrases within. -/
inductive Action where
  | proceed
  /-- Go on behind the phrase, without the call at its end. -/
  | skip
  deriving DecidableEq

/-- One call, for a side of a phrase of a rule of the metagrammar. The alternatives of a line are
skipped if the line has no sign. -/
def visit (source : Source) (rule : Nat) (side : Visit) (offset length : Nat) :
    Except Fault (Action × Translator) :=
  match Symbol.ofIndex? rule with
  | none => .ok (.proceed, t)
  | some symbol =>
    if symbol = .alternation ∧ side = .pre ∧ t.sign = none then
      .ok (.skip, t)
    else do
      let t ← t.call source offset length symbol side
      return (.proceed, t)

end Translator

/-! ## The walk -/

open Translator

/-- The walk over some records, begun at a position, comes to their end with `t'` when it has begun
with `t`. What follows a beginning that says so is skipped, up to the record that this one names as
its partner. -/
inductive Translates (source : Source) (records : Records) : Nat → Translator → Translator → Prop
  | done {i : Nat} {t : Translator} (h : records.size ≤ i) : Translates source records i t t
  | skip {i : Nat} {record : Record} {t t₁ t' : Translator} (hrecord : records[i]? = some record)
      (hvisit : t.visit source record.rule record.visit record.offset record.length = .ok (.skip, t₁))
      (hpre : record.visit = .pre) (hnext : Translates source records (record.partner + 1) t₁ t') :
      Translates source records i t t'
  | next {i : Nat} {record : Record} {action : Action} {t t₁ t' : Translator}
      (hrecord : records[i]? = some record)
      (hvisit : t.visit source record.rule record.visit record.offset record.length =
        .ok (action, t₁))
      (hproceed : ¬ (record.visit = .pre ∧ action = .skip))
      (hnext : Translates source records (i + 1) t₁ t') : Translates source records i t t'

/-- A walk comes to one end at most. -/
theorem Translates.unique {source : Source} {records : Records} {i : Nat} {t t' t'' : Translator}
    (h : Translates source records i t t') (h' : Translates source records i t t'') : t' = t'' := by
  induction h with
  | done hle =>
    cases h' with
    | done => rfl
    | skip hrecord | next hrecord => simp [Array.getElem?_eq_none hle] at hrecord
  | skip hrecord hvisit hpre _ ih =>
    cases h' with
    | done hle => simp [Array.getElem?_eq_none hle] at hrecord
    | skip hrecord' hvisit' _ hnext =>
      cases hrecord.symm.trans hrecord'
      cases hvisit.symm.trans hvisit'
      exact ih hnext
    | next hrecord' hvisit' hproceed =>
      cases hrecord.symm.trans hrecord'
      cases hvisit.symm.trans hvisit'
      exact absurd ⟨hpre, rfl⟩ hproceed
  | next hrecord hvisit hproceed _ ih =>
    cases h' with
    | done hle => simp [Array.getElem?_eq_none hle] at hrecord
    | skip hrecord' hvisit' hpre =>
      cases hrecord.symm.trans hrecord'
      cases hvisit.symm.trans hvisit'
      exact absurd ⟨hpre, rfl⟩ hproceed
    | next hrecord' hvisit' _ hnext =>
      cases hrecord.symm.trans hrecord'
      cases hvisit.symm.trans hvisit'
      exact ih hnext

/-! ## The walk over trees -/

/-- The walk over trees that stand one after the other: what is skipped hides all that is inside it
and its own end. -/
inductive Walks (source : Source) : List Node → Translator → Translator → Prop
  | nil {t : Translator} : Walks source [] t t
  | skip {rule offset length : Nat} {children nodes : List Node} {t t₁ t' : Translator}
      (hpre : t.visit source rule .pre offset length = .ok (.skip, t₁))
      (hnext : Walks source nodes t₁ t') :
      Walks source (.mk rule offset length children :: nodes) t t'
  | node {rule offset length : Nat} {children nodes : List Node} {action : Action}
      {t t₁ t₂ t₃ t' : Translator}
      (hpre : t.visit source rule .pre offset length = .ok (.proceed, t₁))
      (hchildren : Walks source children t₁ t₂)
      (hpost : t₂.visit source rule .post offset length = .ok (action, t₃))
      (hnext : Walks source nodes t₃ t') :
      Walks source (.mk rule offset length children :: nodes) t t'

namespace Walks

variable {source : Source} {nodes nodes' : List Node} {t t' t'' : Translator}

theorem append (h : Walks source nodes t t') (h' : Walks source nodes' t' t'') :
    Walks source (nodes ++ nodes') t t'' := by
  induction h with
  | nil => exact h'
  | skip hpre _ ih => exact .skip hpre (ih h')
  | node hpre hchildren hpost _ _ ih => exact .node hpre hchildren hpost (ih h')

theorem cons {node : Node} (h : Walks source [node] t t') (h' : Walks source nodes t' t'') :
    Walks source (node :: nodes) t t'' :=
  h.append h'

/-- The walk over the records of trees is the walk over the trees. -/
theorem translates (h : Walks source nodes t t') (before after : List Record) {last : Nat}
    (hlast : last = before.length + (Node.recordsAll before.length nodes).length)
    (hrest : Translates source (before ++ (Node.recordsAll before.length nodes ++ after)).toArray
      last t' t'') :
    Translates source (before ++ (Node.recordsAll before.length nodes ++ after)).toArray
      before.length t t'' := by
  induction h generalizing before after last with
  | nil => simpa [hlast, Node.recordsAll] using hrest
  | @skip rule offset length children nodes _ _ _ hpre _ ih =>
    let inner := Node.recordsAll (before.length + 1) children
    let later := Node.recordsAll (before.length +
      ((Node.mk rule offset length children).records before.length).length) nodes
    obtain ⟨hfirst, -⟩ := Records.getElem?_around before inner (later ++ after) rule offset length
    have hnext := @ih (before ++ (Node.mk rule offset length children).records before.length) after
      last
    simp only [Node.recordsAll, Node.records, List.length_append, List.length_cons, List.length_nil,
      List.cons_append, List.nil_append, List.append_assoc, Nat.zero_add, inner, later]
      at hfirst hlast hnext hrest ⊢
    refine .skip hfirst hpre rfl ?_
    convert hnext (by omega) hrest using 1
    dsimp only
    omega
  | @node rule offset length children nodes _ _ _ _ _ _ hpre _ hpost _ ihchildren ih =>
    let inner := Node.recordsAll (before.length + 1) children
    let later := Node.recordsAll (before.length +
      ((Node.mk rule offset length children).records before.length).length) nodes
    obtain ⟨hfirst, hend⟩ := Records.getElem?_around before inner (later ++ after) rule offset length
    have hnext := @ih (before ++ (Node.mk rule offset length children).records before.length) after
      last
    have hinner := @ihchildren (before ++ [⟨rule, .pre, before.length + 1 + inner.length, offset,
      length⟩]) (⟨rule, .post, before.length, offset, length⟩ :: (later ++ after))
      (before.length + 1 + inner.length)
    simp only [Node.recordsAll, Node.records, List.length_append, List.length_cons, List.length_nil,
      List.cons_append, List.nil_append, List.append_assoc, Nat.zero_add, inner, later]
      at hfirst hend hlast hnext hinner hrest ⊢
    refine .next hfirst hpre (by simp) (hinner trivial (.next hend hpost (by simp) ?_))
    convert hnext (by omega) hrest using 1
    omega

end Walks

end Translation

end Abnf
