import Abnf.Record
import Abnf.Rule

/-!
# The matching engine

Runs a rule table on bytes by recursive descent: choice takes the first alternative that matches,
repetition takes as much as it can, and nothing is tried again once it has matched. Selected rules
leave parse records, and an observer sees every rule begin and end.

The engine has no meaning for user-defined terminals, back-references and look-behind. An
evaluation that ends never comes back to the same opcode at the same position while it is still
being evaluated there, so its depth is bounded by the number of opcodes times the number of
positions; `Engine.run` allows that depth.
-/

namespace Abnf.Engine

open scoped Decisions

/-- How far a rule has come when the observer sees it. -/
inductive Phase where
  /-- The rule is about to be tried. -/
  | active
  /-- The rule matched a phrase that is not empty. -/
  | matched
  /-- The rule matched the empty phrase. -/
  | empty
  /-- The rule did not match. -/
  | failed
  deriving Repr, DecidableEq

/-- The phase that a result ends a rule with. -/
def Phase.ofResult : Option Nat → Phase
  | some 0 => empty
  | some _ => matched
  | none => failed

/-- What is kept of a match besides its length: which rules leave records, and how an observer's
state changes when a rule begins or ends with a phrase at some offset. -/
structure Watch (σ : Type) where
  recorded : Nat → Bool
  observe : (rule : Nat) → Phase → (offset length : Nat) → σ → σ

/-- The records made so far and the observer's state. -/
structure State (σ : Type) where
  records : Records
  observed : σ

/-- The state with its records cut back. -/
def State.cutTo {σ : Type} (state : State σ) (size : Nat) : State σ :=
  { state with records := state.records.cutTo size }

/-- The length matched, if any, and the state afterwards. -/
abbrev Outcome (σ : Type) :=
  Option Nat × State σ

variable {σ : Type}

/-! ## Operators -/

/-- Ordered choice: the first child that matches. -/
def firstMatch (evaluate : (child : Nat) → State σ → Except Fault (Outcome σ)) :
    List Nat → State σ → Except Fault (Outcome σ)
  | [], state => .ok (none, state)
  | child :: children, state => do
    match ← evaluate child state with
    | (some length, state) => .ok (some length, state)
    | (none, state) => firstMatch evaluate children state

/-- Sequence: every child in turn, each where the one before it ended. `length` bytes have been
matched already. -/
def inSequence (evaluate : (child pos : Nat) → State σ → Except Fault (Outcome σ)) (pos : Nat) :
    List Nat → (length : Nat) → State σ → Except Fault (Outcome σ)
  | [], length, state => .ok (some length, state)
  | child :: children, length, state => do
    match ← evaluate child (pos + length) state with
    | (some more, state) => inSequence evaluate pos children (length + more) state
    | (none, state) => .ok (none, state)

/-- Repetition: as many iterations as match, but no more than `max`, and none after an iteration
that matches the empty phrase. Gives the number of iterations and the length they matched. Each
iteration that is not the last one consumes input, which bounds their number by `budget`. So the
number fits in 32 bits, like the bounds of a repetition, wherever the input is shorter than
`2 ^ 32 - 1` bytes. -/
def repeated (evaluate : (pos : Nat) → State σ → Except Fault (Outcome σ)) (max : Option UInt32)
    (pos : Nat) : (budget count length : Nat) → State σ → Except Fault (Nat × Nat × State σ)
  | 0, _, _, _ => .error .exhausted
  | budget + 1, count, length, state =>
    if max.all fun max => count < max.toNat then do
      match ← evaluate (pos + length) state with
      | (none, state) => .ok (count, length, state)
      | (some 0, state) => .ok (count + 1, length, state)
      | (some more, state) =>
        repeated evaluate max pos budget (count + 1) (length + more) state
    else
      .ok (count, length, state)

/-! ## Literals -/

/-- ASCII letters in lower case, every other byte as it is. -/
def lowerByte (byte : UInt8) : UInt8 :=
  if 65 ≤ byte && byte ≤ 90 then byte + 32 else byte

/-- Whether the bytes from `pos` on begin with `chars`, each byte seen through `fold`. -/
def startsWith (fold : UInt8 → UInt8) (input : Array UInt8) : (pos : Nat) → List UInt32 → Bool
  | _, [] => true
  | pos, char :: chars =>
    match input[pos]? with
    | some byte => (fold byte).toUInt32 == char && startsWith fold input (pos + 1) chars
    | none => false

/-- Matches a literal at `pos`, which may be empty. -/
def literal (fold : UInt8 → UInt8) (input : Array UInt8) (pos : Nat) (chars : List UInt32) :
    Option Nat :=
  if pos ≤ input.size && startsWith fold input pos chars then some chars.length else none

/-- Matches one byte in a range at `pos`. -/
def inRange (input : Array UInt8) (pos : Nat) (min max : UInt32) : Option Nat :=
  match input[pos]? with
  | some byte => if min ≤ byte.toUInt32 && byte.toUInt32 ≤ max then some 1 else none
  | none => none

/-! ## Evaluation -/

/-- Tries a rule at `pos`, where `body` evaluates its root. The observer sees the rule begin and
end; a recorded rule leaves its records if it matches, and a rule that fails leaves none. -/
def enterRule (watch : Watch σ) (rule pos : Nat) (body : State σ → Except Fault (Outcome σ))
    (state : State σ) : Except Fault (Outcome σ) := do
  let mark := state.records.size
  let state := { state with observed := watch.observe rule .active pos 0 state.observed }
  let state :=
    if watch.recorded rule then
      { state with records := state.records.openNode rule pos }
    else
      state
  let (result, state) ← body state
  let records ←
    match result with
    | some length =>
      if watch.recorded rule then state.records.closeNode mark length else pure state.records
    | none => pure (state.records.cutTo mark)
  return (result,
    ⟨records, watch.observe rule (.ofResult result) pos (result.getD 0) state.observed⟩)

/-- Tries opcode `op` of rule `rule` at `pos`, going at most `depth` opcodes deep. -/
def evaluate (rules : Array Rule) (watch : Watch σ) (input : Array UInt8) :
    (depth rule op pos : Nat) → State σ → Except Fault (Outcome σ)
  | 0, _, _, _, _ => .error .exhausted
  | depth + 1, rule, op, pos, state => do
    let opcodes := (← fetch rules rule).opcodes
    match ← fetch opcodes op with
    | .alt children =>
      firstMatch (fun child => evaluate rules watch input depth rule child pos) children state
    | .cat children =>
      let mark := state.records.size
      match ← inSequence (evaluate rules watch input depth rule) pos children 0 state with
      | (some length, state) => .ok (some length, state)
      | (none, state) => .ok (none, state.cutTo mark)
    | .rep min max =>
      let mark := state.records.size
      let (count, length, state) ←
        repeated (evaluate rules watch input depth rule (op + 1)) max pos
          (input.size - pos + 1) 0 0 state
      if min.toNat ≤ count then
        .ok (some length, state)
      else
        .ok (none, state.cutTo mark)
    | .rnm target => do
      let _ ← fetch rules target
      enterRule watch target pos (evaluate rules watch input depth target 0 pos) state
    | .and => do
      let mark := state.records.size
      let (result, state) ← evaluate rules watch input depth rule (op + 1) pos state
      .ok (result.map fun _ => 0, state.cutTo mark)
    | .not => do
      let mark := state.records.size
      let (result, state) ← evaluate rules watch input depth rule (op + 1) pos state
      .ok (if result.isSome then none else some 0, state.cutTo mark)
    | .abg => .ok (if pos = 0 then some 0 else none, state)
    | .aen => .ok (if pos = input.size then some 0 else none, state)
    | .tbs chars => .ok (literal id input pos chars, state)
    | .tls chars => .ok (literal lowerByte input pos chars, state)
    | .trg min max => .ok (inRange input pos min max, state)
    | other => .error (.notExecutable other)

/-! ## Runs -/

/-- What a run found: the length that the start rule matched, if it matched, and what was kept. -/
structure Match (σ : Type) where
  matched : Option Nat
  records : Records
  observed : σ

/-- The depth of evaluation that suffices for every run that ends. -/
def depthBound (rules : Array Rule) (input : Array UInt8) : Nat :=
  opcodeCount rules * (input.size + 1) + 1

/-- Tries rule `start` at the beginning of `input`. -/
def run (rules : Array Rule) (watch : Watch σ) (start : Nat) (input : Array UInt8) (init : σ) :
    Except Fault (Match σ) := do
  let _ ← fetch rules start
  let body := evaluate rules watch input (depthBound rules input) start 0 0
  let (matched, state) ← enterRule watch start 0 body ⟨#[], init⟩
  return ⟨matched, state.records, state.observed⟩

/-- Whether the start rule matched the whole input. -/
def Match.isComplete (m : Match σ) (input : Array UInt8) : Bool :=
  m.matched == some input.size

/-- A rule's begin or end as an observer sees it. -/
structure Event where
  rule : Nat
  phase : Phase
  offset : Nat
  length : Nat
  deriving Repr, DecidableEq

/-- The watch that records the rules in `recorded` and lists the events of the rules in
`observed`. -/
def Watch.log (recorded observed : List Nat) : Watch (Array Event) where
  recorded rule := recorded.contains rule
  observe rule phase offset length events :=
    if observed.contains rule then events.push ⟨rule, phase, offset, length⟩ else events

/-- Tries rule `start` at the beginning of `input`, records the rules in `recorded` and lists the
events of the rules in `observed`, all of which have to be rules of the table. -/
def trace (rules : Array Rule) (recorded observed : List Nat) (start : Nat)
    (input : Array UInt8) : Except Fault (Match (Array Event)) := do
  let _ ← observed.mapM (fetch rules)
  let _ ← recorded.mapM (fetch rules)
  run rules (Watch.log recorded observed) start input #[]

end Abnf.Engine
