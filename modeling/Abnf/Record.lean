import Abnf.Fault

/-!
# Parse records

The phrases of the recorded rules of a match, as one flat list. A node is a pair of records, one
where its phrase begins and one where it is complete; the records of its descendants lie between
the two. Giving up an alternative cuts the list back to where it was.
-/

namespace Abnf

/-- The side of a phrase that a record stands for. -/
inductive Visit where
  | pre
  | post
  deriving Repr, DecidableEq, Inhabited

/-- One side of a recorded phrase. -/
structure Record where
  rule : Nat
  visit : Visit
  /-- The position of the node's other record. -/
  partner : Nat
  offset : Nat
  length : Nat
  deriving Repr, DecidableEq, Inhabited

/-- Parse records in document order. -/
abbrev Records := Array Record

namespace Records

/-- Begins a node; its first record stands at the current end of the list. -/
def openNode (records : Records) (rule offset : Nat) : Records :=
  records.push ⟨rule, .pre, records.size, offset, 0⟩

/-- Completes the node whose first record stands at `first`. -/
def closeNode (records : Records) (first length : Nat) : Except Fault Records := do
  let opened ← fetch records first
  let records' := records.modify first fun record =>
    { record with partner := records.size, length := length }
  return records'.push ⟨opened.rule, .post, first, opened.offset, length⟩

/-- Forgets every record from position `size` on. -/
def cutTo (records : Records) (size : Nat) : Records :=
  records.take size

/-- The records seen by a walk from position `i` on that looks at the records of the rules in
`visited` and, at the beginning of a node of a rule in `skipped`, goes on behind that node. -/
def walkFrom (records : Records) (visited skipped : Nat → Bool) (i : Nat) : List Record :=
  if h : i < records.size then
    let record := records[i]
    if visited record.rule then
      if record.visit = .pre ∧ skipped record.rule = true then
        record :: walkFrom records visited skipped (max i record.partner + 1)
      else
        record :: walkFrom records visited skipped (i + 1)
    else
      walkFrom records visited skipped (i + 1)
  else
    []
  termination_by records.size - i
  decreasing_by all_goals omega

/-- The records of the rules in `visited` in document order, where a node of a rule in `skipped`
shows its beginning only. -/
def walk (records : Records) (visited skipped : Nat → Bool) : List Record :=
  records.walkFrom visited skipped 0

end Records

end Abnf
