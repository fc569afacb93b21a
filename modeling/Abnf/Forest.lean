import Abnf.Record

/-!
# Forests

The trees that a list of parse records encodes.
-/

namespace Abnf

/-- A recorded phrase and the recorded phrases inside it. -/
inductive Node where
  | mk (rule offset length : Nat) (children : List Node)
  deriving Inhabited

namespace Node

/-- The rule that matched the phrase. -/
def rule : Node → Nat
  | mk rule _ _ _ => rule

/-- Where the phrase begins. -/
def offset : Node → Nat
  | mk _ offset _ _ => offset

/-- How long the phrase is. -/
def length : Node → Nat
  | mk _ _ length _ => length

/-- The phrases inside the phrase, from left to right. -/
def children : Node → List Node
  | mk _ _ _ children => children

end Node

namespace Records

/-- The trees to the right of a place in the records: those on the current level, and those on
each level around it that wait for the current node to begin. -/
structure Nesting where
  level : List Node
  outer : List (List Node)

/-- Reads one record more, from right to left: an end opens a level and a beginning closes it. -/
def Nesting.step (record : Record) (nesting : Nesting) : Nesting :=
  match record.visit, nesting.outer with
  | .post, outer => ⟨[], nesting.level :: outer⟩
  | .pre, [] => ⟨[⟨record.rule, record.offset, record.length, nesting.level⟩], []⟩
  | .pre, level :: outer =>
    ⟨⟨record.rule, record.offset, record.length, nesting.level⟩ :: level, outer⟩

/-- The trees that the records encode, from left to right. -/
def forest (records : Records) : List Node :=
  (records.toList.foldr Nesting.step ⟨[], []⟩).level

end Records

end Abnf
