import Mathlib.Data.List.Basic
import Abnf.Forest

/-!
# Records of forests

The flat records of some trees, and the trees that the records encode: reading the records of a
forest gives the forest back (`Records.forest_ofNodes`). Completing a node puts its two records
around those made since it was begun (`Records.closeNode_append`).
-/

namespace Abnf

namespace Node

mutual

/-- The records of a tree whose first record stands at `base`. -/
def records (base : Nat) : Node → List Record
  | mk rule offset length children =>
    ⟨rule, .pre, base + 1 + (recordsAll (base + 1) children).length, offset, length⟩ ::
      (recordsAll (base + 1) children ++ [⟨rule, .post, base, offset, length⟩])

/-- The records of trees that stand one after the other. -/
def recordsAll (base : Nat) : List Node → List Record
  | [] => []
  | node :: nodes =>
    records base node ++ recordsAll (base + (records base node).length) nodes

end

theorem recordsAll_append (base : Nat) (a b : List Node) :
    recordsAll base (a ++ b) = recordsAll base a ++
      recordsAll (base + (recordsAll base a).length) b := by
  induction a generalizing base with
  | nil => simp [recordsAll]
  | cons node nodes ih =>
    rw [List.cons_append, recordsAll, recordsAll, ih, List.append_assoc, List.length_append,
      Nat.add_assoc]

end Node

namespace Records

/-! ## Reading the records of trees -/

mutual

theorem foldr_records (base : Nat) (nesting : Nesting) :
    (node : Node) →
      (node.records base).foldr Nesting.step nesting = ⟨node :: nesting.level, nesting.outer⟩
  | .mk rule offset length children => by
    rw [Node.records, List.foldr_cons, List.foldr_append, List.foldr_cons, List.foldr_nil]
    rw [foldr_recordsAll (base + 1) _ children]
    simp [Nesting.step]

theorem foldr_recordsAll (base : Nat) (nesting : Nesting) :
    (nodes : List Node) →
      (Node.recordsAll base nodes).foldr Nesting.step nesting =
        ⟨nodes ++ nesting.level, nesting.outer⟩
  | [] => rfl
  | node :: nodes => by
    rw [Node.recordsAll, List.foldr_append, foldr_recordsAll _ _ nodes, foldr_records _ _ node]
    rfl

end

/-- The records of some trees encode these trees. -/
theorem forest_ofNodes (nodes : List Node) :
    forest (Node.recordsAll 0 nodes).toArray = nodes := by
  rw [forest, List.toList_toArray, foldr_recordsAll]
  simp

/-! ## Complete nodes -/

/-- Some records and behind them those of a complete node, around the ones made inside it. -/
def node (records inner : Records) (rule pos length : Nat) : Records :=
  records ++ (⟨rule, .pre, records.size + 1 + inner.size, pos, length⟩ ::
    (inner.toList ++ [⟨rule, .post, records.size, pos, length⟩])).toArray

/-- Completing a node that was begun at the end of some records. -/
theorem closeNode_append (records inner : Records) (rule pos length : Nat) :
    closeNode (records.openNode rule pos ++ inner) records.size length =
      .ok (records.node inner rule pos length) := by
  have hopened : fetch (records.openNode rule pos ++ inner) records.size =
      .ok ⟨rule, .pre, records.size, pos, 0⟩ := by
    rw [fetch_eq_ok, openNode, Array.getElem?_append_left (by simp)]
    simp
  rw [closeNode, hopened]
  change Except.ok _ = Except.ok (node _ _ _ _ _)
  congr 1
  apply Array.toList_inj.1
  simp only [node, openNode, Array.toList_push, Array.toList_modify, Array.toList_append,
    List.append_assoc]
  rw [List.modify, ← Nat.add_zero records.size, ← Array.length_toList, List.modifyTailIdx_add]
  simp

end Records

end Abnf
