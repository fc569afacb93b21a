import Abnf.Proofs.Engine.Records

/-!
# Walks over records

A walk is one loop over flat records. It sees a node that it skips only once, and goes on behind the
record that this one names as its partner. For the records of trees this is the traversal of the
trees in document order: what is skipped hides all that is inside it and its own end, and what is
not visited shows what is inside it.

* `Node.sightsAll`: what a traversal of trees shows.
* `Records.Shows`: the loop, step by step.
* `Engine.walk_traverses`: a walk over what a run has recorded.
-/

namespace Abnf

/-! ## Traversals -/

/-- What is shown to a visitor: one side of a phrase of a rule. -/
structure Sight where
  rule : Nat
  visit : Visit
  offset : Nat
  length : Nat
  deriving DecidableEq

/-- The side of a phrase that a record stands for. -/
def Record.sight (record : Record) : Sight :=
  ⟨record.rule, record.visit, record.offset, record.length⟩

variable (visited skipped : Nat → Bool)

namespace Node

mutual

/-- What is shown of a tree. A visited node shows its beginning, what is inside it, and its end, but
only its beginning if it is skipped. One that is not visited shows what is inside it. -/
def sights : Node → List Sight
  | mk rule offset length children =>
    if visited rule then
      if skipped rule then
        [⟨rule, .pre, offset, length⟩]
      else
        ⟨rule, .pre, offset, length⟩ :: (sightsAll children ++ [⟨rule, .post, offset, length⟩])
    else
      sightsAll children

/-- What is shown of trees, one after the other. -/
def sightsAll : List Node → List Sight
  | [] => []
  | node :: nodes => sights node ++ sightsAll nodes

end

end Node

/-! ## The loop -/

namespace Records

/-- The loop, begun at a position, comes to the end of the records after it has shown what is given.
It goes on behind the partner of a node that is skipped, wherever that is. -/
inductive Shows (records : Records) : (i : Nat) → List Sight → Prop where
  | done {i : Nat} (h : records.size ≤ i) : Shows records i []
  | pass {i : Nat} {record : Record} {sights : List Sight} (hrecord : records[i]? = some record)
      (hvisited : visited record.rule = false) (hnext : Shows records (i + 1) sights) :
      Shows records i sights
  | skip {i : Nat} {record : Record} {sights : List Sight} (hrecord : records[i]? = some record)
      (hvisited : visited record.rule = true)
      (hskipped : record.visit = .pre ∧ skipped record.rule = true)
      (hnext : Shows records (record.partner + 1) sights) :
      Shows records i (record.sight :: sights)
  | see {i : Nat} {record : Record} {sights : List Sight} (hrecord : records[i]? = some record)
      (hvisited : visited record.rule = true)
      (hskipped : ¬ (record.visit = .pre ∧ skipped record.rule = true))
      (hnext : Shows records (i + 1) sights) :
      Shows records i (record.sight :: sights)

/-- No beginning has its partner in front of it. -/
def Forward (records : Records) : Prop :=
  ∀ (i : Nat) (record : Record), records[i]? = some record → record.visit = .pre →
    i ≤ record.partner

variable {visited skipped} {records : Records} {i : Nat} {sights : List Sight}

/-- A walk shows what the loop does. -/
theorem Shows.map_walkFrom (h : Shows visited skipped records i sights) (hforward : records.Forward) :
    (records.walkFrom visited skipped i).map Record.sight = sights := by
  induction h with
  | done h => rw [Records.walkFrom, dif_neg (Nat.not_lt.2 h), List.map_nil]
  | pass hrecord hvisited _ ih =>
    obtain ⟨hlt, rfl⟩ := Array.getElem?_eq_some_iff.1 hrecord
    rw [Records.walkFrom, dif_pos hlt]
    simp only [hvisited, Bool.false_eq_true, if_false]
    exact ih
  | skip hrecord hvisited hskipped _ ih =>
    have hpartner := hforward _ _ hrecord hskipped.1
    obtain ⟨hlt, rfl⟩ := Array.getElem?_eq_some_iff.1 hrecord
    rw [Records.walkFrom, dif_pos hlt]
    simp only [hvisited, hskipped, and_self, if_true, Nat.max_eq_right hpartner, List.map_cons, ih]
  | see hrecord hvisited hskipped _ ih =>
    obtain ⟨hlt, rfl⟩ := Array.getElem?_eq_some_iff.1 hrecord
    rw [Records.walkFrom, dif_pos hlt]
    simp only [hvisited, hskipped, if_true, if_false, List.map_cons, ih]

/-! ## The loop over records of trees -/

/-- The loop over a node between its two records, when it is known what it shows in between. -/
theorem shows_around {last rule offset length : Nat} {inner : List Sight}
    (hpre : records[i]? = some ⟨rule, .pre, last, offset, length⟩)
    (hpost : records[last]? = some ⟨rule, .post, i, offset, length⟩)
    (hinner : ∀ rest, Shows visited skipped records last rest →
      Shows visited skipped records (i + 1) (inner ++ rest))
    (hnext : Shows visited skipped records (last + 1) sights) :
    Shows visited skipped records i ((if visited rule then
      if skipped rule then [⟨rule, .pre, offset, length⟩]
      else ⟨rule, .pre, offset, length⟩ :: (inner ++ [⟨rule, .post, offset, length⟩])
      else inner) ++ sights) := by
  by_cases hvisited : visited rule = true
  · by_cases hskipped : skipped rule = true
    · rw [if_pos hvisited, if_pos hskipped]
      exact .skip hpre hvisited ⟨rfl, hskipped⟩ hnext
    · have hlast : Shows visited skipped records last (⟨rule, .post, offset, length⟩ :: sights) :=
        .see hpost hvisited (by simp) hnext
      rw [if_pos hvisited, if_neg hskipped, List.cons_append, List.append_assoc]
      exact .see hpre hvisited (by simp [hskipped]) (hinner _ hlast)
  · rw [Bool.not_eq_true] at hvisited
    rw [if_neg (by simp [hvisited])]
    exact .pass hpre hvisited (hinner _ (.pass hpost hvisited hnext))

variable (visited skipped)

mutual

/-- Over the records of a tree the loop shows what a traversal of the tree does. -/
theorem shows_records (before after : List Record) (sights : List Sight) : (node : Node) →
    Shows visited skipped (before ++ (node.records before.length ++ after)).toArray
      (before.length + (node.records before.length).length) sights →
    Shows visited skipped (before ++ (node.records before.length ++ after)).toArray
      before.length (node.sights visited skipped ++ sights)
  | .mk rule offset length children, hnext => by
    obtain ⟨hpre, hpost⟩ := getElem?_around before
      (Node.recordsAll (before.length + 1) children) after rule offset length
    simp only [Node.records, List.cons_append, List.append_assoc, List.length_cons,
      List.length_append, List.length_nil, Nat.zero_add] at hnext ⊢
    rw [Node.sights]
    refine shows_around hpre hpost (fun rest hrest => ?_) ?_
    · have h := shows_recordsAll (before ++ [⟨rule, .pre, before.length + 1 +
          (Node.recordsAll (before.length + 1) children).length, offset, length⟩])
        (⟨rule, .post, before.length, offset, length⟩ :: after) rest children
      simp only [List.length_append, List.length_singleton, List.append_assoc,
        List.singleton_append] at h
      exact h hrest
    · convert hnext using 1
      omega

/-- Over the records of trees the loop shows what a traversal of the trees does. -/
theorem shows_recordsAll (before after : List Record) (sights : List Sight) :
    (nodes : List Node) →
    Shows visited skipped (before ++ (Node.recordsAll before.length nodes ++ after)).toArray
      (before.length + (Node.recordsAll before.length nodes).length) sights →
    Shows visited skipped (before ++ (Node.recordsAll before.length nodes ++ after)).toArray
      before.length (Node.sightsAll visited skipped nodes ++ sights)
  | [], hnext => by simpa [Node.sightsAll, Node.recordsAll] using hnext
  | node :: nodes, hnext => by
    rw [Node.recordsAll, List.length_append, ← Nat.add_assoc, List.append_assoc] at hnext
    rw [Node.recordsAll, Node.sightsAll, List.append_assoc, List.append_assoc]
    refine shows_records before _ _ node ?_
    have h := shows_recordsAll (before ++ node.records before.length) after sights nodes
    simp only [List.length_append, List.append_assoc] at h
    exact h hnext

end

end Records

/-! ## Walks over what a run has recorded -/

namespace Engine

variable {σ : Type} {rules : Array Rule} {watch : Watch σ} {start : Nat} {input : Array UInt8}
  {init : σ} {found : Match σ}

/-- A run leaves the records of trees in order within the input, and the partners of the records name
each other. -/
theorem leaves_of_run (h : run rules watch start input init = .ok found) :
    Leaves input 0 #[] found.matched found.records := by
  obtain ⟨_, -, h⟩ := exists_of_bind_eq_ok h
  obtain ⟨⟨result, ⟨records, observed⟩⟩, henter, h⟩ := exists_of_bind_eq_ok h
  cases h
  exact ((evaluates_of_enterRule henter).keeps (Nat.zero_le _)).leaves rfl

/-- The records of a run are those of the trees that they encode, and no beginning has its partner
in front of it. -/
theorem records_of_run (h : run rules watch start input init = .ok found) :
    found.records = (Node.recordsAll 0 found.records.forest).toArray ∧ found.records.Forward := by
  obtain ⟨matched, records, observed⟩ := found
  have hleaves : Leaves input 0 #[] matched records := leaves_of_run h
  cases matched with
  | none =>
    obtain rfl : records = #[] := hleaves
    exact ⟨rfl, fun i record hrecord => by simp at hrecord⟩
  | some n =>
    obtain ⟨⟨-, nodes, -, hnodes⟩, hpaired⟩ := hleaves
    have heq : records = (Node.recordsAll 0 nodes).toArray := by simpa using hnodes
    refine ⟨by rw [heq, Records.forest_ofNodes], fun i record hrecord hpre => ?_⟩
    obtain ⟨hlt, -⟩ := Array.getElem?_eq_some_iff.1 hrecord
    obtain ⟨record', _, hrecord', -, -, -, hsides⟩ := hpaired i (Nat.zero_le i) hlt
    cases hrecord.symm.trans hrecord'
    rcases hsides with ⟨-, -, hlater⟩ | ⟨hpost, -⟩
    · exact Nat.le_of_lt hlater
    · simp [hpre] at hpost

/-- The records of a run are those of some trees. The loop of a walk over them ends, and shows what a
traversal of these trees shows. -/
theorem walk_traverses (h : run rules watch start input init = .ok found)
    (visited skipped : Nat → Bool) :
    found.records = (Node.recordsAll 0 found.records.forest).toArray ∧
      found.records.Shows visited skipped 0
        ((found.records.walk visited skipped).map Record.sight) ∧
      (found.records.walk visited skipped).map Record.sight =
        Node.sightsAll visited skipped found.records.forest := by
  obtain ⟨hrecords, hforward⟩ := records_of_run h
  have hshows : found.records.Shows visited skipped 0
      (Node.sightsAll visited skipped found.records.forest) := by
    have h := Records.shows_recordsAll visited skipped [] [] [] found.records.forest
      (.done (by simp))
    simpa [← hrecords] using h
  have heq := hshows.map_walkFrom hforward
  exact ⟨hrecords, by rwa [Records.walk, heq], heq⟩

/-- `s = a b a`, `a = ["x"]`, `b = c a` and `c = a "y"`. -/
def surrounded : Array Rule := #[
  ⟨"s", 0, #[.cat [1, 2, 3], .rnm 1, .rnm 2, .rnm 1]⟩,
  ⟨"a", 1, #[.rep 0 (some 1), .tbs [120]]⟩,
  ⟨"b", 2, #[.cat [1, 2], .rnm 3, .rnm 1]⟩,
  ⟨"c", 3, #[.cat [1, 2], .rnm 1, .tbs [121]]⟩]

/-- In `xxyx` a phrase `c` that is skipped, inside a phrase `b` that is not visited, hides the phrase
`a` inside it but not the one behind it. The last phrase `a` is empty. -/
theorem walk_traverses_surrounded :
    ∃ found, run surrounded (.log [0, 1, 2, 3] []) 0 #[120, 120, 121, 120] #[] = .ok found ∧
      found.records.Shows (· != 2) (· == 3) 0
        [⟨0, .pre, 0, 4⟩, ⟨1, .pre, 0, 1⟩, ⟨1, .post, 0, 1⟩, ⟨3, .pre, 1, 2⟩, ⟨1, .pre, 3, 1⟩,
          ⟨1, .post, 3, 1⟩, ⟨1, .pre, 4, 0⟩, ⟨1, .post, 4, 0⟩, ⟨0, .post, 0, 4⟩] := by
  have hrun : (run surrounded (.log [0, 1, 2, 3] []) 0 #[120, 120, 121, 120] #[]).toOption.map
      (fun found => Node.sightsAll (· != 2) (· == 3) found.records.forest) =
      some [⟨0, .pre, 0, 4⟩, ⟨1, .pre, 0, 1⟩, ⟨1, .post, 0, 1⟩, ⟨3, .pre, 1, 2⟩, ⟨1, .pre, 3, 1⟩,
        ⟨1, .post, 3, 1⟩, ⟨1, .pre, 4, 0⟩, ⟨1, .post, 4, 0⟩, ⟨0, .post, 0, 4⟩] := by
    decide +kernel
  obtain ⟨found, hrun, hsights⟩ := Option.map_eq_some_iff.1 hrun
  have hrun := eq_ok_of_toOption hrun
  obtain ⟨-, hshows, heq⟩ := walk_traverses hrun (· != 2) (· == 3)
  rw [heq, hsights] at hshows
  exact ⟨found, hrun, hshows⟩

end Engine

end Abnf
