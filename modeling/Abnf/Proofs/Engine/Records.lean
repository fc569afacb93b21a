import Abnf.Proofs.Engine.Evaluation

/-!
# Records of an evaluation

An evaluation that fails leaves the records as they were. One that matches adds the records of some
trees behind them, and the phrases of these trees stand in order within the phrase that was matched.
Whatever was recorded in alternatives that were given up is gone, and no earlier record has changed.

* `Node.Nested`: phrases in order between two positions, each around those inside it.
* `Records.paired_append`: the two records of a phrase name each other.
* `evaluation_records`: what an evaluation does to the records.
-/

namespace Abnf

/-! ## Phrases in order -/

namespace Node

/-- Phrases that stand one behind the other between two positions, each around the phrases inside
it. -/
inductive Nested : (low high : Nat) → List Node → Prop where
  | nil {low high} (h : low ≤ high) : Nested low high []
  | cons {low high rule offset length children nodes} (hlow : low ≤ offset)
      (hinner : Nested offset (offset + length) children)
      (hnext : Nested (offset + length) high nodes) :
      Nested low high (.mk rule offset length children :: nodes)

theorem Nested.append {low middle high : Nat} {nodes nodes' : List Node}
    (h : Nested low middle nodes) (h' : Nested middle high nodes') :
    Nested low high (nodes ++ nodes') := by
  induction h with
  | nil hle =>
    cases h' with
    | nil hle' => exact .nil (Nat.le_trans hle hle')
    | cons hlow hinner hnext => exact .cons (Nat.le_trans hle hlow) hinner hnext
  | cons hlow hinner _ _ ih => exact .cons hlow hinner (ih h')

end Node

/-! ## Partners -/

namespace Records

/-- The record at `i` and the record that it names are the two sides of one phrase, the beginning
in front of the end. -/
def Paired (records : Records) (i : Nat) : Prop :=
  ∃ record twin : Record, records[i]? = some record ∧ records[record.partner]? = some twin ∧
    twin.partner = i ∧
    (twin.rule = record.rule ∧ twin.offset = record.offset ∧ twin.length = record.length) ∧
    (record.visit = .pre ∧ twin.visit = .post ∧ i < record.partner ∨
      record.visit = .post ∧ twin.visit = .pre ∧ record.partner < i)

/-- The two records around those of the phrases inside a phrase. -/
theorem getElem?_around (before inner after : List Record) (rule offset length : Nat) :
    (before ++ ⟨rule, .pre, before.length + 1 + inner.length, offset, length⟩ ::
      (inner ++ ⟨rule, .post, before.length, offset, length⟩ :: after)).toArray[before.length]? =
        some ⟨rule, .pre, before.length + 1 + inner.length, offset, length⟩ ∧
    (before ++ ⟨rule, .pre, before.length + 1 + inner.length, offset, length⟩ ::
      (inner ++ ⟨rule, .post, before.length, offset, length⟩ :: after)).toArray[
        before.length + 1 + inner.length]? = some ⟨rule, .post, before.length, offset, length⟩ := by
  constructor
  · simp
  · have hplace : before.length + 1 + inner.length - before.length = inner.length + 1 := by omega
    rw [List.getElem?_toArray, List.getElem?_append_right (by omega), hplace]
    simp

/-- The two records around those of the phrases inside a phrase are paired. -/
theorem paired_around (before inner after : List Record) (rule offset length : Nat) {i : Nat}
    (hi : i = before.length ∨ i = before.length + 1 + inner.length) :
    Paired (before ++ ⟨rule, .pre, before.length + 1 + inner.length, offset, length⟩ ::
      (inner ++ ⟨rule, .post, before.length, offset, length⟩ :: after)).toArray i := by
  obtain ⟨hfirst, hlast⟩ := getElem?_around before inner after rule offset length
  rcases hi with rfl | rfl
  · exact ⟨_, _, hfirst, hlast, rfl, ⟨rfl, rfl, rfl⟩,
      .inl ⟨rfl, rfl, Nat.lt_add_right _ (Nat.lt_succ_self _)⟩⟩
  · exact ⟨_, _, hlast, hfirst, rfl, ⟨rfl, rfl, rfl⟩,
      .inr ⟨rfl, rfl, Nat.lt_add_right _ (Nat.lt_succ_self _)⟩⟩

mutual

theorem paired_records (before after : List Record) : (node : Node) → (i : Nat) →
    before.length ≤ i → i < before.length + (node.records before.length).length →
    Paired (before ++ (node.records before.length ++ after)).toArray i
  | .mk rule offset length children, i, hlow, hhigh => by
    simp only [Node.records, List.length_cons, List.length_append, List.length_nil] at hhigh
    rw [Node.records, List.cons_append, List.append_assoc, List.singleton_append]
    by_cases hinner : before.length < i ∧
        i < before.length + 1 + (Node.recordsAll (before.length + 1) children).length
    · have h := paired_recordsAll (before ++ [⟨rule, .pre, before.length + 1 +
          (Node.recordsAll (before.length + 1) children).length, offset, length⟩])
        (⟨rule, .post, before.length, offset, length⟩ :: after) children i
        (by rw [List.length_append]; exact hinner.1) (by rw [List.length_append]; exact hinner.2)
      simpa using h
    · exact paired_around before _ after rule offset length (by omega)

theorem paired_recordsAll (before after : List Record) : (nodes : List Node) → (i : Nat) →
    before.length ≤ i → i < before.length + (Node.recordsAll before.length nodes).length →
    Paired (before ++ (Node.recordsAll before.length nodes ++ after)).toArray i
  | [], i, hlow, hhigh => absurd hhigh (Nat.not_lt_of_le hlow)
  | node :: nodes, i, hlow, hhigh => by
    rw [Node.recordsAll, List.length_append] at hhigh
    rw [Node.recordsAll, List.append_assoc]
    rcases Nat.lt_or_ge i (before.length + (node.records before.length).length) with hlt | hge
    · exact paired_records before _ node i hlow hlt
    · have h := paired_recordsAll (before ++ node.records before.length) after nodes i
        (by rw [List.length_append]; exact hge) (by rw [List.length_append]; omega)
      simpa using h

end

/-- Behind any records, the records of trees are paired. -/
theorem paired_append {before : Records} {nodes : List Node} {i : Nat} (hlow : before.size ≤ i)
    (hhigh : i < (before ++ (Node.recordsAll before.size nodes).toArray).size) :
    Paired (before ++ (Node.recordsAll before.size nodes).toArray) i := by
  have h := paired_recordsAll before.toList [] nodes i (by simpa using hlow) (by simpa using hhigh)
  have happend : (before.toList ++ Node.recordsAll before.size nodes).toArray =
      before ++ (Node.recordsAll before.size nodes).toArray := by
    simp
  rwa [List.append_nil, Array.length_toList, happend] at h

end Records

namespace Engine

variable {σ : Type}

/-! ## Growing records -/

/-- The records grow by those of phrases within `n` bytes at `pos`. -/
def Grows (input : Array UInt8) (pos n : Nat) (before after : Records) : Prop :=
  pos + n ≤ input.size ∧ ∃ nodes, Node.Nested pos (pos + n) nodes ∧
    after = before ++ (Node.recordsAll before.size nodes).toArray

namespace Grows

variable {input : Array UInt8} {pos n m : Nat} {before middle after : Records}

theorem of_eq (h : pos + n ≤ input.size) : Grows input pos n before before :=
  ⟨h, [], .nil (Nat.le_add_right _ _), by simp [Node.recordsAll]⟩

theorem trans (h : Grows input pos n before middle) (h' : Grows input (pos + n) m middle after) :
    Grows input pos (n + m) before after := by
  obtain ⟨-, nodes, hnodes, rfl⟩ := h
  obtain ⟨hle, nodes', hnodes', rfl⟩ := h'
  rw [Nat.add_assoc] at hle hnodes'
  refine ⟨hle, nodes ++ nodes', hnodes.append hnodes', ?_⟩
  simp [Node.recordsAll_append]

theorem exists_more (h : Grows input pos n before after) : ∃ more, after = before ++ more := by
  obtain ⟨-, nodes, -, rfl⟩ := h
  exact ⟨_, rfl⟩

end Grows

/-- What an evaluation at `pos` that is over has left: on failure the records that it found, on a
match of `n` bytes also those of trees whose phrases are nested in the phrase that was matched. -/
def Leaves (input : Array UInt8) (pos : Nat) (before : Records) (result : Option Nat)
    (after : Records) : Prop :=
  match result with
  | none => after = before
  | some n =>
    Grows input pos n before after ∧ ∀ i, before.size ≤ i → i < after.size → after.Paired i

/-- Whether a task gives up its own records when it fails. What is left of a sequence or of a
repetition leaves that to the opcode it belongs to. -/
def Task.cleansUp : Task → Bool
  | opcode .. | rule _ | choice .. => true
  | sequence .. | iterations .. => false

/-- What a task does to the records: it changes none of those that it finds. -/
structure Keeps (input : Array UInt8) (task : Task) (pos : Nat) (before : Records)
    (result : Option Nat) (after : Records) : Prop where
  grows : ∀ n, result = some n → Grows input pos n before after
  undone : result = none → task.cleansUp = true → after = before
  exists_more : ∃ more, after = before ++ more

namespace Keeps

variable {input : Array UInt8} {task task' : Task} {pos n : Nat} {before middle after : Records}
  {result : Option Nat}

theorem matched (h : Grows input pos n before after) :
    Keeps input task pos before (some n) after := by
  refine ⟨fun m hm => ?_, fun hnone => ?_, h.exists_more⟩
  · cases hm
    exact h
  · cases hnone

theorem unchanged (h : ∀ n, result = some n → pos + n ≤ input.size) :
    Keeps input task pos before result before :=
  ⟨fun n hn => .of_eq (h n hn), fun _ _ => rfl, #[], by simp⟩

theorem of_cleansUp (h : Keeps input task pos before result after) (htask : task.cleansUp = true) :
    Keeps input task' pos before result after :=
  ⟨h.grows, fun hnone _ => h.undone hnone htask, h.exists_more⟩

theorem cutTo (h : Keeps input task pos before result after) :
    after.cutTo before.size = before := by
  obtain ⟨more, rfl⟩ := h.exists_more
  exact cutTo_self_append _ _

/-- What is left of an operator, when something has grown before it. -/
theorem after_grows (htask : task'.cleansUp = false) (hfirst : Grows input pos n before middle)
    (h : Keeps input task (pos + n) middle result after) :
    Keeps input task' pos before (result.map (n + ·)) after := by
  cases result with
  | some m => exact matched (hfirst.trans (h.grows m rfl))
  | none =>
    obtain ⟨more, rfl⟩ := hfirst.exists_more
    obtain ⟨more', rfl⟩ := h.exists_more
    refine ⟨fun m hm => ?_, fun _ hclean => ?_, more ++ more', Array.append_assoc⟩
    · cases hm
    · simp [htask] at hclean

/-- The end of a repetition. -/
theorem enough (htask : task.cleansUp = false) (h : Grows input pos 0 before after) (min : UInt32)
    (count : Nat) : Keeps input task pos before (Engine.enough min count) after := by
  refine ⟨fun n hn => ?_, fun _ hclean => ?_, h.exists_more⟩
  · obtain ⟨-, rfl⟩ := enough_eq_some hn
    exact h
  · simp [htask] at hclean

theorem leaves (h : Keeps input task pos before result after) (htask : task.cleansUp = true) :
    Leaves input pos before result after := by
  cases result with
  | none => exact h.undone rfl htask
  | some n =>
    have hgrows := h.grows n rfl
    refine ⟨hgrows, fun i hlow hhigh => ?_⟩
    obtain ⟨-, nodes, -, rfl⟩ := hgrows
    exact Records.paired_append hlow hhigh

/-- An operator that has failed gives its records up. -/
theorem settle {state next : State σ} (h : Keeps input task pos state.records result next.records) :
    Keeps input task' pos state.records result (state.settle next result).records := by
  cases result with
  | some n => exact matched (h.grows n rfl)
  | none =>
    have hcut : (state.settle next none).records = state.records := h.cutTo
    rw [hcut]
    exact unchanged fun n hn => by cases hn

/-- A rule puts the records of its phrase around those of its body, if it is recorded. -/
theorem leave {watch : Watch σ} {rule : Nat} {state : State σ} {inner records : Records}
    (h : Keeps input (.opcode rule 0) pos (state.enter watch rule pos).records result inner)
    (hleave : watch.leave rule state.records.size result inner = .ok records) :
    Keeps input (.rule rule) pos state.records result records := by
  cases result with
  | none =>
    have henter : inner = (state.enter watch rule pos).records := h.undone rfl rfl
    obtain rfl : inner.cutTo state.records.size = records := Except.ok.inj hleave
    have hcut : inner.cutTo state.records.size = state.records := by
      rw [henter, State.enter]
      split
      · rw [Records.openNode, ← Array.append_singleton, cutTo_self_append]
      · simp [Records.cutTo]
    rw [hcut]
    exact unchanged fun n hn => by cases hn
  | some n =>
    obtain ⟨hfits, nodes, hnodes, rfl⟩ := h.grows n rfl
    refine matched ⟨hfits, ?_⟩
    by_cases hrecorded : watch.recorded rule = true
    · simp only [Watch.leave, State.enter, hrecorded, if_true] at hleave
      rw [show Array.size (state.records.openNode rule pos) = state.records.size + 1 by
        simp [Records.openNode], closeNode_openNode] at hleave
      exact ⟨_, .cons (Nat.le_refl pos) hnodes (.nil (Nat.le_refl _)), (Except.ok.inj hleave).symm⟩
    · simp only [Watch.leave, State.enter, hrecorded] at hleave
      exact ⟨nodes, hnodes, (Except.ok.inj hleave).symm⟩

end Keeps

/-! ## Evaluations -/

variable {rules : Array Rule} {watch : Watch σ} {input : Array UInt8}

/-- Every task keeps the records that it finds. -/
theorem Evaluates.keeps {task : Task} {pos : Nat} {state after : State σ} {result : Option Nat}
    (h : Evaluates rules watch input task pos state result after) (hpos : pos ≤ input.size) :
    Keeps input task pos state.records result after.records := by
  -- By induction on the evaluation. A part that misses leaves the records as it found them, so the
  -- next part begins with the records that the whole began with.
  induction h with
  | terminal _ hresult =>
    refine .unchanged fun n hn => ?_
    have hlength := terminalResult?_length (hn ▸ hresult)
    omega
  | alt _ _ ih | rnm _ _ ih => exact (ih hpos).of_cleansUp rfl
  | cat _ _ ih | rep _ _ ih => exact (ih hpos).settle
  | @and _ _ _ _ result _ _ _ ih =>
    rw [State.cutTo, (ih hpos).cutTo]
    refine .unchanged fun n hn => ?_
    obtain ⟨_, -, rfl⟩ := Option.map_eq_some_iff.1 hn
    exact hpos
  | @not _ _ _ _ result _ _ _ ih =>
    rw [State.cutTo, (ih hpos).cutTo]
    refine .unchanged fun n hn => ?_
    split at hn
    · cases hn
    · cases hn
      exact hpos
  | rule _ hleave ih => exact (ih hpos).leave hleave
  | choiceNil => exact .unchanged fun n hn => by cases hn
  | choiceHit _ ih => exact .matched ((ih hpos).grows _ rfl)
  | choiceMiss _ _ ih₁ ih₂ =>
    have hfirst := (ih₁ hpos).undone rfl rfl
    have hrest := ih₂ hpos
    rw [hfirst] at hrest
    exact hrest.of_cleansUp rfl
  | sequenceNil => exact .matched (.of_eq hpos)
  | sequenceMiss _ ih =>
    rw [(ih hpos).undone rfl rfl]
    exact .unchanged fun n hn => by cases hn
  | sequenceNext _ _ ih₁ ih₂ | iterationsNext _ _ _ ih₁ ih₂ =>
    have hfirst := (ih₁ hpos).grows _ rfl
    exact .after_grows rfl hfirst (ih₂ hfirst.1)
  | iterationsDone => exact .enough rfl (.of_eq hpos) _ _
  | iterationsMiss _ _ ih =>
    rw [(ih hpos).undone rfl rfl]
    exact .enough rfl (.of_eq hpos) _ _
  | iterationsEmpty _ _ ih => exact .enough rfl ((ih hpos).grows 0 rfl) _ _

/-- A look-ahead leaves no records, whatever it finds. -/
theorem Evaluates.records_lookahead {rule op pos : Nat} {state after : State σ}
    {result : Option Nat} (h : Evaluates rules watch input (.opcode rule op) pos state result after)
    (hpos : pos ≤ input.size)
    (hop : opcodeAt? rules rule op = some .and ∨ opcodeAt? rules rule op = some .not) :
    after.records = state.records := by
  cases h with
  | and _ h | not _ h => exact (h.keeps hpos).cutTo
  | terminal => rfl
  | alt hop' | cat hop' | rep hop' | rnm hop' => simp [hop'] at hop

/-- An evaluation that fails leaves the records as they were. One that matches stays within the
input and adds to them the records of trees whose phrases are nested in the phrase it matched, and
which name each other in pairs. A look-ahead adds nothing. -/
theorem evaluation_records {pos : Nat} (hpos : pos ≤ input.size) (depth rule : Nat)
    (state after : State σ) (result : Option Nat) :
    (∀ op, evaluate rules watch input depth rule op pos state = .ok (result, after) →
      Leaves input pos state.records result after.records ∧
        (opcodeAt? rules rule op = some .and ∨ opcodeAt? rules rule op = some .not →
          after.records = state.records)) ∧
      (enterRule watch rule pos (evaluate rules watch input depth rule 0 pos) state =
          .ok (result, after) →
        Leaves input pos state.records result after.records) := by
  refine ⟨fun op hok => ?_, fun hok => ?_⟩
  · have h := evaluates_of_evaluate hok
    exact ⟨(h.keeps hpos).leaves rfl, h.records_lookahead hpos⟩
  · exact ((evaluates_of_enterRule hok).keeps hpos).leaves rfl

/-- `s = a "x" / &a a "y"` and `a = "a"`. -/
def twoAttempts : Array Rule := #[
  ⟨"s", 0, #[.alt [1, 4], .cat [2, 3], .rnm 1, .tbs [120], .cat [5, 7, 8], .and, .rnm 1, .rnm 1,
    .tbs [121]]⟩,
  ⟨"a", 1, #[.tbs [97]]⟩]

/-- Of the three phrases `a` that are found in `ay`, only the one in the alternative that matches is
kept, inside the phrase of `s`. -/
theorem evaluation_records_backtracked :
    ∃ after, enterRule (.log [0, 1] []) 0 1
        (evaluate twoAttempts (.log [0, 1] []) #[97, 97, 121] 5 0 0 1)
        ⟨#[⟨7, .pre, 0, 0, 0⟩], #[]⟩ = .ok (some 2, after) ∧
      after.records = #[⟨7, .pre, 0, 0, 0⟩, ⟨0, .pre, 4, 1, 2⟩, ⟨1, .pre, 3, 1, 1⟩,
        ⟨1, .post, 2, 1, 1⟩, ⟨0, .post, 1, 1, 2⟩] ∧
      Leaves #[97, 97, 121] 1 #[⟨7, .pre, 0, 0, 0⟩] (some 2) after.records := by
  have hok : (enterRule (.log [0, 1] []) 0 1
      (evaluate twoAttempts (.log [0, 1] []) #[97, 97, 121] 5 0 0 1)
      ⟨#[⟨7, .pre, 0, 0, 0⟩], #[]⟩).toOption.map (fun outcome => (outcome.1, outcome.2.records)) =
      some (some 2, #[⟨7, .pre, 0, 0, 0⟩, ⟨0, .pre, 4, 1, 2⟩, ⟨1, .pre, 3, 1, 1⟩,
        ⟨1, .post, 2, 1, 1⟩, ⟨0, .post, 1, 1, 2⟩]) := by
    decide +kernel
  obtain ⟨⟨result, after⟩, hok, hafter⟩ := Option.map_eq_some_iff.1 hok
  obtain ⟨rfl, hrecords⟩ := Prod.mk.inj hafter
  have hok := eq_ok_of_toOption hok
  exact ⟨after, hok, hrecords, (evaluation_records (by decide) 5 0 _ after (some 2)).2 hok⟩

end Engine

end Abnf
