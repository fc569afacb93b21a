import Abnf.Cache.Validity
import Abnf.Proofs.Analysis.Groups
import Abnf.Proofs.Cache.Wire
import Abnf.Proofs.Compile

/-!
# Valid payloads

What the checks of a payload amount to, and that the payload of every compiled grammar passes
them. A valid payload is read again after it is written: nothing in it but the counts of
references can be too large for its field.

* `Payload.flaw?_eq_none_iff`: what it means to pass the checks.
* `Payload.Valid.run_read`: a valid payload is read again.
* `valid_ofGrammar`: the payload of a compiled grammar is valid.
-/

namespace Abnf.Cache

/-! ## Checks -/

theorem unless?_eq_none_iff {α : Type} {b : Bool} {flaw : α} :
    unless? b flaw = none ↔ b = true := by
  cases b <;> simp [unless?]

/-- What an opcode may carry in a rule of `size` opcodes. -/
def MayCarry (rules udts size : Nat) : Opcode → Prop
  | .alt children | .cat children => children ≠ [] ∧ ∀ child ∈ children, child < size
  | .rep min max => ∀ m ∈ max, min ≤ m
  | .trg min max => min ≤ max
  | .rnm index => index < rules
  | .udt index _ => index < udts
  | .bkr index toUdt _ => index < if toUdt then udts else rules
  | _ => True

theorem contentFlaw?_eq_none_iff {rules udts size : Nat} {op : Opcode} :
    contentFlaw? rules udts size op = none ↔ MayCarry rules udts size op := by
  cases op with
  | alt children | cat children =>
    cases children with
    | nil => simp [contentFlaw?, MayCarry]
    | cons child children => simp [contentFlaw?, MayCarry]
  | rep min max => cases max <;> simp [contentFlaw?, MayCarry, unless?_eq_none_iff]
  | bkr index toUdt caseInsensitive =>
    cases toUdt <;> simp [contentFlaw?, MayCarry, unless?_eq_none_iff]
  | _ => simp [contentFlaw?, MayCarry, unless?_eq_none_iff]

theorem opcodeFlaw?_eq_none_iff {rules udts size position : Nat} {op : Opcode} :
    opcodeFlaw? rules udts size position op = none ↔
      MayCarry rules udts size op ∧ (op.governsNext = true → position + 1 < size) := by
  rw [opcodeFlaw?, Option.or_eq_none_iff, contentFlaw?_eq_none_iff, unless?_eq_none_iff]
  cases op.governsNext <;> simp

namespace Payload

/-- What it means for a payload to pass the checks. -/
structure Valid (hash : List UInt8 → Digest) (payload : Payload) : Prop where
  ruleCount : payload.ruleCount = payload.rules.length
  udtCount : payload.udtCount = payload.udts.length
  opcodeCount : payload.opcodeCount = payload.totalOpcodes
  digest : hash payload.source.toUTF8.data.toList = payload.digest
  nonempty : ∀ rule ∈ payload.rules, rule.2 ≠ []
  opcodes : ∀ rule ∈ payload.rules, ∀ (i : Nat) op, rule.2[i]? = some op →
    MayCarry payload.rules.length payload.udts.length rule.2.length op ∧
      (op.governsNext = true → i + 1 < rule.2.length)
  findings : payload.findings.length = payload.rules.length
  classes : ∀ finding ∈ payload.findings, finding.1.counts.size = payload.rules.length ∧
    (finding.1.kind = .inGroup ↔ finding.1.group.isSome = true) ∧
      ∀ group ∈ finding.1.group, group < payload.groups.length
  groups : ∀ (group : Nat) members, payload.groups[group]? = some members →
    ∀ rule ∈ members, payload.groupOf? rule = some group

variable {payload : Payload}

theorem countFlaw?_eq_none_iff : payload.countFlaw? = none ↔
    payload.ruleCount = payload.rules.length ∧ payload.udtCount = payload.udts.length ∧
      payload.opcodeCount = payload.totalOpcodes := by
  simp [countFlaw?, miscount?, unless?_eq_none_iff]

theorem ruleFlaw?_eq_none_iff {rule : String × List Opcode} : payload.ruleFlaw? rule = none ↔
    rule.2 ≠ [] ∧ ∀ (i : Nat) op, rule.2[i]? = some op →
      MayCarry payload.rules.length payload.udts.length rule.2.length op ∧
        (op.governsNext = true → i + 1 < rule.2.length) := by
  rw [ruleFlaw?]
  split
  · rename_i hempty
    simp [List.isEmpty_iff.1 hempty]
  · rename_i hempty
    have hne : rule.2 ≠ [] := by simpa using hempty
    simp only [hne, ne_eq, not_false_eq_true, true_and, List.findSome?_eq_none_iff, Prod.forall,
      Option.map_eq_none_iff, opcodeFlaw?_eq_none_iff, List.mem_zipIdx_iff_getElem?]
    exact ⟨fun h i op hop => h op i hop, fun h op i hop => h i op hop⟩

theorem classFlaw?_eq_none_iff {rule : String} {found : RuleClass} :
    payload.classFlaw? rule found = none ↔ found.counts.size = payload.rules.length ∧
      (found.kind = .inGroup ↔ found.group.isSome = true) ∧
        ∀ group ∈ found.group, group < payload.groups.length := by
  rw [classFlaw?, Option.or_eq_none_iff, unless?_eq_none_iff, beq_iff_eq]
  cases found.group <;> simp [unless?_eq_none_iff]

theorem groupFlaw?_eq_none_iff {group : Nat} {members : List Nat} :
    payload.groupFlaw? group members = none ↔
      ∀ rule ∈ members, payload.groupOf? rule = some group := by
  simp [groupFlaw?]

/-- A payload passes the checks just if it is valid. -/
theorem flaw?_eq_none_iff {hash : List UInt8 → Digest} :
    payload.flaw? hash = none ↔ payload.Valid hash := by
  simp only [flaw?, Option.or_eq_none_iff, countFlaw?_eq_none_iff, unless?_eq_none_iff, beq_iff_eq,
    List.findSome?_eq_none_iff, ruleFlaw?_eq_none_iff, classFlaw?_eq_none_iff,
    groupFlaw?_eq_none_iff]
  constructor
  · rintro ⟨⟨hrules, hudts, hopcodes⟩, hdigest, hopcode, hfindings, hclasses, hgroups⟩
    refine ⟨hrules, hudts, hopcodes, hdigest, fun rule hrule => (hopcode rule hrule).1,
      fun rule hrule => (hopcode rule hrule).2, hfindings, ?_, ?_⟩
    · intro finding hfinding
      obtain ⟨rule, hpair⟩ : ∃ rule, (rule, finding) ∈ payload.rules.zip payload.findings := by
        obtain ⟨i, hi⟩ := List.getElem?_of_mem hfinding
        have hlt : i < payload.rules.length := hfindings ▸ (List.getElem?_eq_some_iff.1 hi).1
        exact ⟨_, List.mem_of_getElem?
          (List.getElem?_zip_eq_some.2 ⟨List.getElem?_eq_getElem hlt, hi⟩)⟩
      exact hclasses _ hpair
    · intro group members hget
      exact hgroups (members, group) (List.mem_zipIdx_iff_getElem?.2 hget)
  · intro h
    refine ⟨⟨h.ruleCount, h.udtCount, h.opcodeCount⟩, h.digest,
      fun rule hrule => ⟨h.nonempty rule hrule, h.opcodes rule hrule⟩, h.findings, ?_, ?_⟩
    · rintro ⟨rule, finding⟩ hpair
      exact h.classes finding (List.of_mem_zip hpair).2
    · rintro ⟨members, group⟩ hmem
      exact h.groups group members (List.mem_zipIdx_iff_getElem?.1 hmem)

/-! ## Reading again -/

theorem codes_rule : Codes (fun rule => writeText rule.1 ++ writeList writeOpcode rule.2)
    (do return (← readText, ← readList readOpcode))
    fun rule => True ∧ ∀ op ∈ rule.2, ∀ i ∈ op.indices, i < 2 ^ 64 :=
  codes_pair codes_text (codes_list codes_opcode)

theorem totalOpcodes_eq_sum (payload : Payload) :
    payload.totalOpcodes = (payload.rules.map fun rule => rule.2.length).sum := by
  rw [totalOpcodes, List.sum_eq_foldl, List.foldl_map]

/-- There are fewer opcodes than bytes. -/
theorem totalOpcodes_le (payload : Payload) : payload.totalOpcodes ≤
    (writeList (fun rule => writeText rule.1 ++ writeList writeOpcode rule.2)
      payload.rules).length := by
  rw [totalOpcodes_eq_sum, writeList, List.length_append, List.length_flatMap]
  refine Nat.le_add_left_of_le (List.sum_le_sum fun rule _ => ?_)
  rw [List.length_append]
  exact Nat.le_add_left_of_le (codes_opcode.length_le_writeList rule.2)

theorem length_le_totalOpcodes {rule : String × List Opcode} (h : rule ∈ payload.rules) :
    rule.2.length ≤ payload.totalOpcodes := by
  rw [totalOpcodes_eq_sum]
  exact List.le_sum_of_mem (List.mem_map_of_mem h)

/-- The positions in an opcode are below any bound of the sizes of the tables. -/
theorem lt_of_mem_indices {rules udts size bound : Nat} {op : Opcode}
    (h : MayCarry rules udts size op) (hrules : rules ≤ bound) (hudts : udts ≤ bound)
    (hsize : size ≤ bound) {i : Nat} (hi : i ∈ op.indices) : i < bound := by
  cases op with
  | alt children | cat children => exact Nat.lt_of_lt_of_le (h.2 i hi) hsize
  | rnm index | udt index empty =>
    rw [List.mem_singleton.1 hi]
    exact Nat.lt_of_lt_of_le h ‹_›
  | bkr index toUdt caseInsensitive =>
    rw [List.mem_singleton.1 hi]
    cases toUdt with
    | true => exact Nat.lt_of_lt_of_le h hudts
    | false => exact Nat.lt_of_lt_of_le h hrules
  | _ => cases hi

/-- A valid payload is read again, unless it is too long or counts too many references. -/
theorem Valid.run_read {hash : List UInt8 → Digest} (h : payload.Valid hash)
    (hcounts : ∀ finding ∈ payload.findings, ∀ n ∈ finding.1.counts, n < 2 ^ 32)
    (hlength : payload.write.length < 2 ^ 32) (rest : List UInt8) :
    read.run (payload.write ++ rest) = some (payload, rest) := by
  simp only [write, List.length_append] at hlength
  -- A list is no longer than what is written of it, so its length fits in its field.
  have hrules := codes_rule.length_le_writeList payload.rules
  have hudts := (codes_pair codes_text codes_flag).length_le_writeList payload.udts
  have hfindings := codes_finding.length_le_writeList payload.findings
  have hgroups := (codes_list codes_index).length_le_writeList payload.groups
  have htotal := totalOpcodes_le payload
  have hruleCount : payload.ruleCount < 2 ^ 64 := by rw [h.ruleCount]; omega
  have hudtCount : payload.udtCount < 2 ^ 64 := by rw [h.udtCount]; omega
  have hopcodeCount : payload.opcodeCount < 2 ^ 64 := by rw [h.opcodeCount]; omega
  have hopcodes : ∀ rule ∈ payload.rules, True ∧
      ∀ op ∈ rule.2, ∀ i ∈ op.indices, i < 2 ^ 64 := by
    intro rule hrule
    refine ⟨trivial, fun op hop i hi => ?_⟩
    obtain ⟨position, hposition⟩ := List.getElem?_of_mem hop
    have hcarry := (h.opcodes rule hrule position op hposition).1
    have hsize := length_le_totalOpcodes hrule
    exact lt_of_mem_indices hcarry (by omega) (by omega) (by omega) hi
  have hudtsGood : ∀ udt ∈ payload.udts, True ∧ True := fun _ _ => ⟨trivial, trivial⟩
  have hclasses : ∀ finding ∈ payload.findings, (∀ group ∈ finding.1.group, group < 2 ^ 64) ∧
      ∀ n ∈ finding.1.counts, n < 2 ^ 32 := by
    intro finding hfinding
    refine ⟨fun group hgroup => ?_, hcounts finding hfinding⟩
    have hlt := (h.classes finding hfinding).2.2 group hgroup
    omega
  have hmembers : ∀ members ∈ payload.groups, ∀ rule ∈ members, rule < 2 ^ 64 := by
    intro members hmem rule hrule
    obtain ⟨group, hgroup⟩ := List.getElem?_of_mem hmem
    obtain ⟨finding, hfinding, -⟩ :=
      Option.bind_eq_some_iff.1 (h.groups group members hgroup rule hrule)
    have hlt := (List.getElem?_eq_some_iff.1 hfinding).1
    omega
  have hsource := codes_text.reads (a := payload.source) trivial (by omega) rest
  simp only [write, read, List.append_assoc, StateT.run_bind, Option.bind_eq_bind, Option.bind_some,
    codes_index.reads hruleCount (by omega), codes_index.reads hudtCount (by omega),
    codes_index.reads hopcodeCount (by omega), run_readDigest,
    (codes_list codes_rule).reads hopcodes (by omega),
    (codes_list (codes_pair codes_text codes_flag)).reads hudtsGood (by omega),
    (codes_list codes_finding).reads hclasses (by omega),
    (codes_list (codes_list codes_index)).reads hmembers (by omega),
    hsource]
  rfl

end Payload

end Abnf.Cache
