import Abnf.Listing
import Abnf.Proofs.Cache.RoundTrip

/-!
# Loading stays within range

Bytes that come from anywhere are loaded or refused without a look past the end of any table,
whatever the reader of the payload makes of them: the length of the bytes is checked before each of
their parts is taken. A payload that passes the checks holds a grammar that can be asked about any
of its rules, and whose listing finds every name that it spells out.

* `payloadWithin`, `loadWithin`: loading, where a part that is not there is a fault.
* `Grammar.Answers`: no question about the grammar is a fault.
* `load_answers`: loading is no fault, and what is loaded answers every question.
-/

namespace Abnf

/-- A loop whose steps all succeed succeeds. -/
theorem exists_mapM_eq_ok {ε α β : Type} {f : α → Except ε β} {as : List α}
    (h : ∀ a ∈ as, ∃ b, f a = .ok b) : ∃ bs, as.mapM f = .ok bs := by
  induction as with
  | nil => exact ⟨[], rfl⟩
  | cons a as ih =>
    obtain ⟨b, hb⟩ := h a List.mem_cons_self
    obtain ⟨bs, hbs⟩ := ih fun a ha => h a (List.mem_cons_of_mem _ ha)
    refine ⟨b :: bs, ?_⟩
    rw [List.mapM_cons, hb, hbs]
    rfl

theorem exists_fetch_eq_ok {α : Type} (table : Array α) {index : Nat} (h : index < table.size) :
    ∃ entry, fetch table index = .ok entry :=
  ⟨_, fetch_eq_ok.2 (Array.getElem?_eq_getElem h)⟩

/-! ## Questions about a grammar -/

/-- A grammar about which every question is answered: the listing is made, the dependencies of
every name are found, a rule that is found by name stands where its index says, and each rule has a
class and attributes; what it refers to and the group it is in are there. The summary and the names
for callbacks look nothing up. -/
structure Grammar.Answers (grammar : Grammar) : Prop where
  listing : ∃ text, grammar.listing = .ok text
  dependenciesOf : ∀ name, ∃ names, grammar.dependenciesOf name = .ok names
  rule? : ∀ name rule, grammar.rule? name = some rule → grammar.rules[rule.index]? = some rule
  kindAt : ∀ rule < grammar.rules.size, ∃ kind, grammar.analysis.kindAt rule = .ok kind
  labelAt : ∀ rule < grammar.rules.size, ∃ label, grammar.analysis.labelAt rule = .ok label
  groupAt : ∀ rule < grammar.rules.size, ∃ group, grammar.analysis.groupAt rule = .ok group ∧
    ∀ number ∈ group, number < grammar.analysis.groups.size
  attributesAt : ∀ rule < grammar.rules.size, ∃ attributes,
    grammar.analysis.attributesAt rule = .ok attributes
  referencesAt : ∀ rule < grammar.rules.size, ∃ references,
    grammar.analysis.referencesAt rule = .ok references ∧
      ∀ target ∈ references, target < grammar.rules.size

namespace Cache

variable {hash : List UInt8 → Digest} {grammar : Grammar} {payload : Payload}

/-! ## Loading with faults -/

/-- `count` bytes from an offset on, which have to be there. -/
def sliceWithin (bytes : List UInt8) (offset count : Nat) : Except Fault (List UInt8) :=
  if offset + count ≤ bytes.length then .ok (slice bytes offset count) else .error .outOfRange

/-- The payload of a cache, if its header is right. The header is taken apart before anything in it
is looked at. -/
def payloadWithin (hash : List UInt8 → Digest) (bytes : List UInt8) :
    Except Fault (Except LoadError (List UInt8)) := do
  if bytes.length < headerSize then
    return .error (.length headerSize bytes.length)
  if (← sliceWithin bytes 0 4) ≠ magic then
    return .error .magic
  let version := ofLittleEndian (← sliceWithin bytes 4 2)
  let length := ofLittleEndian (← sliceWithin bytes 12 4)
  let sum ← sliceWithin bytes 16 16
  if version ≠ formatVersion then
    return .error (.version version)
  if bytes.length < headerSize + length then
    return .error (.length length (bytes.length - headerSize))
  let payload ← sliceWithin bytes headerSize length
  if checksum hash payload ≠ sum then
    return .error .checksum
  return .ok payload

/-- The grammar that a cache holds, if `read` makes a payload of its bytes. -/
def loadWithin (hash : List UInt8 → Digest) (read : List UInt8 → Option Payload)
    (bytes : List UInt8) : Except Fault (Except LoadError Grammar) := do
  match ← payloadWithin hash bytes with
  | .error e => return .error e
  | .ok bytes =>
    match read bytes with
    | none => return .error .unreadable
    | some payload =>
      match payload.flaw? hash with
      | some flaw => return .error (.invalid flaw)
      | none => return .ok payload.toGrammar

theorem sliceWithin_eq_ok {bytes : List UInt8} {offset count : Nat}
    (h : offset + count ≤ bytes.length) :
    sliceWithin bytes offset count = .ok (slice bytes offset count) :=
  if_pos h

/-- No part of a header or payload is taken that is not there. -/
theorem payloadWithin_eq (hash : List UInt8 → Digest) (bytes : List UInt8) :
    payloadWithin hash bytes = .ok (payloadOf hash bytes) := by
  rw [payloadWithin, payloadOf]
  by_cases hheader : bytes.length < headerSize
  · rw [if_pos hheader, if_pos hheader]
    rfl
  have hlength : 32 ≤ bytes.length := Nat.le_of_not_lt hheader
  rw [if_neg hheader, if_neg hheader, sliceWithin_eq_ok (by omega), sliceWithin_eq_ok (by omega),
    sliceWithin_eq_ok (by omega), sliceWithin_eq_ok (by omega)]
  simp only [bind, Except.bind]
  by_cases hmagic : slice bytes 0 4 ≠ magic
  · rw [if_pos hmagic, if_pos hmagic]
    rfl
  rw [if_neg hmagic, if_neg hmagic]
  by_cases hversion : ofLittleEndian (slice bytes 4 2) ≠ formatVersion
  · rw [if_pos hversion, if_pos hversion]
    rfl
  rw [if_neg hversion, if_neg hversion]
  by_cases hshort : bytes.length < headerSize + ofLittleEndian (slice bytes 12 4)
  · rw [if_pos hshort, if_pos hshort]
    rfl
  rw [if_neg hshort, if_neg hshort, sliceWithin_eq_ok (Nat.le_of_not_lt hshort)]
  simp only
  split <;> rfl

/-- Loading with faults is loading: there are none. -/
theorem loadWithin_eq (hash : List UInt8 → Digest) (bytes : List UInt8) :
    loadWithin hash (fun bytes => (Payload.read bytes).map Prod.fst) bytes =
      .ok (load hash bytes) := by
  rw [loadWithin, load, payloadWithin_eq]
  cases payloadOf hash bytes with
  | error e => rfl
  | ok bytes =>
    simp only [bind, Except.bind]
    cases Payload.read bytes with
    | none => rfl
    | some found =>
      simp only [Option.map_some]
      cases Payload.flaw? hash found.1 <;> rfl

/-- Whatever the reader makes of the bytes, they are loaded or refused, and only a valid payload is
loaded. -/
theorem exists_loadWithin (hash : List UInt8 → Digest) (read : List UInt8 → Option Payload)
    (bytes : List UInt8) : ∃ outcome, loadWithin hash read bytes = .ok outcome ∧
      ∀ grammar, outcome = .ok grammar →
        ∃ payload : Payload, payload.Valid hash ∧ grammar = payload.toGrammar := by
  rw [loadWithin, payloadWithin_eq]
  cases payloadOf hash bytes with
  | error e => exact ⟨.error e, rfl, fun _ h => by cases h⟩
  | ok bytes =>
    simp only [bind, Except.bind]
    cases read bytes with
    | none => exact ⟨.error .unreadable, rfl, fun _ h => by cases h⟩
    | some payload =>
      simp only
      split
      · exact ⟨_, rfl, fun _ h => by cases h⟩
      · rename_i hvalid
        refine ⟨_, rfl, fun grammar h => ⟨payload, Payload.flaw?_eq_none_iff.1 hvalid, ?_⟩⟩
        cases h
        rfl

/-! ## Grammars of valid payloads -/

/-- The names that the comment of an opcode spells out are there. -/
theorem exists_comment {size : Nat} {op : Opcode}
    (h : MayCarry grammar.rules.size grammar.udts.size size op) :
    ∃ text, Listing.comment grammar op = .ok text := by
  cases op with
  | rnm index =>
    obtain ⟨rule, hrule⟩ := exists_fetch_eq_ok grammar.rules h
    exact ⟨_, by rw [Listing.comment, hrule]; rfl⟩
  | udt index empty =>
    obtain ⟨udt, hudt⟩ := exists_fetch_eq_ok grammar.udts h
    exact ⟨_, by rw [Listing.comment, hudt]; rfl⟩
  | bkr index toUdt caseInsensitive =>
    cases toUdt with
    | true =>
      obtain ⟨udt, hudt⟩ := exists_fetch_eq_ok grammar.udts h
      exact ⟨_, by rw [Listing.comment, hudt]; rfl⟩
    | false =>
      obtain ⟨rule, hrule⟩ := exists_fetch_eq_ok grammar.rules h
      exact ⟨_, by rw [Listing.comment, hrule]; rfl⟩
  | _ => exact ⟨_, rfl⟩

theorem exists_ruleLines {rule : Rule}
    (h : ∀ op ∈ rule.opcodes, MayCarry grammar.rules.size grammar.udts.size rule.opcodes.size op) :
    ∃ lines, Listing.ruleLines grammar rule = .ok lines := by
  have hopcode : ∀ entry ∈ rule.opcodes.toList.zipIdx,
      ∃ line, Listing.opcodeLine grammar entry.1 entry.2 = .ok line := by
    intro entry hmem
    have hop := List.mem_of_getElem? (List.mem_zipIdx_iff_getElem?.1 hmem)
    obtain ⟨text, htext⟩ := exists_comment (h entry.1 (Array.mem_toList_iff.1 hop))
    exact ⟨_, by simp only [Listing.opcodeLine, htext]; rfl⟩
  unfold Listing.ruleLines
  obtain ⟨opcodes, hopcodes⟩ := exists_mapM_eq_ok hopcode
  exact ⟨_, (congrArg (· >>= _) hopcodes).trans rfl⟩

/-- The listing of a grammar is made if what its opcodes refer to is there. -/
theorem exists_listing (h : ∀ rule ∈ grammar.rules, ∀ op ∈ rule.opcodes,
      MayCarry grammar.rules.size grammar.udts.size rule.opcodes.size op) :
    ∃ text, grammar.listing = .ok text := by
  obtain ⟨rules, hrules⟩ : ∃ lines, grammar.rules.toList.mapM (Listing.ruleLines grammar) =
      .ok lines :=
    exists_mapM_eq_ok fun rule hrule => exists_ruleLines (h rule (Array.mem_toList_iff.1 hrule))
  exact ⟨_, by rw [Grammar.listing, Listing.text, Listing.lines, hrules]; rfl⟩

namespace Payload

theorem rules_toGrammar {i : Nat} {rule : Rule} (h : payload.toGrammar.rules[i]? = some rule) :
    rule.index = i ∧ (rule.name, rule.opcodes.toList) ∈ payload.rules := by
  simp only [toGrammar, List.getElem?_toArray, List.getElem?_map, List.getElem?_zipIdx,
    Option.map_eq_some_iff] at h
  obtain ⟨_, ⟨found, hfound, rfl⟩, rfl⟩ := h
  exact ⟨Nat.zero_add i, List.mem_of_getElem? hfound⟩

theorem size_rules_toGrammar : payload.toGrammar.rules.size = payload.rules.length := by
  simp [toGrammar]

theorem size_udts_toGrammar : payload.toGrammar.udts.size = payload.udts.length := by
  simp [toGrammar]

/-- Each rule of the grammar of a valid payload has a class, and what it refers to is there. -/
theorem Valid.exists_class (h : payload.Valid hash) {rule : Nat}
    (hrule : rule < payload.toGrammar.rules.size) :
    ∃ found, fetch payload.toGrammar.analysis.classes rule = .ok found ∧
      (∀ target ∈ found.references, target < payload.toGrammar.rules.size) ∧
      ∀ group ∈ found.group, group < payload.toGrammar.analysis.groups.size := by
  have hlt : rule < payload.findings.length := by
    rw [h.findings, ← size_rules_toGrammar]
    exact hrule
  obtain ⟨hcounts, -, hgroup⟩ := h.classes _ (List.getElem_mem hlt)
  refine ⟨payload.findings[rule].1, ?_, fun target htarget => ?_, hgroup⟩
  · rw [fetch_eq_ok]
    simp [toGrammar, hlt]
  · have hmem := (List.mem_filter.1 htarget).1
    rw [List.mem_range, hcounts, ← size_rules_toGrammar] at hmem
    exact hmem

theorem rule?_toGrammar {name : String} {rule : Rule}
    (h : payload.toGrammar.rule? name = some rule) :
    payload.toGrammar.rules[rule.index]? = some rule := by
  obtain ⟨i, hi⟩ := Array.getElem?_of_mem (Array.mem_of_find?_eq_some h)
  rw [(rules_toGrammar hi).1]
  exact hi

theorem Valid.exists_dependenciesOf (h : payload.Valid hash) (name : String) :
    ∃ names, payload.toGrammar.dependenciesOf name = .ok names := by
  rw [Grammar.dependenciesOf]
  split
  · rename_i rule hrule
    have hlt := (Array.getElem?_eq_some_iff.1 (rule?_toGrammar hrule)).1
    obtain ⟨found, hfound, hreferences, -⟩ := h.exists_class hlt
    obtain ⟨names, hnames⟩ : ∃ names, found.references.mapM
        (fun index => Rule.name <$> fetch payload.toGrammar.rules index) = .ok names := by
      refine exists_mapM_eq_ok fun index hindex => ?_
      obtain ⟨target, htarget⟩ := exists_fetch_eq_ok _ (hreferences index hindex)
      exact ⟨target.name, by rw [htarget]; rfl⟩
    refine ⟨some names, ?_⟩
    simp only [Grammar.dependencies, hfound, bind, Except.bind, hnames]
    rfl
  · exact ⟨none, rfl⟩

/-- The grammar of a valid payload answers every question. -/
theorem Valid.answers (h : payload.Valid hash) : payload.toGrammar.Answers where
  listing := by
    refine exists_listing fun rule hrule op hop => ?_
    obtain ⟨i, hi⟩ := Array.getElem?_of_mem hrule
    obtain ⟨j, hj⟩ := Array.getElem?_of_mem hop
    rw [size_rules_toGrammar, size_udts_toGrammar]
    exact (h.opcodes _ (rules_toGrammar hi).2 j op (by simpa using hj)).1
  dependenciesOf := h.exists_dependenciesOf
  rule? _ _ hrule := rule?_toGrammar hrule
  kindAt rule hrule := by
    obtain ⟨found, hfound, -⟩ := h.exists_class hrule
    exact ⟨found.kind, by rw [Analysis.kindAt, hfound]; rfl⟩
  labelAt rule hrule := by
    obtain ⟨found, hfound, -⟩ := h.exists_class hrule
    exact ⟨found.label, by rw [Analysis.labelAt, hfound]; rfl⟩
  groupAt rule hrule := by
    obtain ⟨found, hfound, -, hgroup⟩ := h.exists_class hrule
    exact ⟨found.group, by rw [Analysis.groupAt, hfound]; rfl, hgroup⟩
  attributesAt rule hrule := by
    refine exists_fetch_eq_ok payload.toGrammar.analysis.attributes ?_
    simpa [toGrammar, h.findings] using hrule
  referencesAt rule hrule := by
    obtain ⟨found, hfound, hreferences, -⟩ := h.exists_class hrule
    exact ⟨found.references, by rw [Analysis.referencesAt, hfound]; rfl, hreferences⟩

end Payload

/-! ## Loading -/

/-- For every hash function, every reader of payloads and all bytes: they are loaded or refused
without a look past the end of a table, and a grammar that is loaded answers every question. The
reader of the format is one of these readers. -/
theorem load_answers (hash : List UInt8 → Digest) (bytes : List UInt8) :
    (∀ read, ∃ outcome, loadWithin hash read bytes = .ok outcome ∧
      ∀ grammar, outcome = .ok grammar → grammar.Answers) ∧
    loadWithin hash (fun bytes => (Payload.read bytes).map Prod.fst) bytes =
      .ok (load hash bytes) := by
  refine ⟨fun read => ?_, loadWithin_eq hash bytes⟩
  obtain ⟨outcome, houtcome, hvalid⟩ := exists_loadWithin hash read bytes
  refine ⟨outcome, houtcome, fun grammar hgrammar => ?_⟩
  obtain ⟨payload, hpayload, rfl⟩ := hvalid grammar hgrammar
  exact hpayload.answers

/-- A payload that was not made by saving a grammar: its rules are in a group, refer to each other
and to a user-defined terminal, and the counts are made up. -/
def forged : Payload where
  ruleCount := 2
  udtCount := 1
  opcodeCount := 7
  digest := Blake3.hash "A=B".toUTF8.data.toList
  rules := [("A", [.cat [1, 2, 3], .rnm 1, .udt 0 true, .bkr 0 true false]),
    ("B", [.alt [1, 2], .rnm 0, .bkr 1 false true])]
  udts := [("u_x", true)]
  findings := [(⟨.inGroup, some 0, #[7, 0]⟩, { left := true }), (⟨.inGroup, some 0, #[0, 9]⟩, { })]
  groups := [[0, 1, 1]]
  source := "A=B"

theorem valid_forged : forged.Valid Blake3.hash := by
  rw [← Payload.flaw?_eq_none_iff]
  have hdigest : (Blake3.hash forged.source.toUTF8.data.toList == forged.digest) = true :=
    beq_self_eq_true _
  rw [Payload.flaw?, hdigest]
  decide

/-- The forged payload behind its header is loaded, and answers every question. -/
theorem load_answers_forged :
    ∃ grammar, Grammar.ofBytes (header Blake3.hash forged.write ++ forged.write) = .ok grammar ∧
      grammar.Answers := by
  have hlength : forged.write.length < 2 ^ 32 := by
    have hdigest : (writeDigest forged.digest).length = 32 := by simp [writeDigest]
    simp only [Payload.write, List.length_append, hdigest]
    decide
  have hload := load_write valid_forged (by decide) hlength
  obtain ⟨hanswers, hsame⟩ :=
    load_answers Blake3.hash (header Blake3.hash forged.write ++ forged.write)
  obtain ⟨outcome, houtcome, hgrammar⟩ := hanswers fun bytes => (Payload.read bytes).map Prod.fst
  rw [hsame, hload] at houtcome
  exact ⟨forged.toGrammar, hload, hgrammar _ (Except.ok.inj houtcome).symm⟩

end Cache

end Abnf
