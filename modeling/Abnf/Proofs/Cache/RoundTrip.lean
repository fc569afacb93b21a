import Abnf.Cache
import Abnf.Proofs.Cache.Validity
import Abnf.Proofs.Safety

/-!
# Caches are loaded again

A grammar that was compiled, or that was loaded from a cache, is saved and loaded without a
change. The payload of a compiled grammar passes every check because its tables are well formed
and its classes come from classification; a loaded grammar has a payload that has passed already.

* `valid_ofGrammar`: the payload of a compiled grammar is valid.
* `toGrammar_ofGrammar`, `ofGrammar_toGrammar`: grammars and valid payloads stand for each other.
* `load_save`: what is saved is loaded.
-/

namespace Abnf

/-! ## Compiled grammars -/

/-- User-defined terminals stand where their index says. -/
theorem Tables.index_udts (source : Source) (recognition : Metagrammar.Recognition) {i : Nat}
    {udt : Udt} (h : (Tables.ofRecognition source recognition).udts[i]? = some udt) :
    udt.index = i := by
  unfold Tables.ofRecognition at h
  split at h
  · simp only [Tables.ofDefinitions, List.getElem?_toArray, List.getElem?_map,
      List.getElem?_zipIdx, Option.map_eq_some_iff] at h
    obtain ⟨_, ⟨named, -, rfl⟩, rfl⟩ := h
    simp
  · simp at h

theorem index_udts_of_compileText {strict : Bool} {text : String} {grammar : Grammar}
    (h : compileText strict text = .ok (.ok grammar)) {i : Nat} {udt : Udt}
    (hudt : grammar.udts[i]? = some udt) : udt.index = i := by
  obtain ⟨-, _, _, _, -, -, -, -, rfl⟩ := exists_stages_of_compileText h
  exact Tables.index_udts _ _ hudt

/-- The classes and groups of a compiled grammar come from classification. -/
theorem Grammar.Checked.exists_classifies {grammar : Grammar} (h : grammar.Checked) :
    ∃ classified, Analysis.Classifies grammar.rules classified ∧
      grammar.analysis.classes = classified.classes ∧
      grammar.analysis.groups = classified.groups := by
  have hinRange : ∀ rule ∈ grammar.rules, ∀ t, .rnm t ∈ rule.opcodes → t < grammar.rules.size :=
    fun rule hrule t ht => h.tabled.wellFormed.fits rule hrule _ ht
  obtain ⟨classified, hclassify, hkept⟩ := Analysis.classes_of_analyze h.analyzed
  obtain ⟨_, hclassify', hexact⟩ := Analysis.classify_exact hinRange
  cases hclassify.symm.trans hclassify'
  exact ⟨classified, hexact, hkept⟩

theorem Grammar.Checked.size_attributes {grammar : Grammar} (h : grammar.Checked) :
    grammar.analysis.attributes.size = grammar.rules.size := by
  obtain ⟨bodies, hbodies, -⟩ := h.tabled.exists_tabulates
  obtain ⟨_, hanalyze, hknows⟩ := Analysis.analyze_spec hbodies supported_nullable
  cases h.analyzed.symm.trans hanalyze
  exact hknows.size

namespace Cache

variable {hash : List UInt8 → Digest} {grammar : Grammar} {payload : Payload}

theorem opcodeCount_eq_totalOpcodes (hash : List UInt8 → Digest) (grammar : Grammar) :
    opcodeCount grammar.rules = (Payload.ofGrammar hash grammar).totalOpcodes := by
  rw [opcodeCount, ← Array.foldl_toList, Payload.totalOpcodes, Payload.ofGrammar, List.foldl_map]
  rfl

/-- Opcodes of well-formed tables may carry what they carry. -/
theorem mayCarry_of_fits {ruleCount : Nat} {udts : Array Udt} {opcodes : Array Opcode}
    (hwired : Opcodes.Wired opcodes) {i : Nat} {op : Opcode} (hop : opcodes[i]? = some op)
    (hfits : op.Fits ruleCount udts) : MayCarry ruleCount udts.size opcodes.size op := by
  cases op with
  | alt children | cat children =>
    exact ⟨hwired.branches hop rfl, fun child hchild => (hwired.forward hop hchild).2⟩
  | udt index empty =>
    obtain ⟨udt, hudt, -⟩ := hfits
    exact (Array.getElem?_eq_some_iff.1 hudt).1
  | rep | trg | rnm | bkr => exact hfits
  | _ => trivial

/-- The payload of a compiled grammar passes every check. -/
theorem valid_ofGrammar (h : grammar.Checked) : (Payload.ofGrammar hash grammar).Valid hash := by
  have hwell := h.tabled.wellFormed
  obtain ⟨classified, hexact, hclasses, hgroups⟩ := h.exists_classifies
  have hattributes := h.size_attributes
  have hsize : grammar.analysis.classes.size = grammar.rules.size := by rw [hclasses, hexact.size]
  have hclass : ∀ {c}, c ∈ grammar.analysis.classes →
      ∃ r : Nat, classified.classes[r]? = some c := by
    intro c hc
    rw [hclasses] at hc
    exact Array.getElem?_of_mem hc
  exact {
    ruleCount := by simp [Payload.ofGrammar]
    udtCount := by simp [Payload.ofGrammar]
    opcodeCount := opcodeCount_eq_totalOpcodes hash grammar
    digest := rfl
    nonempty := fun rule hrule => by
      obtain ⟨rule, hmem, rfl⟩ := List.mem_map.1 hrule
      have hpos := (hwell.wired rule (Array.mem_toList_iff.1 hmem)).nonempty
      simpa [Array.size_eq_zero_iff] using Nat.pos_iff_ne_zero.1 hpos
    opcodes := fun rule hrule i op hop => by
      obtain ⟨rule, hmem, rfl⟩ := List.mem_map.1 hrule
      have hrule := Array.mem_toList_iff.1 hmem
      have hop : rule.opcodes[i]? = some op := by simpa using hop
      have hcarry := mayCarry_of_fits (hwell.wired rule hrule) hop
        (hwell.fits rule hrule op (Array.mem_of_getElem? hop))
      refine ⟨by simpa [Payload.ofGrammar] using hcarry, fun hgoverns => ?_⟩
      simpa using (hwell.wired rule hrule).governed hop hgoverns
    findings := by simp [Payload.ofGrammar, hsize, hattributes]
    classes := fun finding hfinding => by
      obtain ⟨r, hr⟩ := hclass (Array.mem_toList_iff.1 (List.of_mem_zip hfinding).1)
      refine ⟨?_, hexact.inGroup hr, fun group hgroup => ?_⟩
      · simpa [Payload.ofGrammar] using hexact.counts_size finding.1 (Array.mem_of_getElem? hr)
      · obtain ⟨members, hmembers, -⟩ := (hexact.group hr group).1 hgroup
        simpa [Payload.ofGrammar, hgroups] using (Array.getElem?_eq_some_iff.1 hmembers).1
    groups := fun group members hmembers r hr => by
      have hmembers : classified.groups[group]? = some members := by
        simpa [Payload.ofGrammar, hgroups] using hmembers
      have hlt := hexact.members members (Array.mem_of_getElem? hmembers) r hr
      obtain ⟨c, hc⟩ : ∃ c, grammar.analysis.classes[r]? = some c :=
        ⟨_, Array.getElem?_eq_getElem (hsize.symm ▸ hlt)⟩
      obtain ⟨a, ha⟩ : ∃ a, grammar.analysis.attributes[r]? = some a :=
        ⟨_, Array.getElem?_eq_getElem (hattributes.symm ▸ hlt)⟩
      have hfinding : (Payload.ofGrammar hash grammar).findings[r]? = some (c, a) :=
        List.getElem?_zip_eq_some.2 ⟨by simpa using hc, by simpa using ha⟩
      rw [Payload.groupOf?, hfinding]
      exact (hexact.group (hclasses ▸ hc) group).2 ⟨members, hmembers, hr⟩ }

/-! ## Grammars and payloads -/

theorem zipIdx_map_index {α β : Type} {f : β → α} {g : α → Nat → β} {bs : List β}
    (h : ∀ (i : Nat) b, bs[i]? = some b → g (f b) i = b) :
    ((bs.map f).zipIdx.map fun a => g a.1 a.2) = bs := by
  refine List.ext_getElem? fun i => ?_
  rw [List.getElem?_map, List.getElem?_zipIdx, List.getElem?_map]
  cases hi : bs[i]? with
  | none => rfl
  | some b => simp [h i b hi]

/-- A grammar whose tables stand in order is the one that its payload holds. -/
theorem toGrammar_ofGrammar
    (hrules : ∀ (i : Nat) rule, grammar.rules[i]? = some rule → rule.index = i)
    (hudts : ∀ (i : Nat) udt, grammar.udts[i]? = some udt → udt.index = i)
    (hsize : grammar.analysis.classes.size = grammar.analysis.attributes.size) :
    (Payload.ofGrammar hash grammar).toGrammar = grammar := by
  obtain ⟨⟨rules⟩, ⟨udts⟩, ⟨⟨classes⟩, ⟨attributes⟩, ⟨groups⟩⟩, source⟩ := grammar
  have hlength : classes.length = attributes.length := hsize
  have hrules' : (((rules.map fun rule => (rule.name, rule.opcodes.toList)).zipIdx.map
      fun a => (⟨a.1.1, a.2, a.1.2.toArray⟩ : Rule))) = rules := by
    refine zipIdx_map_index
      (g := fun (a : String × List Opcode) i => (⟨a.1, i, a.2.toArray⟩ : Rule)) fun i rule hi => ?_
    have hindex := hrules i rule (by simpa using hi)
    obtain ⟨name, index, opcodes⟩ := rule
    cases hindex
    rfl
  have hudts' : (((udts.map fun udt => (udt.name, udt.empty)).zipIdx.map
      fun a => (⟨a.1.1, a.2, a.1.2⟩ : Udt))) = udts := by
    refine zipIdx_map_index (g := fun (a : String × Bool) i => (⟨a.1, i, a.2⟩ : Udt))
      fun i udt hi => ?_
    have hindex := hudts i udt (by simpa using hi)
    obtain ⟨name, index, empty⟩ := udt
    cases hindex
    rfl
  simp only [Payload.ofGrammar, Payload.toGrammar, hrules', hudts',
    List.map_fst_zip (Nat.le_of_eq hlength), List.map_snd_zip (Nat.le_of_eq hlength.symm)]

/-- A valid payload is the one of the grammar that it holds. -/
theorem ofGrammar_toGrammar (h : payload.Valid hash) :
    Payload.ofGrammar hash payload.toGrammar = payload := by
  have hrules : (Payload.ofGrammar hash payload.toGrammar).rules = payload.rules := by
    simp [Payload.ofGrammar, Payload.toGrammar, List.map_map, Function.comp_def]
  have hudts : (Payload.ofGrammar hash payload.toGrammar).udts = payload.udts := by
    simp [Payload.ofGrammar, Payload.toGrammar, List.map_map, Function.comp_def]
  have hfindings : (Payload.ofGrammar hash payload.toGrammar).findings = payload.findings := by
    simp [Payload.ofGrammar, Payload.toGrammar, List.zip_map']
  have hopcodes : opcodeCount payload.toGrammar.rules = payload.opcodeCount := by
    rw [opcodeCount_eq_totalOpcodes hash, h.opcodeCount, Payload.totalOpcodes, hrules,
      Payload.totalOpcodes]
  obtain ⟨ruleCount, udtCount, opcodeCount, digest, rules, udts, findings, groups, source⟩ :=
    payload
  refine Payload.mk.injEq .. ▸ ⟨?_, ?_, hopcodes, h.digest, hrules, hudts, hfindings, rfl, rfl⟩
  · simpa [Payload.toGrammar] using h.ruleCount.symm
  · simpa [Payload.toGrammar] using h.udtCount.symm

/-! ## Saving and loading -/

theorem slice_eq {all bytes after : List UInt8} {offset count : Nat} (before : List UInt8)
    (hall : all = before ++ (bytes ++ after)) (hoffset : before.length = offset)
    (hcount : bytes.length = count) : slice all offset count = bytes := by
  simp [slice, hall, ← hoffset, ← hcount]

theorem length_checksum (hash : List UInt8 → Digest) (payload : List UInt8) :
    (checksum hash payload).length = 16 := by
  simp [checksum]

/-- The payload behind its own header is found. -/
theorem payloadOf_header {bytes : List UInt8} (h : bytes.length < 2 ^ 32) :
    payloadOf hash (header hash bytes ++ bytes) = .ok bytes := by
  have hchecksum := length_checksum hash bytes
  have hheader : (header hash bytes).length = headerSize := by
    simp [header, magic, length_littleEndian, hchecksum, headerSize]
  have hmagic : slice (header hash bytes ++ bytes) 0 4 = magic :=
    slice_eq [] (by simp only [header, List.append_assoc, List.nil_append]; rfl) rfl rfl
  have hversion : slice (header hash bytes ++ bytes) 4 2 = littleEndian 2 formatVersion :=
    slice_eq magic (by simp only [header, List.append_assoc]; rfl) rfl rfl
  have hlength : slice (header hash bytes ++ bytes) 12 4 = littleEndian 4 bytes.length :=
    slice_eq (magic ++ littleEndian 2 formatVersion ++ littleEndian 2 programVersion ++
      littleEndian 4 0) (by simp only [header, List.append_assoc]; rfl) rfl rfl
  have hsum : slice (header hash bytes ++ bytes) 16 16 = checksum hash bytes :=
    slice_eq (magic ++ littleEndian 2 formatVersion ++ littleEndian 2 programVersion ++
      littleEndian 4 0 ++ littleEndian 4 bytes.length)
      (by simp only [header, List.append_assoc]; rfl)
      rfl hchecksum
  have hpayload : slice (header hash bytes ++ bytes) headerSize bytes.length = bytes :=
    slice_eq (header hash bytes) (by rw [List.append_nil]) hheader rfl
  have hcount : ofLittleEndian (littleEndian 4 bytes.length) = bytes.length :=
    ofLittleEndian_littleEndian h
  have hall : (header hash bytes ++ bytes).length = headerSize + bytes.length := by
    rw [List.length_append, hheader]
  have hfits : ¬ headerSize + bytes.length < headerSize := by omega
  simp only [payloadOf, hmagic, hversion, hlength, hcount, hall, hpayload, hsum, hfits, if_false,
    ne_eq, not_true_eq_false, Nat.lt_irrefl]
  rfl

/-- A valid payload is loaded from its bytes, unless it is too long or counts too many
references. -/
theorem load_write (h : payload.Valid hash)
    (hcounts : ∀ finding ∈ payload.findings, ∀ n ∈ finding.1.counts, n < 2 ^ 32)
    (hlength : payload.write.length < 2 ^ 32) :
    load hash (header hash payload.write ++ payload.write) = .ok payload.toGrammar := by
  have hread : Payload.read payload.write = some (payload, []) := by
    have h := h.run_read hcounts hlength []
    rwa [List.append_nil] at h
  simp only [load, payloadOf_header hlength, bind, Except.bind, hread,
    Payload.flaw?_eq_none_iff.2 h]
  rfl

/-- A loaded grammar was held by a valid payload, whose counts fit in their fields. -/
theorem exists_payload_of_load {bytes : List UInt8} (h : load hash bytes = .ok grammar) :
    ∃ payload : Payload, payload.Valid hash ∧ grammar = payload.toGrammar ∧
      ∀ finding ∈ payload.findings, ∀ n ∈ finding.1.counts, n < 2 ^ 32 := by
  obtain ⟨bytes', -, h⟩ := exists_of_bind_eq_ok h
  split at h
  · cases h
  rename_i payload rest hread
  split at h
  · cases h
  rename_i hvalid
  cases h
  refine ⟨payload, Payload.flaw?_eq_none_iff.1 hvalid, rfl, ?_⟩
  change Payload.read.run bytes' = some (payload, rest) at hread
  simp only [Payload.read, StateT.run_bind, Option.bind_eq_bind, Option.bind_eq_some_iff] at hread
  obtain ⟨_, -, _, -, _, -, _, -, _, -, _, -, ⟨findings, _⟩, hfindings, _, -, _, -, hpure⟩ := hread
  cases hpure
  exact gives_list gives_finding hfindings

/-- No count of a compiled grammar is too large for its field. -/
theorem count_lt_of_checked (h : grammar.Checked)
    (hlength : (Payload.ofGrammar hash grammar).write.length < 2 ^ 32) :
    ∀ finding ∈ (Payload.ofGrammar hash grammar).findings, ∀ n ∈ finding.1.counts, n < 2 ^ 32 := by
  intro finding hfinding n hn
  obtain ⟨classified, hexact, hclasses, -⟩ := h.exists_classifies
  have hclass := Array.mem_toList_iff.1 (List.of_mem_zip hfinding).1
  have hle := hexact.counts_le finding.1 (hclasses ▸ hclass) n hn
  have htotal := Payload.totalOpcodes_le (Payload.ofGrammar hash grammar)
  rw [← opcodeCount_eq_totalOpcodes] at htotal
  simp only [Payload.write, List.length_append] at hlength
  omega

/-- A grammar that was compiled or loaded is loaded again from the bytes to which it is saved, if
its payload has fewer than 2^32 bytes. The payload of a compiled grammar passes every check. -/
theorem load_save (hash : List UInt8 → Digest) :
    (∀ grammar, ((∃ strict sources, compile strict sources = .ok (.ok grammar)) ∨
        ∃ bytes, load hash bytes = .ok grammar) →
      (Payload.ofGrammar hash grammar).write.length < 2 ^ 32 →
        load hash (save hash grammar) = .ok grammar) ∧
    ∀ strict sources grammar, compile strict sources = .ok (.ok grammar) →
      (Payload.ofGrammar hash grammar).flaw? hash = none := by
  refine ⟨?_, ?_⟩
  · rintro grammar (⟨strict, sources, hcompile⟩ | ⟨bytes, hload⟩) hlength
    · have hchecked := checked_of_compile hcompile
      have hvalid : (Payload.ofGrammar hash grammar).Valid hash := valid_ofGrammar hchecked
      have hsize : grammar.analysis.classes.size = grammar.analysis.attributes.size := by
        obtain ⟨_, hexact, hclasses, -⟩ := hchecked.exists_classifies
        rw [hchecked.size_attributes, hclasses, hexact.size]
      rw [save, load_write hvalid (count_lt_of_checked hchecked hlength) hlength,
        toGrammar_ofGrammar hchecked.tabled.index (fun _ _ => index_udts_of_compileText hcompile)
          hsize]
    · obtain ⟨payload, hvalid, rfl, hcounts⟩ := exists_payload_of_load hload
      rw [ofGrammar_toGrammar hvalid] at hlength
      rw [save, ofGrammar_toGrammar hvalid, load_write hvalid hcounts hlength]
  · intro strict sources grammar hcompile
    exact Payload.flaw?_eq_none_iff.2 (valid_ofGrammar (checked_of_compile hcompile))

theorem length_write_ofGrammar (hash hash' : List UInt8 → Digest) (grammar : Grammar) :
    (Payload.ofGrammar hash grammar).write.length =
      (Payload.ofGrammar hash' grammar).write.length := by
  simp [Payload.write, Payload.ofGrammar, writeDigest]

/-- The grammar of `S = *2A u_x` and `A = "a"`, saved and loaded with BLAKE3 digests. -/
theorem load_save_repeated :
    ∃ grammar, compile false ["S = *2A u_x\nA = \"a\"\n"] = .ok (.ok grammar) ∧
      (Payload.ofGrammar Blake3.hash grammar).write.length < 2 ^ 32 ∧
      Grammar.ofBytes grammar.toBytes = .ok grammar ∧
      (Payload.ofGrammar Blake3.hash grammar).flaw? Blake3.hash = none := by
  have hlength : ((grammar? false "S = *2A u_x\nA = \"a\"\n").any fun grammar =>
      (Payload.ofGrammar (fun _ => Vector.replicate 32 0) grammar).write.length < 2 ^ 32) =
      true := by
    decide +kernel
  obtain ⟨grammar, hgrammar, hlength⟩ := (Option.any_eq_true ..).1 hlength
  have hcompile := compile_of_grammar? hgrammar
  rw [decide_eq_true_eq, length_write_ofGrammar _ Blake3.hash] at hlength
  exact ⟨grammar, hcompile, hlength,
    (load_save Blake3.hash).1 grammar (Or.inl ⟨_, _, hcompile⟩) hlength,
    (load_save Blake3.hash).2 _ _ grammar hcompile⟩

end Cache

end Abnf
