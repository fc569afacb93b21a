import Abnf.Proofs.Analysis.Nesting
import Abnf.Proofs.Cache.Framing
import Abnf.Proofs.Cache.Loading
import Abnf.Proofs.Canonical.Compile

/-!
# The groups of a loaded grammar

Groups are written down twice: every rule names its group, and every group lists its members. In a
compiled grammar both say the same. The checks of a payload look at both, but they ask no more of a
list than that its rules name the group. So a cache can be loaded in which a group misses some of
its members or lists them again.

* `Analysis.partitions_of_checked`: in a compiled grammar each rule in a group is listed once.
* `Cacheable.load_regrouped`: what may be left out of the groups of a cache, or put in again.
* `groups_of_load`: how far the two tables of a loaded grammar agree.
-/

namespace Abnf

/-! ## The two tables -/

/-- Rules are in a group just if they name one, which is there, and a group lists only rules that
name it. -/
structure Analysis.NamesGroups (analysis : Analysis) : Prop where
  inGroup : ∀ {r : Nat} {c}, analysis.classes[r]? = some c →
    (c.kind = .inGroup ↔ ∃ g, c.group = some g)
  inRange : ∀ {r : Nat} {c} {g : Nat}, analysis.classes[r]? = some c → c.group = some g →
    g < analysis.groups.size
  named : ∀ {g r : Nat} {members}, analysis.groups[g]? = some members → r ∈ members →
    ∃ c, analysis.classes[r]? = some c ∧ c.group = some g

/-- Both tables describe the same partition: a rule is in a group just if it names one, and then
this group lists the rule exactly once, and no other group lists it. -/
structure Analysis.Partitions (analysis : Analysis) : Prop where
  inGroup : ∀ {r : Nat} {c}, analysis.classes[r]? = some c →
    (c.kind = .inGroup ↔ ∃ g, c.group = some g)
  once : ∀ {r : Nat} {c} {g : Nat}, analysis.classes[r]? = some c → c.group = some g →
    ∃ members, analysis.groups[g]? = some members ∧ members.count r = 1
  alone : ∀ {r : Nat} {c} {g : Nat} {members}, analysis.classes[r]? = some c →
    analysis.groups[g]? = some members → r ∈ members → c.group = some g
  rules : ∀ members ∈ analysis.groups, ∀ r ∈ members, r < analysis.classes.size

namespace Analysis

variable {analysis : Analysis}

/-- The lists of the members are all that a partition asks for beside the names. -/
theorem NamesGroups.partitions_iff (h : analysis.NamesGroups) :
    analysis.Partitions ↔ ∀ (r : Nat) c (g : Nat) members, analysis.classes[r]? = some c →
      c.group = some g → analysis.groups[g]? = some members → members.count r = 1 := by
  constructor
  · intro hpartitions r c g members hc hg hmembers
    obtain ⟨_, hget, hcount⟩ := hpartitions.once hc hg
    cases hmembers.symm.trans hget
    exact hcount
  · intro hcount
    refine ⟨h.inGroup, fun {r c g} hc hg => ?_, fun {r c g members} hc hmembers hr => ?_, ?_⟩
    · have hmembers := Array.getElem?_eq_getElem (h.inRange hc hg)
      exact ⟨_, hmembers, hcount r c g _ hc hg hmembers⟩
    · obtain ⟨_, hget, hg⟩ := h.named hmembers hr
      cases hc.symm.trans hget
      exact hg
    · intro members hmembers r hr
      obtain ⟨g, hg⟩ := Array.getElem?_of_mem hmembers
      obtain ⟨_, hc, -⟩ := h.named hg hr
      exact (Array.getElem?_eq_some_iff.1 hc).1

/-! ## Compiled grammars -/

/-- A group is found with each of its members once. -/
theorem nodup_of_mem_groups {rules : Array Rule} (h : classify rules = .ok analysis)
    {members : List Nat} (hmembers : members ∈ analysis.groups) : members.Nodup := by
  obtain ⟨graph, -, h⟩ := exists_of_bind_eq_ok h
  cases h
  obtain ⟨_, _, rfl, -⟩ := mem_findGroups_iff.1 (List.mem_toArray.1 hmembers)
  exact List.nodup_range.filter _

/-- In a compiled grammar both tables describe the same partition. -/
theorem partitions_of_checked {grammar : Grammar} (h : grammar.Checked) :
    grammar.analysis.Partitions := by
  have hinRange : ∀ rule ∈ grammar.rules, ∀ t, .rnm t ∈ rule.opcodes → t < grammar.rules.size :=
    fun rule hrule t ht => h.tabled.wellFormed.fits rule hrule _ ht
  obtain ⟨classified, hclassify, hclasses, hgroups⟩ := classes_of_analyze h.analyzed
  obtain ⟨_, hclassify', hexact⟩ := classify_exact hinRange
  cases hclassify.symm.trans hclassify'
  refine ⟨fun {r c} hc => ?_, fun {r c g} hc hg => ?_, fun {r c g members} hc hmembers hr => ?_, ?_⟩
  · rw [hclasses] at hc
    rw [hexact.inGroup hc, Option.isSome_iff_exists]
  · rw [hclasses] at hc
    obtain ⟨members, hmembers, hr⟩ := (hexact.group hc g).1 hg
    rw [hgroups]
    refine ⟨members, hmembers, List.count_eq_one_of_mem ?_ hr⟩
    exact nodup_of_mem_groups hclassify (Array.mem_of_getElem? hmembers)
  · rw [hclasses] at hc
    rw [hgroups] at hmembers
    exact (hexact.group hc g).2 ⟨members, hmembers, hr⟩
  · rw [hgroups, hclasses, hexact.size]
    exact hexact.members

end Analysis

namespace Cache

variable {hash : List UInt8 → Digest} {grammar : Grammar} {payload : Payload}

/-! ## Loaded grammars -/

/-- What the checks of a payload say of the groups of its grammar. -/
theorem Payload.Valid.namesGroups (h : payload.Valid hash) :
    payload.toGrammar.analysis.NamesGroups := by
  have hfinding : ∀ {r : Nat} {c}, payload.toGrammar.analysis.classes[r]? = some c →
      ∃ finding ∈ payload.findings, finding.1 = c := by
    intro r c hc
    obtain ⟨finding, hmem, rfl⟩ := List.mem_map.1 (List.mem_toArray.1 (Array.mem_of_getElem? hc))
    exact ⟨finding, hmem, rfl⟩
  refine ⟨fun {r c} hc => ?_, fun {r c g} hc hg => ?_, fun {g r members} hmembers hr => ?_⟩
  · obtain ⟨finding, hmem, rfl⟩ := hfinding hc
    rw [(h.classes finding hmem).2.1, Option.isSome_iff_exists]
  · obtain ⟨finding, hmem, rfl⟩ := hfinding hc
    exact (h.classes finding hmem).2.2 g hg
  · obtain ⟨finding, hget, hg⟩ := Option.bind_eq_some_iff.1
      (h.groups g members (by simpa [Payload.toGrammar] using hmembers) r hr)
    exact ⟨finding.1, by simp [Payload.toGrammar, hget], hg⟩

/-! ## Other lists of members -/

end Cache

/-- The grammar with other lists of the members of its groups. -/
def Grammar.regroup (grammar : Grammar) (groups : Array (List Nat)) : Grammar :=
  { grammar with analysis := { grammar.analysis with groups := groups } }

/-- As many groups as a grammar has, each of which lists only members that the grammar lists
there. Members may be missing, and may be listed more than once. -/
structure Grammar.Regroups (grammar : Grammar) (groups : Array (List Nat)) : Prop where
  size : groups.size = grammar.analysis.groups.size
  members : ∀ (g : Nat) listed members, groups[g]? = some listed →
    grammar.analysis.groups[g]? = some members → ∀ r ∈ listed, r ∈ members

namespace Cache

variable {hash : List UInt8 → Digest} {grammar : Grammar} {payload : Payload}

theorem ofGrammar_regroup (grammar : Grammar) (groups : Array (List Nat)) :
    Payload.ofGrammar hash (grammar.regroup groups) =
      { Payload.ofGrammar hash grammar with groups := groups.toList } :=
  rfl

/-- The checks do not miss what is left out of a group, or mind what is listed again. -/
theorem valid_regroup {groups : Array (List Nat)} (hregroups : grammar.Regroups groups)
    (h : (Payload.ofGrammar hash grammar).Valid hash) :
    (Payload.ofGrammar hash (grammar.regroup groups)).Valid hash where
  ruleCount := h.ruleCount
  udtCount := h.udtCount
  opcodeCount := h.opcodeCount
  digest := h.digest
  nonempty := h.nonempty
  opcodes := h.opcodes
  findings := h.findings
  classes finding hfinding := by
    obtain ⟨hcounts, hkind, hgroup⟩ := h.classes finding hfinding
    refine ⟨hcounts, hkind, fun g hg => ?_⟩
    have hlt := hgroup g hg
    simp only [Payload.ofGrammar, Array.length_toList] at hlt
    simpa [Payload.ofGrammar, Grammar.regroup, hregroups.size] using hlt
  groups g listed hlisted r hr := by
    have hlisted : groups[g]? = some listed := by
      simpa [Payload.ofGrammar, Grammar.regroup] using hlisted
    have hlt : g < grammar.analysis.groups.size :=
      hregroups.size ▸ (Array.getElem?_eq_some_iff.1 hlisted).1
    have hmembers := Array.getElem?_eq_getElem hlt
    exact h.groups g _ (by simp [Payload.ofGrammar, hmembers]) r
      (hregroups.members g listed _ hlisted hmembers r hr)

/-- A grammar that was compiled or loaded is loaded also with other lists of members. -/
theorem Cacheable.load_regrouped (h : Cacheable hash grammar) {groups : Array (List Nat)}
    (hregroups : grammar.Regroups groups)
    (hshort : (Payload.ofGrammar hash (grammar.regroup groups)).write.length < 2 ^ 32) :
    load hash (save hash (grammar.regroup groups)) = .ok (grammar.regroup groups) := by
  obtain ⟨hvalid, hsame, hcounts⟩ := h.payload
  have hregrouped : (Payload.ofGrammar hash (grammar.regroup groups)).toGrammar =
      (Payload.ofGrammar hash grammar).toGrammar.regroup groups := rfl
  rw [save, load_write (valid_regroup hregroups hvalid) hcounts hshort, hregrouped, hsame]

/-! ## How far the tables agree -/

/-- In a compiled grammar both tables of groups describe the same partition. In a loaded one a rule
is in a group just if it names one, the group is there, and no other group lists the rule. The
tables describe the same partition if, besides, every rule in a group is listed there exactly once.
This is not checked: whatever is left out of the groups of a grammar or listed again, the grammar is
loaded with just these groups. -/
theorem groups_of_load (hash : List UInt8 → Digest) :
    (∀ strict sources grammar, compile strict sources = .ok (.ok grammar) →
      grammar.analysis.Partitions) ∧
    (∀ bytes grammar, load hash bytes = .ok grammar → grammar.analysis.NamesGroups ∧
      (grammar.analysis.Partitions ↔ ∀ (r : Nat) c (g : Nat) members,
        grammar.analysis.classes[r]? = some c → c.group = some g →
          grammar.analysis.groups[g]? = some members → members.count r = 1)) ∧
    ∀ grammar groups, Cacheable hash grammar → grammar.Regroups groups →
      (Payload.ofGrammar hash (grammar.regroup groups)).write.length < 2 ^ 32 →
        load hash (save hash (grammar.regroup groups)) = .ok (grammar.regroup groups) := by
  refine ⟨fun strict sources grammar hcompile => ?_, fun bytes grammar hload => ?_,
    fun grammar groups h => h.load_regrouped⟩
  · exact Analysis.partitions_of_checked (checked_of_compile hcompile)
  · obtain ⟨payload, hvalid, rfl, -⟩ := exists_payload_of_load hload
    exact ⟨hvalid.namesGroups, hvalid.namesGroups.partitions_iff⟩

/-- Two rules that refer to each other. -/
def crossedText : String :=
  "A = \"a\" B / \"x\"\nB = \"b\" A\n"

/-- The lines of the text. -/
def crossedLines : List Canonical.Line :=
  let a := Canonical.Name.ofLetter 'A' (.refl true)
  let b := Canonical.Name.ofLetter 'B' (.refl true)
  [⟨a, .cons (.cons (.character 'a' (.refl true)) (.last (.rule b)))
      (.last (.last (.character 'x' (.refl true))))⟩,
    ⟨b, .last (.cons (.character 'b' (.refl true)) (.last (.rule a)))⟩]

/-- The table of the text, reduced. -/
def crossed : Array Rule :=
  #[⟨"A", 0, #[.alt [1, 4], .cat [2, 3], .tls [97], .rnm 1, .tls [120]]⟩,
    ⟨"B", 1, #[.cat [1, 2], .tls [98], .rnm 0]⟩]

/-- Every sequence starts with a literal. -/
theorem exists_analysis_crossed :
    ∃ analysis, Analysis.analyze crossed = .ok analysis ∧ analysis.faultyRules crossed = [] := by
  refine Analysis.faultyRules_eq_nil (by decide) (fun v hv => ?_) fun v r hcircle => ?_
  · have ha : 0 ∈ v := by
      refine (hv.2 0 (by decide)).2 ⟨_, rfl, ?_⟩
      exact (Phrases.holds_alt_iff rfl).2 ⟨4, by simp, .leaf rfl rfl⟩
    have hb : 1 ∈ v := by
      refine (hv.2 1 (by decide)).2 ⟨_, rfl, .catAll rfl (by decide) fun c hc => ?_⟩
      obtain rfl | rfl := List.mem_pair.1 hc
      · exact .leaf rfl rfl
      · exact .ref rfl ha
    intro r hr
    obtain rfl | rfl := Nat.le_one_iff_eq_zero_or_eq_one.1 (Nat.lt_succ_iff.1 hr)
    · exact ha
    · exact hb
  · obtain ⟨t, ⟨rule, hrule, hedge⟩, -⟩ := Relation.TransGen.head'_iff.1 hcircle
    have hr : r < 2 := (Array.getElem?_eq_some_iff.1 hrule).1
    obtain rfl | rfl := Nat.le_one_iff_eq_zero_or_eq_one.1 (Nat.lt_succ_iff.1 hr)
    · cases hrule
      obtain ⟨c, hc, hedge⟩ := (Recursion.edgeAt_alt_iff rfl).1 hedge
      obtain rfl | rfl := List.mem_pair.1 hc
      · exact Recursion.not_edgeAt_literal rfl rfl hedge
      · exact Recursion.not_edgeAt_of_isPlain rfl rfl hedge
    · cases hrule
      exact Recursion.not_edgeAt_literal rfl rfl hedge

/-- The two rules are one group. -/
theorem exists_compile_crossed :
    ∃ grammar, compile false [crossedText] = .ok (.ok grammar) ∧
      grammar.analysis.groups = #[[0, 1]] := by
  obtain ⟨grammar, hcompile, hrules⟩ := Canonical.exists_compile_print crossedLines crossedText
    (by simp [crossedLines]) (by decide +kernel) (by decide +kernel) exists_analysis_crossed
    (by decide +kernel)
  refine ⟨grammar, hcompile, ?_⟩
  obtain ⟨classified, hclassify, -, hgroups⟩ :=
    Analysis.classes_of_analyze (checked_of_compile hcompile).analyzed
  have hfound : (Analysis.classify crossed).toOption.map Analysis.groups = some #[[0, 1]] := by
    decide +kernel
  rw [hrules] at hclassify
  rw [hclassify] at hfound
  exact hgroups.trans (Option.some.inj hfound)

/-- The forged payload is loaded with a group that lists a rule twice, and again when the group
misses this rule. The tables of neither describe the same partition, unlike those of the two rules
that refer to each other. -/
theorem groups_of_load_forged :
    (∃ grammar, compile false [crossedText] = .ok (.ok grammar) ∧
      grammar.analysis.groups = #[[0, 1]] ∧ grammar.analysis.Partitions) ∧
    load Blake3.hash (save Blake3.hash forged.toGrammar) = .ok forged.toGrammar ∧
      forged.toGrammar.analysis.NamesGroups ∧ ¬ forged.toGrammar.analysis.Partitions ∧
    load Blake3.hash (save Blake3.hash (forged.toGrammar.regroup #[[0]])) =
        .ok (forged.toGrammar.regroup #[[0]]) ∧
      (forged.toGrammar.regroup #[[0]]).analysis.NamesGroups ∧
      ¬ (forged.toGrammar.regroup #[[0]]).analysis.Partitions := by
  obtain ⟨hcompiled, hloaded, hregrouped⟩ := groups_of_load Blake3.hash
  obtain ⟨grammar, hcompile, hgroups⟩ := exists_compile_crossed
  have hdigest : (writeDigest forged.digest).length = 32 := by simp [writeDigest]
  have hlength : forged.write.length < 2 ^ 32 := by
    simp only [Payload.write, List.length_append, hdigest]
    decide
  have hpayload := ofGrammar_toGrammar valid_forged
  have hload : load Blake3.hash (save Blake3.hash forged.toGrammar) = .ok forged.toGrammar := by
    rw [save, hpayload]
    exact load_write valid_forged (by decide) hlength
  have hcacheable : Cacheable Blake3.hash forged.toGrammar :=
    ⟨Or.inr ⟨_, hload⟩, by rwa [hpayload]⟩
  have hregroup : Payload.ofGrammar Blake3.hash (forged.toGrammar.regroup #[[0]]) =
      { forged with groups := [[0]] } := by
    rw [ofGrammar_regroup, hpayload]
  have hshort : ({ forged with groups := [[0]] } : Payload).write.length < 2 ^ 32 := by
    simp only [Payload.write, List.length_append, hdigest]
    decide
  have hregroups : forged.toGrammar.Regroups #[[0]] := by
    refine ⟨rfl, fun g listed members hlisted hmembers r hr => ?_⟩
    cases g with
    | zero =>
      obtain rfl : [0] = listed := Option.some.inj hlisted
      obtain rfl : [0, 1, 1] = members := Option.some.inj hmembers
      simpa using Or.inl (List.mem_singleton.1 hr)
    | succ g => simp at hlisted
  have hreload := hregrouped _ #[[0]] hcacheable hregroups (by rwa [hregroup])
  obtain ⟨hnames, hiff⟩ := hloaded _ _ hload
  obtain ⟨hnames', hiff'⟩ := hloaded _ _ hreload
  refine ⟨⟨grammar, hcompile, hgroups, hcompiled _ _ _ hcompile⟩, hload, hnames, fun h => ?_, hreload,
    hnames', fun h => ?_⟩
  · have htwice := hiff.1 h 1 _ 0 _ rfl rfl rfl
    exact absurd htwice (by decide)
  · have hmissing := hiff'.1 h 1 _ 0 _ rfl rfl rfl
    exact absurd hmissing (by decide)

end Cache

end Abnf
