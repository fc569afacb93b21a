import Abnf.Proofs.Analysis.Passes

/-!
# Cyclic rules

Analysis is exact about cycles. A rule is said to be cyclic just when a finite tree of expansions
starts from its body, takes one alternative at each choice and all parts of each sequence, enters
the other rules that it comes to, and has nothing but references to the rule itself as its leaves.
Down its first parts, and down its last parts, such a tree goes back to the rule along an edge, so
a cyclic rule recurs first and last, and is left recursive.

* `Recursion.Unfolds`: trees of expansions.
* `Recursion.foldsTo_iff`: what folds to a rule in rounds is what has a tree.
* `Analysis.cyclic_exact`: what analysis says of cycles.
-/

namespace Abnf

namespace Recursion

open Walk Analysis Phrases

/-! ## Trees of expansions -/

/-- The expression at a position is the root of a finite tree of expansions whose leaves are all
references to `origin`. References to other rules are expanded into the bodies of the rules. -/
inductive Unfolds (rules : Array Rule) (origin : Nat) : Array Opcode → Nat → Prop
  | back {opcodes : Array Opcode} {i : Nat} : opcodes[i]? = some (.rnm origin) →
    Unfolds rules origin opcodes i
  | enter {opcodes : Array Opcode} {i t : Nat} {rule : Rule} : opcodes[i]? = some (.rnm t) →
    t ≠ origin → rules[t]? = some rule → Unfolds rules origin rule.opcodes 0 →
      Unfolds rules origin opcodes i
  | alt {opcodes : Array Opcode} {i c : Nat} {cs : List Nat} : opcodes[i]? = some (.alt cs) →
    c ∈ cs → Unfolds rules origin opcodes c → Unfolds rules origin opcodes i
  | cat {opcodes : Array Opcode} {i : Nat} {cs : List Nat} : opcodes[i]? = some (.cat cs) →
    (∀ c ∈ cs, Unfolds rules origin opcodes c) → Unfolds rules origin opcodes i
  | rep {opcodes : Array Opcode} {i : Nat} {min : UInt32} {max : Option UInt32} :
    opcodes[i]? = some (.rep min max) → Unfolds rules origin opcodes (i + 1) →
      Unfolds rules origin opcodes i

variable {rules : Array Rule} {origin r i : Nat} {opcodes : Array Opcode} {B v : Nat → Prop}

/-- Trees of the rules at which an expansion stops are put in its place. -/
theorem ExpandsTo.unfolds (hB : ∀ t, B t → t ≠ origin →
      ∃ rule, rules[t]? = some rule ∧ Unfolds rules origin rule.opcodes 0)
    (h : ExpandsTo opcodes B i) : Unfolds rules origin opcodes i := by
  induction h with
  | @ref i t hop ht =>
    by_cases heq : t = origin
    · exact .back (heq ▸ hop)
    · obtain ⟨rule, hrule, hunfolds⟩ := hB t ht heq
      exact .enter hop heq hrule hunfolds
  | alt hop hc _ ih => exact .alt hop hc ih
  | cat hop _ ih => exact .cat hop ih
  | rep hop _ ih => exact .rep hop ih

/-- A tree is cut at the rules that it enters first: they fold to the origin. -/
theorem Unfolds.expandsTo (h : Unfolds rules origin opcodes i) :
    ExpandsTo opcodes (fun t => t = origin ∨ FoldsTo rules origin t) i := by
  induction h with
  | back hop => exact .ref hop (Or.inl rfl)
  | enter hop _ hrule _ ih =>
    have hlt := (Array.getElem?_eq_some_iff.1 hrule).1
    have hfolds := (inLeast_iff (monotone_expansion rules origin) hlt).2 ⟨_, hrule, ih⟩
    exact .ref hop (Or.inr hfolds)
  | alt hop hc _ ih => exact .alt hop hc ih
  | cat hop _ ih => exact .cat hop ih
  | rep hop _ ih => exact .rep hop ih

/-- A rule folds to the origin just when its body has a tree. -/
theorem foldsTo_iff {rule : Rule} (hrule : rules[r]? = some rule) :
    FoldsTo rules origin r ↔ Unfolds rules origin rule.opcodes 0 := by
  have hlt := (Array.getElem?_eq_some_iff.1 hrule).1
  constructor
  · intro h
    have hall : ∀ t, FoldsTo rules origin t →
        ∃ rule, rules[t]? = some rule ∧ Unfolds rules origin rule.opcodes 0 := by
      refine fun t ht => ht.le (w := fun t => ∃ rule, rules[t]? = some rule ∧
        Unfolds rules origin rule.opcodes 0) (monotone_expansion rules origin) ?_
      rintro u - ⟨rule, hrule, hexpands⟩
      exact ⟨rule, hrule, hexpands.unfolds fun w hw hne => hw.resolve_left hne⟩
    obtain ⟨rule', hrule', hunfolds⟩ := hall r h
    cases hrule.symm.trans hrule'
    exact hunfolds
  · exact fun h => (inLeast_iff (monotone_expansion rules origin) hlt).2 ⟨rule, hrule, h.expandsTo⟩

/-! ## Edges of trees -/

/-- An expansion has a reference at each of its edges: no part of a sequence stands outside of its
first part, or of its last. -/
theorem ExpandsTo.exists_edge (hordered : Opcodes.Ordered opcodes) (side : Side)
    (h : ExpandsTo opcodes B i) : ∃ t, EdgeAt side opcodes v t i ∧ B t := by
  induction h with
  | @ref i t hop ht => exact ⟨t, .ref hop, ht⟩
  | alt hop hc _ ih =>
    obtain ⟨t, hedge, ht⟩ := ih
    exact ⟨t, .alt hop hc hedge, ht⟩
  | @cat i cs hop _ ih =>
    have hne : cs ≠ [] := hordered.branches hop rfl
    cases side with
    | left =>
      obtain ⟨c, after, rfl⟩ := List.exists_cons_of_ne_nil hne
      obtain ⟨t, hedge, ht⟩ := ih c List.mem_cons_self
      have hfirst : opcodes[i]? = some (.cat ([] ++ c :: after)) := hop
      exact ⟨t, .cat hfirst nofun hedge, ht⟩
    | right =>
      obtain ⟨before, c, rfl⟩ := List.eq_nil_or_concat cs |>.resolve_left hne
      rw [List.concat_eq_append] at hop ih
      obtain ⟨t, hedge, ht⟩ := ih c (by simp)
      exact ⟨t, .cat hop nofun hedge, ht⟩
  | rep hop _ ih =>
    obtain ⟨t, hedge, ht⟩ := ih
    exact ⟨t, .rep hop hedge, ht⟩

/-- A rule that folds to the origin leads to it along each edge. -/
theorem FoldsTo.edges (hordered : Ordered rules) (side : Side) (h : FoldsTo rules origin r) :
    Relation.TransGen (EdgeRef side rules v) r origin := by
  refine h.le (w := fun r => Relation.TransGen (EdgeRef side rules v) r origin)
    (monotone_expansion rules origin) ?_
  rintro r - ⟨rule, hrule, hexpands⟩
  obtain ⟨t, hedge, horigin | hreach⟩ :=
    hexpands.exists_edge (v := v) (hordered.opcodes rule (Array.mem_of_getElem? hrule)) side
  · exact .single ⟨rule, hrule, horigin ▸ hedge⟩
  · exact .head ⟨rule, hrule, hedge⟩ hreach

end Recursion

namespace Analysis

open Recursion

/-! ## Analysis -/

variable {rules : Array Rule} {analysis : Analysis}

/-- If every cyclic rule is left recursive, then every rule that is listed as cyclic is listed as
left recursive too. -/
theorem leftRecursive_of_cyclic (hleft : ∀ (r : Nat) a, analysis.attributes[r]? = some a →
      a.cyclic = true → a.left = true) {faulty : FaultyRule}
    (hmem : faulty ∈ analysis.faultyRules rules) (hcyclic : faulty.fault = .cyclic) :
    { faulty with fault := .leftRecursive } ∈ analysis.faultyRules rules := by
  simp only [faultyRules, List.mem_flatMap, List.mem_map] at hmem ⊢
  obtain ⟨⟨rule, a⟩, hzip, fault, hfault, rfl⟩ := hmem
  obtain rfl : fault = .cyclic := hcyclic
  obtain ⟨r, ha⟩ := List.getElem?_of_mem (List.of_mem_zip hzip).2
  have hflag : a.cyclic = true := by
    by_contra hnot
    simp [Attributes.faults, hnot] at hfault
  refine ⟨(rule, a), hzip, .leftRecursive, ?_, rfl⟩
  simp [Attributes.faults, hleft r a (by simpa using ha) hflag]

/-- Analysis is exact about cycles: a rule is said to be cyclic just when its body has a finite tree
of expansions with no leaves but references to the rule. A cyclic rule is said to recur first and
last, and every rule that is listed as cyclic is listed as left recursive too. -/
theorem cyclic_exact {rules : Array Rule} (h : Ordered rules) :
    ∃ analysis, analyze rules = .ok analysis ∧ analysis.attributes.size = rules.size ∧
      (∀ (r : Nat) rule a, rules[r]? = some rule → analysis.attributes[r]? = some a →
        (a.cyclic = true ↔ Unfolds rules r rule.opcodes 0) ∧
        (a.cyclic = true → a.left = true ∧ a.right = true)) ∧
      ∀ faulty ∈ analysis.faultyRules rules, faulty.fault = .cyclic →
        { faulty with fault := .leftRecursive } ∈ analysis.faultyRules rules := by
  obtain ⟨shapes, classified, greatest, hclassify, hshapes, hclasses, hgreatest, hstart⟩ :=
    exists_progress h
  obtain ⟨analysis, hrun, hprogress⟩ :=
    hstart.run hshapes hclasses hgreatest h [.phrases, .recursion]
  have hfolds : ∀ (r : Nat) a, analysis.attributes[r]? = some a →
      (a.cyclic = true ↔ FoldsTo rules r r) := fun r a ha =>
    ⟨hprogress.covers.noOther r a (by simp) ha, hprogress.covers.cycles r a ha⟩
  have hedges : ∀ (r : Nat) a side, analysis.attributes[r]? = some a → a.cyclic = true →
      a.recursAt side = true := fun r a side ha hcyclic =>
    hprogress.covers.edges r a side ha (((hfolds r a ha).1 hcyclic).edges h side)
  refine ⟨analysis, ?_, hprogress.covers.size, fun r rule a hrule ha => ⟨?_, fun hcyclic => ?_⟩,
    fun faulty hmem => leftRecursive_of_cyclic (fun r a ha => hedges r a .left ha) hmem⟩
  · rw [analyze_eq_runPasses, hclassify]
    exact hrun
  · rw [hfolds r a ha, foldsTo_iff hrule]
  · exact ⟨hedges r a .left ha hcyclic, hedges r a .right ha hcyclic⟩

/-- A rule that stands for itself twice over, through two other rules. -/
def doubledCircle : Array Rule :=
  #[⟨"s", 0, #[.cat [1, 2], .rnm 1, .rnm 2]⟩, ⟨"a", 1, #[.rnm 0]⟩,
    ⟨"b", 2, #[.alt [1, 2], .tls [120], .rep 1 none, .rnm 0]⟩]

/-- The first rule is cyclic: both of its parts can be expanded to the rule itself. -/
theorem cyclic_exact_doubledCircle : Ordered doubledCircle ∧
    ∃ analysis a, analyze doubledCircle = .ok analysis ∧ analysis.attributes[0]? = some a ∧
      a.cyclic = true ∧ a.left = true ∧ a.right = true := by
  have hordered : Ordered doubledCircle := by decide
  obtain ⟨analysis, hanalyze, hsize, hexact, -⟩ := cyclic_exact hordered
  obtain ⟨a, ha⟩ : ∃ a, analysis.attributes[0]? = some a :=
    ⟨_, Array.getElem?_eq_getElem (by rw [hsize]; decide)⟩
  obtain ⟨hcyclic, hends⟩ := hexact 0 _ a rfl ha
  have hunfolds : Unfolds doubledCircle 0 #[.cat [1, 2], .rnm 1, .rnm 2] 0 := by
    refine .cat rfl fun c hc => ?_
    simp only [List.mem_cons, List.not_mem_nil, or_false] at hc
    rcases hc with rfl | rfl
    · exact .enter rfl (by decide) rfl (.back rfl)
    · exact .enter rfl (by decide) rfl (.alt (c := 2) rfl (by simp) (.rep rfl (.back rfl)))
  exact ⟨hordered, analysis, a, hanalyze, ha, hcyclic.2 hunfolds, hends (hcyclic.2 hunfolds)⟩

end Analysis

end Abnf
