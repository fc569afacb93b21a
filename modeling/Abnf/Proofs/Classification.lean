import Mathlib.Data.List.Sort
import Abnf.Proofs.Analysis.Groups
import Abnf.Proofs.Nullability

/-!
# Classes of rules are exact

What classification says of a table follows from the references between its rules alone: how often
a rule is named from where, which rules reach each other, and in what order the groups are listed.

* `References.getElem?_counts`: a row counts the references in all rules that are reached.
* `Analysis.mem_findGroups_iff_component`: the groups are the strongly connected components of two rules
  or more.
* `classification_exact`: classes, groups and dependencies in terms of references.
-/

namespace Abnf

namespace References

variable {graph : Array (List Nat)} {rule : Nat}

/-! ## Counting references -/

/-- A row counts the references in the rules that are collected. -/
theorem getElem?_counts {t : Nat} (ht : t < graph.size) :
    (counts graph rule)[t]? =
      some (∑ r ∈ (closure graph rule).toFinset, (successors graph r).count t) := by
  have hnodup : (closure graph rule).Nodup := nodup_collect _ List.nodup_nil
  rw [counts, getElem?_foldl_modify, Array.getElem?_replicate, if_pos ht, Option.map_some,
    Nat.zero_add, List.count_flatMap, List.sum_toFinset _ hnodup]
  rfl

/-- The references of a rule to another are its opcodes that name it. -/
theorem count_targets (rule : Rule) (t : Nat) :
    (targets rule).count t = rule.opcodes.count (.rnm t) := by
  rw [targets, ← Array.count_toList]
  induction rule.opcodes.toList with
  | nil => rfl
  | cons op ops ih =>
    by_cases h : op = .rnm t
    · subst h
      simp [ih]
    · rw [List.count_cons_of_ne h, ← ih]
      cases op with
      | rnm u =>
        have hne : u ≠ t := fun hut => h (hut ▸ rfl)
        simp [List.count_cons_of_ne hne]
      | _ => rfl

end References

namespace Analysis

open References

/-- Each of two rules reaches the other. -/
def Mutual (rules : Array Rule) (i j : Nat) : Prop :=
  Relation.TransGen (RefersTo rules) i j ∧ Relation.TransGen (RefersTo rules) j i

/-- How many opcodes of a rule name rule `t`. -/
def namings (rules : Array Rule) (r t : Nat) : Nat :=
  rules[r]?.elim 0 fun rule => rule.opcodes.count (.rnm t)

open Classical in
/-- How many opcodes name rule `t` in rule `i` and the rules that it reaches. -/
noncomputable def reachedNamings (rules : Array Rule) (i t : Nat) : Nat :=
  ∑ r ∈ (Finset.range rules.size).filter (Relation.ReflTransGen (RefersTo rules) i),
    namings rules r t

/-- How many opcodes of a table name a rule. -/
def referenceCount (rules : Array Rule) : Nat :=
  ∑ r ∈ Finset.range rules.size, rules[r]?.elim 0 fun rule => (targets rule).length

theorem count_successors (rules : Array Rule) (r t : Nat) :
    (successors (rules.map targets) r).count t = namings rules r t := by
  rw [successors, Array.getElem?_map, namings]
  cases rules[r]? with
  | none => rfl
  | some rule => exact count_targets rule t

theorem length_successors (rules : Array Rule) (r : Nat) :
    (successors (rules.map targets) r).length =
      rules[r]?.elim 0 fun rule => (targets rule).length := by
  rw [successors, Array.getElem?_map]
  cases rules[r]? <;> rfl

section

variable {rules : Array Rule}
  (hrules : ∀ rule ∈ rules, ∀ t, .rnm t ∈ rule.opcodes → t < rules.size)
include hrules

theorem toFinset_closure {i : Nat} (hi : i < rules.size) [DecidablePred
      (Relation.ReflTransGen (RefersTo rules) i)] :
    (closure (rules.map targets) i).toFinset =
      (Finset.range rules.size).filter (Relation.ReflTransGen (RefersTo rules) i) := by
  ext r
  rw [List.mem_toFinset, mem_closure_iff, Finset.mem_filter, Finset.mem_range]
  constructor
  · intro h
    have hreach : Relation.ReflTransGen (RefersTo rules) i r := h.lift id fun _ _ => refers_iff.1
    refine ⟨?_, hreach⟩
    rcases hreach.cases_tail with rfl | ⟨_, -, hlast⟩
    · exact hi
    · exact refersTo_lt hrules hlast
  · rintro ⟨-, h⟩
    exact h.lift id fun _ _ => refers_iff.2

/-- The counts of a rule are the opcodes that name each rule, in the rule and all that it
reaches. -/
theorem getElem?_counts_eq {i : Nat} (hi : i < rules.size) (t : Nat) :
    (References.counts (rules.map targets) i)[t]? =
      if t < rules.size then some (reachedNamings rules i t) else none := by
  classical
  have hsize : (rules.map targets).size = rules.size := Array.size_map
  by_cases ht : t < rules.size
  · rw [if_pos ht, getElem?_counts (by rwa [hsize]), toFinset_closure hrules hi, reachedNamings]
    simp only [count_successors]
  · rw [if_neg ht, Array.getElem?_eq_none]
    rw [size_counts, hsize]
    omega

/-! ## Groups -/

omit hrules in
/-- The circle of a rule is listed in increasing order. -/
theorem pairwise_circleOf (counts : Array (Array Nat)) (i : Nat) :
    (circleOf counts i).Pairwise (· < ·) :=
  List.pairwise_lt_range.filter _

theorem mem_circleOf_rowsOf_iff {i j : Nat} (hi : i < rules.size) :
    j ∈ circleOf (rowsOf rules) i ↔ j = i ∨ Mutual rules i j := by
  rw [mem_circleOf_iff (inCircle_rowsOf_iff hrules) (by simpa using hi), size_rowsOf]
  constructor
  · exact And.right
  · rintro (rfl | h)
    · exact ⟨hi, Or.inl rfl⟩
    · obtain ⟨_, -, hlast⟩ := Relation.TransGen.tail'_iff.1 h.1
      exact ⟨refersTo_lt hrules hlast, Or.inr h⟩

/-- The groups are the strongly connected components of two rules or more, each listed in
increasing order. -/
theorem mem_findGroups_iff_component {members : List Nat} :
    members ∈ findGroups (rowsOf rules) ↔
      2 ≤ members.length ∧ members.Pairwise (· < ·) ∧
        ∃ i < rules.size, ∀ j, j ∈ members ↔ j = i ∨ Mutual rules i j := by
  rw [mem_findGroups_iff, size_rowsOf]
  constructor
  · rintro ⟨i, hi, rfl, -, htwo⟩
    exact ⟨htwo, pairwise_circleOf _ i, i, hi, fun j => mem_circleOf_rowsOf_iff hrules hi⟩
  · rintro ⟨htwo, hsorted, i, hi, hmembers⟩
    have heq : members = circleOf (rowsOf rules) i := by
      refine List.Perm.eq_of_pairwise (fun a b _ _ hab hba => absurd hab (Nat.lt_asymm hba))
        hsorted (pairwise_circleOf _ i) ?_
      rw [List.perm_ext_iff_of_nodup (hsorted.imp Nat.ne_of_lt)
        ((pairwise_circleOf _ i).imp Nat.ne_of_lt)]
      intro j
      rw [hmembers, mem_circleOf_rowsOf_iff hrules hi]
    -- The lowest member of a circle has the same circle, which is listed as a group from there.
    have hmem : i ∈ circleOf (rowsOf rules) i := (mem_circleOf_rowsOf_iff hrules hi).2 (Or.inl rfl)
    obtain ⟨lowest, rest, hlist⟩ := List.exists_cons_of_ne_nil (List.ne_nil_of_mem hmem)
    have hlowest : lowest ∈ circleOf (rowsOf rules) i := by simp [hlist]
    have hcircle := circleOf_eq (inCircle_rowsOf_iff hrules) (by simpa using hi) hlowest
    refine ⟨lowest, ?_, by rw [heq, hcircle], by rw [heq, hlist]; rfl, htwo⟩
    rcases (mem_circleOf_rowsOf_iff hrules hi).1 hlowest with rfl | h
    · exact hi
    · obtain ⟨_, -, hlast⟩ := Relation.TransGen.tail'_iff.1 h.1
      exact refersTo_lt hrules hlast

/-- No rule is in two groups. -/
theorem pairwise_disjoint_findGroups : (findGroups (rowsOf rules)).Pairwise List.Disjoint := by
  refine (nodup_findGroups _).pairwise_of_forall_ne fun a ha b hb hne i hia hib => hne ?_
  exact eq_of_mem_findGroups (inCircle_rowsOf_iff hrules) ha hb hia hib

omit hrules in
/-- Groups come in the order of their lowest members. -/
theorem pairwise_lowest_findGroups (counts : Array (Array Nat)) :
    (findGroups counts).Pairwise fun a b => ∃ i ∈ a, ∀ j ∈ b, i < j := by
  rw [findGroups, List.pairwise_filterMap]
  refine List.pairwise_lt_range.imp fun {i k} hlt a ha b hb => ?_
  obtain ⟨-, hlow, -⟩ := groupFrom?_eq_some_iff.1 ha
  obtain ⟨hcircle, hlow', -⟩ := groupFrom?_eq_some_iff.1 hb
  refine ⟨i, List.mem_of_mem_head? hlow, fun j hj => ?_⟩
  obtain ⟨rest, rfl⟩ := List.head?_eq_some_iff.1 hlow'
  have hsorted := hcircle ▸ pairwise_circleOf counts k
  rcases List.mem_cons.1 hj with rfl | hj
  · exact hlt
  · exact hlt.trans ((List.pairwise_cons.1 hsorted).1 j hj)

/-- The rules in groups are those that are mutual with another rule. -/
theorem exists_group_iff_mutual {i : Nat} (hi : i < rules.size) :
    (∃ members ∈ findGroups (rowsOf rules), i ∈ members) ↔ ∃ t, t ≠ i ∧ Mutual rules i t :=
  exists_group_iff (inCircle_rowsOf_iff hrules)
    (fun h => (size_rowsOf rules).symm ▸ refersTo_lt hrules h) ((size_rowsOf rules).symm ▸ hi)

/-- Two rules are in one group if each reaches the other. -/
theorem exists_shared_group_iff {i j : Nat} (hi : i < rules.size) (hne : i ≠ j) :
    (∃ members ∈ findGroups (rowsOf rules), i ∈ members ∧ j ∈ members) ↔ Mutual rules i j := by
  have hcircle := inCircle_rowsOf_iff hrules
  constructor
  · rintro ⟨members, hmembers, hmem, hmem'⟩
    obtain ⟨k, hk, rfl, -⟩ := mem_findGroups_iff.1 hmembers
    rw [← circleOf_eq hcircle hk hmem, mem_circleOf_rowsOf_iff hrules hi] at hmem'
    exact hmem'.resolve_left hne.symm
  · intro hmutual
    obtain ⟨members, hmembers, hmem⟩ :=
      (exists_group_iff_mutual hrules hi).2 ⟨j, hne.symm, hmutual⟩
    refine ⟨members, hmembers, hmem, ?_⟩
    obtain ⟨k, hk, rfl, -⟩ := mem_findGroups_iff.1 hmembers
    rw [← circleOf_eq hcircle hk hmem, mem_circleOf_rowsOf_iff hrules hi]
    exact Or.inr hmutual

end

/-! ## Kinds -/

/-- A rule that reaches itself, but is mutual with no other, names itself. -/
theorem refersTo_self_iff {rules : Array Rule} {i : Nat}
    (halone : ¬ ∃ t, t ≠ i ∧ Mutual rules i t) :
    Relation.TransGen (RefersTo rules) i i ↔ RefersTo rules i i := by
  refine ⟨fun h => ?_, .single⟩
  obtain ⟨t, hfirst, hrest⟩ := Relation.TransGen.head'_iff.1 h
  by_cases ht : t = i
  · rwa [ht] at hfirst
  · have hback := (Relation.reflTransGen_iff_eq_or_transGen.1 hrest).resolve_left (Ne.symm ht)
    exact absurd ⟨t, ht, .single hfirst, hback⟩ halone

/-- The kind of a rule that is in no group says whether it is counted itself, and whether a rule
of a group is. -/
theorem kind_classOf_of_not_mem {groups : List (List Nat)} {i : Nat} {row : Array Nat}
    (h : ¬ ∃ members ∈ groups, i ∈ members) :
    ((classOf groups i row).kind ∈ [.recursive, .recursiveRefersToGroup] ↔
        0 < row[i]?.getD 0) ∧
      ((classOf groups i row).kind ∈ [.nonRecursive, .refersToGroup] ↔ ¬ 0 < row[i]?.getD 0) ∧
      ((classOf groups i row).kind ∈ [.refersToGroup, .recursiveRefersToGroup] ↔
        ∃ members ∈ groups, ∃ t ∈ members, 0 < row[t]?.getD 0) := by
  have hout : groups.any (·.contains i) = false := by simpa using h
  have hreach : groups.any (·.any fun j => decide (0 < row[j]?.getD 0)) = true ↔
      ∃ members ∈ groups, ∃ t ∈ members, 0 < row[t]?.getD 0 := by
    simp only [List.any_eq_true, decide_eq_true_eq]
  rw [← hreach]
  by_cases hself : 0 < row[i]?.getD 0 <;>
    cases hany : groups.any (·.any fun j => decide (0 < row[j]?.getD 0)) <;>
    simp only [classOf, hout, hself, hany, decide_true, decide_false] <;> decide

/-! ## Classification -/

/-- What classification says of a table, in terms of the references between its rules. -/
structure Exact (rules : Array Rule) (analysis : Analysis) : Prop where
  size : analysis.classes.size = rules.size
  counts : ∀ {i : Nat} {c}, analysis.classes[i]? = some c → ∀ t,
    c.counts[t]? = if t < rules.size then some (reachedNamings rules i t) else none
  /-- No count is above the number of references in the table. -/
  bounded : ∀ c ∈ analysis.classes, ∀ n ∈ c.counts, n ≤ referenceCount rules
  reached : ∀ {i : Nat} {c}, analysis.classes[i]? = some c → ∀ t,
    0 < c.counts[t]?.getD 0 ↔ Relation.TransGen (RefersTo rules) i t
  /-- A rule has the number of just the group that lists it. -/
  group : ∀ {i : Nat} {c}, analysis.classes[i]? = some c → ∀ g : Nat,
    c.group = some g ↔ ∃ members, analysis.groups[g]? = some members ∧ i ∈ members
  shared : ∀ {i j : Nat} {c d}, analysis.classes[i]? = some c → analysis.classes[j]? = some d →
    i ≠ j → ((∃ g, c.group = some g ∧ d.group = some g) ↔ Mutual rules i j)
  /-- The groups are the strongly connected components of two rules or more. -/
  components : ∀ members, members ∈ analysis.groups ↔
    2 ≤ members.length ∧ members.Pairwise (· < ·) ∧
      ∃ i < rules.size, ∀ j, j ∈ members ↔ j = i ∨ Mutual rules i j
  disjoint : analysis.groups.toList.Pairwise List.Disjoint
  /-- The lowest member of a group is below all members of later groups. -/
  ordered : analysis.groups.toList.Pairwise fun a b => ∃ i ∈ a, ∀ j ∈ b, i < j
  inGroup : ∀ {i : Nat} {c}, analysis.classes[i]? = some c →
    (c.kind = .inGroup ↔ c.group.isSome = true)
  /-- Of the rules in no group, those recur that name themselves. -/
  recursive : ∀ {i : Nat} {c}, analysis.classes[i]? = some c → c.group = none →
    (c.kind ∈ [.recursive, .recursiveRefersToGroup] ↔ RefersTo rules i i) ∧
      (c.kind ∈ [.nonRecursive, .refersToGroup] ↔ ¬ RefersTo rules i i)
  refersToGroup : ∀ {i : Nat} {c}, analysis.classes[i]? = some c → c.group = none →
    (c.kind ∈ [.refersToGroup, .recursiveRefersToGroup] ↔
      ∃ members ∈ analysis.groups, ∃ t ∈ members, Relation.TransGen (RefersTo rules) i t)

theorem Exact.size_counts {rules : Array Rule} {analysis : Analysis} (h : Exact rules analysis)
    {i : Nat} {c : RuleClass} (hc : analysis.classes[i]? = some c) :
    c.counts.size = rules.size := by
  have hnone : ∀ t, c.counts.size ≤ t ↔ rules.size ≤ t := fun t => by
    rw [← Array.getElem?_eq_none_iff, h.counts hc]
    simp
  exact Nat.le_antisymm ((hnone _).2 (Nat.le_refl _)) ((hnone _).1 (Nat.le_refl _))

/-- What is exact of an analysis is so of any that has the same classes and groups. -/
theorem Exact.congr {rules : Array Rule} {analysis analysis' : Analysis}
    (h : Exact rules analysis) (hclasses : analysis'.classes = analysis.classes)
    (hgroups : analysis'.groups = analysis.groups) : Exact rules analysis' := by
  obtain ⟨classes, attributes, groups⟩ := analysis'
  obtain rfl : classes = analysis.classes := hclasses
  obtain rfl : groups = analysis.groups := hgroups
  exact { h with }

/-- Classification ends and is exact if all references are to rules of the table. -/
theorem exists_exact_classify {rules : Array Rule}
    (hrules : ∀ rule ∈ rules, ∀ t, .rnm t ∈ rule.opcodes → t < rules.size) :
    ∃ analysis, classify rules = .ok analysis ∧ Exact rules analysis := by
  obtain ⟨analysis, heq, hclassifies⟩ := classify_exact hrules
  refine ⟨analysis, heq, ?_⟩
  rw [classify_eq_ok hrules] at heq
  obtain rfl := Except.ok.inj heq
  have hlone : ∀ {i c}, ((rowsOf rules).mapIdx (classOf (findGroups (rowsOf rules))))[i]? = some c →
      c.group = none → ¬ ∃ members ∈ findGroups (rowsOf rules), i ∈ members := by
    intro i c hc hnone
    rw [(classOf_of_getElem? hc).2] at hnone
    simpa [classOf] using hnone
  have hreached := counts_pos_iff_reaches hrules
  exact {
    size := hclassifies.size
    counts := fun {i c} hc t => by
      obtain ⟨hi, rfl⟩ := classOf_of_getElem? hc
      exact getElem?_counts_eq hrules hi t
    bounded := fun c hc n hn => by
      obtain ⟨i, hi⟩ := Array.getElem?_of_mem hc
      rw [(classOf_of_getElem? hi).2] at hn
      have hle := count_le_sum hn
      simpa only [length_successors, Array.size_map, referenceCount] using hle
    reached := fun {i c} hc t => by
      rw [(classOf_of_getElem? hc).2]
      exact hreached i t
    group := hclassifies.group
    shared := fun {i j c d} hc hd hne => by
      rw [← exists_shared_group_iff hrules (classOf_of_getElem? hc).1 hne]
      simp only [hclassifies.group hc, hclassifies.group hd, List.getElem?_toArray]
      constructor
      · rintro ⟨g, ⟨members, hget, hi⟩, members', hget', hj⟩
        rw [hget] at hget'
        cases hget'
        exact ⟨members, List.mem_of_getElem? hget, hi, hj⟩
      · rintro ⟨members, hmembers, hi, hj⟩
        obtain ⟨g, hget⟩ := List.getElem?_of_mem hmembers
        exact ⟨g, ⟨members, hget, hi⟩, members, hget, hj⟩
    components := fun members => by
      rw [List.mem_toArray]
      exact mem_findGroups_iff_component hrules
    disjoint := pairwise_disjoint_findGroups hrules
    ordered := pairwise_lowest_findGroups _
    inGroup := hclassifies.inGroup
    recursive := fun {i c} hc hnone => by
      have hout := hlone hc hnone
      obtain ⟨hi, rfl⟩ := classOf_of_getElem? hc
      rw [(kind_classOf_of_not_mem hout).1, (kind_classOf_of_not_mem hout).2.1, hreached]
      rw [exists_group_iff_mutual hrules hi] at hout
      rw [refersTo_self_iff hout]
      exact ⟨Iff.rfl, Iff.rfl⟩
    refersToGroup := fun {i c} hc hnone => by
      have hout := hlone hc hnone
      obtain ⟨hi, rfl⟩ := classOf_of_getElem? hc
      rw [(kind_classOf_of_not_mem hout).2.2]
      simp only [hreached, List.mem_toArray] }

end Analysis

/-! ## Dependencies -/

namespace Grammar.Checked

variable {grammar : Grammar}

/-- Classification of a compiled grammar is exact. -/
theorem exact (h : grammar.Checked) : Analysis.Exact grammar.rules grammar.analysis := by
  have hinRange : ∀ rule ∈ grammar.rules, ∀ t, .rnm t ∈ rule.opcodes → t < grammar.rules.size :=
    fun rule hrule t ht => h.tabled.wellFormed.fits rule hrule _ ht
  obtain ⟨classified, hclassify, hclasses, hgroups⟩ := Analysis.classes_of_analyze h.analyzed
  obtain ⟨_, hclassify', hexact⟩ := Analysis.exists_exact_classify hinRange
  cases hclassify.symm.trans hclassify'
  exact hexact.congr hclasses hgroups

theorem map_index (h : grammar.Checked) :
    grammar.rules.toList.map Rule.index = List.range grammar.rules.size := by
  refine List.ext_getElem (by simp) fun i hi _ => ?_
  have hi : i < grammar.rules.size := by simpa using hi
  simpa using h.tabled.index i _ (Array.getElem?_eq_getElem hi)

/-- The dependencies of a rule are the rules that it reaches, in the order of the table. -/
theorem dependencies_eq (h : grammar.Checked) {rule : Rule} (hrule : rule ∈ grammar.rules) :
    ∃ reached : List Rule, reached.Pairwise (·.index < ·.index) ∧
      (∀ r, r ∈ reached ↔ r ∈ grammar.rules ∧
        Relation.TransGen (Analysis.RefersTo grammar.rules) rule.index r.index) ∧
      grammar.dependencies rule = .ok (reached.map Rule.name) := by
  have hexact := h.exact
  obtain ⟨i, hi⟩ := Array.getElem?_of_mem hrule
  obtain rfl := h.tabled.index i rule hi
  have hlt : rule.index < grammar.analysis.classes.size := by
    rw [hexact.size]
    exact (Array.getElem?_eq_some_iff.1 hi).1
  obtain ⟨c, hc⟩ : ∃ c, grammar.analysis.classes[rule.index]? = some c :=
    ⟨_, Array.getElem?_eq_getElem hlt⟩
  refine ⟨grammar.rules.toList.filter fun r => c.reaches r.index, ?_, fun r => ?_, ?_⟩
  · apply List.Pairwise.filter
    rw [← List.pairwise_map, h.map_index]
    exact List.pairwise_lt_range
  · rw [List.mem_filter, Array.mem_toList_iff, RuleClass.reaches, decide_eq_true_eq,
      hexact.reached hc]
  · have hreferences : c.references =
        (grammar.rules.toList.filter fun r => c.reaches r.index).map Rule.index := by
      rw [RuleClass.references, hexact.size_counts hc, ← h.map_index, List.filter_map]
      rfl
    unfold dependencies
    simp only [fetch_eq_ok.2 hc, bind, Except.bind, hreferences]
    apply mapM_of_forall₂
    rw [List.forall₂_map_left_iff, List.forall₂_same]
    intro r hr
    obtain ⟨j, hj⟩ := List.getElem?_of_mem (List.mem_of_mem_filter hr)
    rw [Array.getElem?_toList] at hj
    rw [h.tabled.index j r hj, fetch_eq_ok.2 hj]
    rfl

end Grammar.Checked

/-- Classification is exact for every table whose references are to rules of the table: counts,
groups and kinds are what the references make them. The dependencies of a rule of a compiled
grammar are just the rules that it reaches. -/
theorem classification_exact :
    (∀ rules : Array Rule, (∀ rule ∈ rules, ∀ t, .rnm t ∈ rule.opcodes → t < rules.size) →
      ∃ analysis, Analysis.classify rules = .ok analysis ∧ Analysis.Exact rules analysis) ∧
    ∀ (strict : Bool) (sources : List String) (grammar : Grammar),
      compile strict sources = .ok (.ok grammar) →
      Analysis.Exact grammar.rules grammar.analysis ∧ ∀ name : String,
        ((∀ rule ∈ grammar.rules, rule.lower ≠ lowerName name) ∧
          grammar.dependenciesOf name = .ok none) ∨
        ∃ rule ∈ grammar.rules, rule.lower = lowerName name ∧
          ∃ reached : List Rule, reached.Pairwise (·.index < ·.index) ∧
            (∀ r, r ∈ reached ↔ r ∈ grammar.rules ∧
              Relation.TransGen (Analysis.RefersTo grammar.rules) rule.index r.index) ∧
            grammar.dependenciesOf name = .ok (some (reached.map Rule.name)) := by
  refine ⟨fun rules hrules => Analysis.exists_exact_classify hrules, ?_⟩
  intro strict sources grammar hcompile
  have hchecked := checked_of_compile hcompile
  refine ⟨hchecked.exact, fun name => ?_⟩
  unfold Grammar.dependenciesOf
  cases hrule : grammar.rule? name with
  | none =>
    refine Or.inl ⟨fun rule hmem => ?_, rfl⟩
    simpa using Array.find?_eq_none.1 hrule rule hmem
  | some rule =>
    have hmem : rule ∈ grammar.rules := Array.mem_of_find?_eq_some hrule
    have hname : rule.lower = lowerName name := by simpa using Array.find?_some hrule
    obtain ⟨reached, hsorted, hreached, heq⟩ := hchecked.dependencies_eq hmem
    refine Or.inr ⟨rule, hmem, hname, reached, hsorted, hreached, ?_⟩
    simp only [heq]
    rfl

/-- Two rules that name each other are a group, and a rule depends on the one that it names. -/
theorem classification_exact_pair :
    (∃ analysis, Analysis.classify Analysis.hiddenCircle = .ok analysis ∧
      [0, 1] ∈ analysis.groups) ∧
      ∃ grammar, compile false ["S = *A A\nA = [\"a\"]\n"] = .ok (.ok grammar) ∧
        ∃ names, grammar.dependenciesOf "S" = .ok (some names) ∧ "A" ∈ names := by
  constructor
  · have hinRange : ∀ rule ∈ Analysis.hiddenCircle, ∀ t, .rnm t ∈ rule.opcodes →
        t < Analysis.hiddenCircle.size := by
      simp [Analysis.hiddenCircle]
    obtain ⟨analysis, hclassify, hexact⟩ := classification_exact.1 _ hinRange
    refine ⟨analysis, hclassify, (hexact.components _).2 ⟨by decide, by decide, 0, by decide, ?_⟩⟩
    have hto : Analysis.RefersTo Analysis.hiddenCircle 0 1 := by
      simp [Analysis.RefersTo, Analysis.hiddenCircle]
    have hback : Analysis.RefersTo Analysis.hiddenCircle 1 0 := by
      simp [Analysis.RefersTo, Analysis.hiddenCircle]
    intro j
    constructor
    · intro hj
      rcases List.mem_pair.1 hj with rfl | rfl
      · exact Or.inl rfl
      · exact Or.inr ⟨.single hto, .single hback⟩
    · rintro (rfl | ⟨h, -⟩)
      · simp
      · obtain ⟨_, -, hlast⟩ := Relation.TransGen.tail'_iff.1 h
        have hlt : j < 2 := Analysis.refersTo_lt hinRange hlast
        simp only [List.mem_pair]
        omega
  · obtain ⟨grammar, hcompile, hrules⟩ := exists_compile_optional
    refine ⟨grammar, hcompile, ?_⟩
    obtain ⟨-, hdependencies⟩ := classification_exact.2 _ _ _ hcompile
    rw [hrules] at hdependencies
    rcases hdependencies "S" with ⟨hnone, -⟩ | ⟨rule, hrule, hname, reached, -, hreached, heq⟩
    · exact absurd rfl (hnone _ (List.mem_toArray.2 (.head _)))
    · have hindex : rule.index = 0 := by
        rcases List.mem_pair.1 (List.mem_toArray.1 hrule) with rfl | rfl
        · rfl
        · exact absurd hname (by decide +kernel)
      have hlisted := (hreached ⟨"A", 1, #[.rep 0 (some 1), .tls [97]]⟩).2
        ⟨List.mem_toArray.2 (.tail _ (.head _)), .single (by simp [Analysis.RefersTo, hindex])⟩
      exact ⟨_, heq, List.mem_map_of_mem hlisted⟩

end Abnf
