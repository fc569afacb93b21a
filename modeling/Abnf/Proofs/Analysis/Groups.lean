import Mathlib.Data.List.Nodup
import Mathlib.Data.List.Sort
import Abnf.Analysis
import Abnf.Proofs.Analysis.Classes

/-!
# What classification finds

Classification is exact: a rule is found to reach just the rules that it refers to, directly or
through others, the groups are the circles of two rules or more, and a rule is in at most one of
them.

* `References.mem_closure_iff`: what is collected from a rule is what it reaches.
* `Analysis.classify_exact`: what classification finds of every rule.
* `Analysis.classes_of_analyze`: the passes that follow keep what classification found.
-/

namespace Abnf

namespace References

variable {graph : Array (List Nat)} {rule : Nat}

/-! ## Reached rules -/

theorem forall_mem_collect {P : Nat → Prop} (hclosed : ∀ r, P r → ∀ t ∈ successors graph r, P t)
    (budget : Nat) {todo seen : List Nat} (htodo : ∀ r ∈ todo, P r) (hseen : ∀ r ∈ seen, P r) :
    ∀ r ∈ collect graph budget todo seen, P r := by
  fun_induction collect graph budget todo seen with
  | case1 => exact hseen
  | case2 => exact hseen
  | case3 budget rule todo seen _ ih => exact ih (fun r hr => htodo r (by simp [hr])) hseen
  | case4 budget rule todo seen _ ih =>
    have hrule := htodo rule (by simp)
    refine ih (fun r hr => ?_) (List.forall_mem_cons.2 ⟨hrule, hseen⟩)
    rcases List.mem_append.1 hr with hr | hr
    · exact hclosed rule hrule r hr
    · exact htodo r (by simp [hr])

theorem nodup_collect (budget : Nat) {todo seen : List Nat} (h : seen.Nodup) :
    (collect graph budget todo seen).Nodup := by
  fun_induction collect graph budget todo seen with
  | case1 => exact h
  | case2 => exact h
  | case3 budget rule todo seen _ ih => exact ih h
  | case4 budget rule todo seen hnot ih => exact ih (List.nodup_cons.2 ⟨by simpa using hnot, h⟩)

/-- What is collected from a rule is the rule and what it reaches. -/
theorem mem_closure_iff {r : Nat} :
    r ∈ closure graph rule ↔ Relation.ReflTransGen (Refers graph) rule r := by
  constructor
  · refine forall_mem_collect (fun r hr t ht => hr.tail ht) _ ?_ (by simp) r
    simp only [List.mem_singleton, forall_eq]
    exact .refl
  · intro h
    obtain ⟨hself, hclosed⟩ := closed_closure graph rule
    induction h with
    | refl => exact hself
    | tail _ hstep ih => exact hclosed _ ih _ hstep

/-! ## Counts -/

theorem size_counts (graph : Array (List Nat)) (rule : Nat) :
    (counts graph rule).size = graph.size := by
  have h : ∀ (targets : List Nat) (counts : Array Nat),
      (targets.foldl (fun counts target => counts.modify target (· + 1)) counts).size =
        counts.size := by
    intro targets
    induction targets with
    | nil => exact fun _ => rfl
    | cons target targets ih =>
      intro counts
      rw [List.foldl_cons, ih, Array.size_modify]
  rw [counts, h, Array.size_replicate]

/-- A rule is counted just if it is reached. -/
theorem counts_pos_iff {t : Nat} (ht : t < graph.size) :
    0 < (counts graph rule)[t]?.getD 0 ↔ Relation.TransGen (Refers graph) rule t := by
  refine ⟨fun h => ?_, fun h => counts_pos h ht⟩
  rw [counts, getElem?_foldl_modify] at h
  simp only [Array.getElem?_replicate, ht, if_true, Option.map_some, Option.getD_some,
    Nat.zero_add, List.count_pos_iff, List.mem_flatMap] at h
  obtain ⟨r, hr, hlast⟩ := h
  exact .tail' (mem_closure_iff.1 hr) hlast

/-- No rule is counted more often than there are references. -/
theorem count_le_sum {n : Nat} (h : n ∈ counts graph rule) :
    n ≤ ∑ r ∈ Finset.range graph.size, (successors graph r).length := by
  obtain ⟨t, hget⟩ := Array.getElem?_of_mem h
  have ht : t < graph.size := by
    rw [← size_counts graph rule]
    exact (Array.getElem?_eq_some_iff.1 hget).1
  rw [counts, getElem?_foldl_modify] at hget
  simp only [Array.getElem?_replicate, ht, if_true, Option.map_some, Nat.zero_add,
    Option.some.injEq] at hget
  have hnodup : (closure graph rule).Nodup := nodup_collect _ List.nodup_nil
  have hsub : (closure graph rule).toFinset.filter (· < graph.size) ⊆ Finset.range graph.size := by
    intro r hr
    simpa using (Finset.mem_filter.1 hr).2
  calc n ≤ ((closure graph rule).flatMap (successors graph)).length :=
        hget ▸ List.count_le_length
    _ = ∑ r ∈ (closure graph rule).toFinset, (successors graph r).length := by
        rw [List.length_flatMap, List.sum_toFinset _ hnodup]
    _ = ∑ r ∈ (closure graph rule).toFinset.filter (· < graph.size),
          (successors graph r).length := by
        refine (Finset.sum_filter_of_ne fun r _ hne => ?_).symm
        by_contra hr
        simp [successors, Array.getElem?_eq_none (Nat.le_of_not_lt hr)] at hne
    _ ≤ _ := Finset.sum_le_sum_of_subset hsub

end References

namespace Analysis

open References

/-! ## Groups -/

variable {counts : Array (Array Nat)}

/-- The rules that are in a circle with rule `i`, and `i` itself. -/
def circleOf (counts : Array (Array Nat)) (i : Nat) : List Nat :=
  (List.range counts.size).filter fun j => j == i || inCircle counts i j

theorem groupFrom?_eq_some_iff {i : Nat} {members : List Nat} :
    groupFrom? counts i = some members ↔
      members = circleOf counts i ∧ members.head? = some i ∧ 2 ≤ members.length := by
  simp only [groupFrom?, circleOf]
  constructor
  · intro h
    split at h
    · cases h
      exact ⟨rfl, ‹_›⟩
    · cases h
  · rintro ⟨rfl, h⟩
    exact if_pos h

theorem mem_findGroups_iff {members : List Nat} :
    members ∈ findGroups counts ↔ ∃ i < counts.size,
      members = circleOf counts i ∧ members.head? = some i ∧ 2 ≤ members.length := by
  simp only [findGroups, List.mem_filterMap, List.mem_range, groupFrom?_eq_some_iff]

theorem nodup_findGroups (counts : Array (Array Nat)) : (findGroups counts).Nodup := by
  refine List.Nodup.filterMap (fun i j members hi hj => ?_) List.nodup_range
  have hi := (groupFrom?_eq_some_iff.1 hi).2.1
  have hj := (groupFrom?_eq_some_iff.1 hj).2.1
  exact Option.some.inj (hi.symm.trans hj)

section

variable {R : Nat → Nat → Prop}
  (hcircle : ∀ i < counts.size, ∀ j < counts.size,
    (inCircle counts i j = true ↔ Relation.TransGen R i j ∧ Relation.TransGen R j i))
include hcircle

theorem mem_circleOf_iff {i j : Nat} (hi : i < counts.size) :
    j ∈ circleOf counts i ↔
      j < counts.size ∧ (j = i ∨ Relation.TransGen R i j ∧ Relation.TransGen R j i) := by
  simp only [circleOf, List.mem_filter, List.mem_range, Bool.or_eq_true, beq_iff_eq]
  exact and_congr_right fun hj => or_congr_right (hcircle i hi j hj)

/-- All members of a circle have the same circle. -/
theorem circleOf_eq {i j : Nat} (hi : i < counts.size) (hj : j ∈ circleOf counts i) :
    circleOf counts j = circleOf counts i := by
  obtain ⟨hlt, hsame⟩ := (mem_circleOf_iff hcircle hi).1 hj
  rcases hsame with rfl | ⟨hij, hji⟩
  · rfl
  · refine List.filter_congr fun k hk => ?_
    have hk := List.mem_range.1 hk
    rw [Bool.eq_iff_iff, Bool.or_eq_true, Bool.or_eq_true, beq_iff_eq, beq_iff_eq,
      hcircle j hlt k hk, hcircle i hi k hk]
    constructor
    · rintro (rfl | ⟨hjk, hkj⟩)
      · exact Or.inr ⟨hij, hji⟩
      · exact Or.inr ⟨hij.trans hjk, hkj.trans hji⟩
    · rintro (rfl | ⟨hik, hki⟩)
      · exact Or.inr ⟨hji, hij⟩
      · exact Or.inr ⟨hji.trans hik, hki.trans hij⟩

/-- A rule is in at most one group. -/
theorem eq_of_mem_findGroups {members members' : List Nat} {r : Nat}
    (h : members ∈ findGroups counts) (h' : members' ∈ findGroups counts) (hr : r ∈ members)
    (hr' : r ∈ members') : members = members' := by
  obtain ⟨i, hi, rfl, -⟩ := mem_findGroups_iff.1 h
  obtain ⟨j, hj, rfl, -⟩ := mem_findGroups_iff.1 h'
  rw [← circleOf_eq hcircle hi hr, circleOf_eq hcircle hj hr']

/-- The rules in groups are those in a circle with another rule. -/
theorem exists_group_iff (hlt : ∀ {i j}, R i j → j < counts.size) {r : Nat}
    (hr : r < counts.size) :
    (∃ members ∈ findGroups counts, r ∈ members) ↔
      ∃ t, t ≠ r ∧ Relation.TransGen R r t ∧ Relation.TransGen R t r := by
  constructor
  · rintro ⟨members, hmembers, hmem⟩
    obtain ⟨i, hi, rfl, -, htwo⟩ := mem_findGroups_iff.1 hmembers
    rw [← circleOf_eq hcircle hi hmem] at htwo
    have hnodup : (circleOf counts r).Nodup := List.nodup_range.filter _
    obtain ⟨t, ht, hne⟩ : ∃ t ∈ circleOf counts r, t ≠ r := by
      by_contra hall
      push Not at hall
      have hle := (hnodup.subperm fun t ht => List.mem_singleton.2 (hall t ht)).length_le
      rw [List.length_singleton] at hle
      omega
    exact ⟨t, hne, ((mem_circleOf_iff hcircle hr).1 ht).2.resolve_left hne⟩
  · rintro ⟨t, hne, hrt, htr⟩
    obtain ⟨_, -, hlast⟩ := Relation.TransGen.tail'_iff.1 hrt
    have hmem : r ∈ circleOf counts r := (mem_circleOf_iff hcircle hr).2 ⟨hr, Or.inl rfl⟩
    have ht : t ∈ circleOf counts r :=
      (mem_circleOf_iff hcircle hr).2 ⟨hlt hlast, Or.inr ⟨hrt, htr⟩⟩
    obtain ⟨i, rest, hlist⟩ := List.exists_cons_of_ne_nil (List.ne_nil_of_mem hmem)
    have hi : i ∈ circleOf counts r := by simp [hlist]
    refine ⟨circleOf counts r, mem_findGroups_iff.2 ⟨i, ?_, ?_, by rw [hlist]; rfl, ?_⟩, hmem⟩
    · exact ((mem_circleOf_iff hcircle hr).1 hi).1
    · exact (circleOf_eq hcircle hr hi).symm
    · have hpair : [r, t].Nodup := by simpa using hne.symm
      simpa using (hpair.subperm (List.forall_mem_cons.2 ⟨hmem, by simpa using ht⟩)).length_le

end

/-! ## Classification -/

/-- What classification finds of the rules of a table. -/
structure Classifies (rules : Array Rule) (analysis : Analysis) : Prop where
  size : analysis.classes.size = rules.size
  attributes : analysis.attributes = analysis.classes.map fun c => initialAttributes c.kind
  counts_size : ∀ c ∈ analysis.classes, c.counts.size = rules.size
  counts_le : ∀ c ∈ analysis.classes, ∀ n ∈ c.counts, n ≤ opcodeCount rules
  /-- A rule is found to reach just the rules that it refers to, directly or through others. -/
  reaches : ∀ {r : Nat} {c}, analysis.classes[r]? = some c → ∀ t,
    c.reaches t = true ↔ Relation.TransGen (RefersTo rules) r t
  /-- The recursive rules are those that reach themselves. -/
  recursive : ∀ {r : Nat} {c}, analysis.classes[r]? = some c →
    (c.kind.isRecursive = true ↔ Relation.TransGen (RefersTo rules) r r)
  members : ∀ group ∈ analysis.groups, ∀ r ∈ group, r < rules.size
  /-- A rule names just the group that lists it. -/
  group : ∀ {r : Nat} {c}, analysis.classes[r]? = some c → ∀ g : Nat,
    c.group = some g ↔ ∃ members, analysis.groups[g]? = some members ∧ r ∈ members
  inGroup : ∀ {r : Nat} {c}, analysis.classes[r]? = some c →
    (c.kind = .inGroup ↔ c.group.isSome = true)
  /-- The rules in groups are those in a circle with another rule. -/
  circle : ∀ {r : Nat} {c}, analysis.classes[r]? = some c → (c.kind = .inGroup ↔
    ∃ t, t ≠ r ∧ Relation.TransGen (RefersTo rules) r t ∧ Relation.TransGen (RefersTo rules) t r)
  /-- A rule that is found to reach no group reaches none. -/
  apart : ∀ {r t : Nat} {c c'}, analysis.classes[r]? = some c → analysis.classes[t]? = some c' →
    c.kind ∈ [.nonRecursive, .recursive] → Relation.TransGen (RefersTo rules) r t →
      c'.kind ≠ .inGroup

theorem lt_of_reaches {rules : Array Rule} {r t : Nat}
    (h : Relation.TransGen (RefersTo rules) r t) : r < rules.size := by
  obtain ⟨_, ⟨_, hrule, -⟩, -⟩ := Relation.TransGen.head'_iff.1 h
  exact (Array.getElem?_eq_some_iff.1 hrule).1

/-- Classes do not miss what a rule reaches. -/
theorem Classifies.any_reaches {rules : Array Rule} {classified analysis : Analysis}
    (h : Classifies rules classified) (hsame : analysis.classes = classified.classes) {r t : Nat}
    (hreach : Relation.TransGen (RefersTo rules) r t) :
    (analysis.classes[r]?.any (·.reaches t)) = true := by
  have hc := Array.getElem?_eq_getElem (h.size ▸ lt_of_reaches hreach)
  rw [hsame, hc]
  exact (h.reaches hc t).2 hreach

theorem kind_classOf_eq_inGroup_iff {groups : List (List Nat)} {i : Nat} {row : Array Nat} :
    (classOf groups i row).kind = .inGroup ↔ ∃ members ∈ groups, i ∈ members := by
  simp only [classOf]
  split
  · rename_i h
    simpa using h
  · rename_i h
    have hnot : ¬ ∃ members ∈ groups, i ∈ members := by simpa using h
    simp only [hnot, iff_false]
    split <;> simp

theorem group_classOf_eq_some_iff {groups : List (List Nat)} {i : Nat} {row : Array Nat}
    (hnodup : groups.Nodup) (hunique : ∀ {members members' : List Nat} {r : Nat},
      members ∈ groups → members' ∈ groups → r ∈ members → r ∈ members' → members = members')
    {g : Nat} :
    (classOf groups i row).group = some g ↔ ∃ members, groups[g]? = some members ∧ i ∈ members := by
  simp only [classOf, List.findIdx?_eq_some_iff_getElem, List.contains_iff_mem]
  constructor
  · rintro ⟨hg, hmem, -⟩
    exact ⟨groups[g], List.getElem?_eq_getElem hg, hmem⟩
  · rintro ⟨members, hget, hmem⟩
    obtain ⟨hg, rfl⟩ := List.getElem?_eq_some_iff.1 hget
    refine ⟨hg, hmem, fun j hj hmem' => ?_⟩
    have hsame := hunique (List.getElem_mem _) (List.getElem_mem hg) hmem' hmem
    exact absurd ((hnodup.getElem_inj_iff).1 hsame) (by omega)

theorem isRecursive_classOf_iff {groups : List (List Nat)} {i : Nat} {row : Array Nat}
    (hgroups : (∃ members ∈ groups, i ∈ members) → 0 < row[i]?.getD 0) :
    (classOf groups i row).kind.isRecursive = true ↔ 0 < row[i]?.getD 0 := by
  refine ⟨fun h => ?_, isRecursive_classOf⟩
  by_cases hin : ∃ members ∈ groups, i ∈ members
  · exact hgroups hin
  · have hany : (groups.any (·.contains i)) = false := by simpa using hin
    by_contra hrow
    simp only [classOf, hany, hrow, decide_false] at h
    cases hreach : groups.any (·.any fun j => decide (0 < row[j]?.getD 0)) <;>
      simp [hreach, Kind.isRecursive] at h

theorem not_reached_of_classOf {groups : List (List Nat)} {i : Nat} {row : Array Nat}
    (h : (classOf groups i row).kind ∈ [.nonRecursive, .recursive]) {members : List Nat}
    (hmembers : members ∈ groups) {t : Nat} (ht : t ∈ members) : row[t]?.getD 0 = 0 := by
  by_contra hrow
  have hany : (groups.any (·.any fun j => decide (0 < row[j]?.getD 0))) = true := by
    simp only [List.any_eq_true, decide_eq_true_eq]
    exact ⟨members, hmembers, t, ht, Nat.pos_of_ne_zero hrow⟩
  simp only [classOf, hany] at h
  split at h
  · simp at h
  · split at h <;> simp_all

/-- The references of all rules are among their opcodes. -/
theorem sum_targets_le (rules : Array Rule) :
    ∑ r ∈ Finset.range (rules.map targets).size, (successors (rules.map targets) r).length ≤
      opcodeCount rules := by
  rw [Engine.opcodeCount_eq_sum, Array.size_map]
  refine Finset.sum_le_sum fun r hr => ?_
  rw [successors, Array.getElem?_map]
  cases rules[r]? with
  | none => simp
  | some rule =>
    rw [Option.map_some, Option.getD_some, Option.elim_some, targets]
    exact List.length_filterMap_le _ _

/-! ### The counts of a table -/

/-- How often each rule of a table is reached from each. -/
def rowsOf (rules : Array Rule) : Array (Array Nat) :=
  (Array.range rules.size).map (References.counts (rules.map targets))

@[simp] theorem size_rowsOf (rules : Array Rule) : (rowsOf rules).size = rules.size := by
  simp [rowsOf]

theorem rowsOf_eq {rules : Array Rule} {r : Nat} (hr : r < rules.size) :
    (rowsOf rules)[r]? = some (References.counts (rules.map targets) r) := by
  simp [rowsOf, hr]

section

variable {rules : Array Rule}
  (hrules : ∀ rule ∈ rules, ∀ t, .rnm t ∈ rule.opcodes → t < rules.size)
include hrules

/-- Classification of a table whose references are rules of the table. -/
theorem classify_eq_ok :
    classify rules = .ok
      ⟨(rowsOf rules).mapIdx (classOf (findGroups (rowsOf rules))),
        ((rowsOf rules).mapIdx (classOf (findGroups (rowsOf rules)))).map
          fun c => initialAttributes c.kind,
        (findGroups (rowsOf rules)).toArray⟩ := by
  have hrows : (Array.range (rules.map targets).size).map (References.counts (rules.map targets)) =
      rowsOf rules := by
    rw [rowsOf, Array.size_map]
  simp only [classify, graph_eq_ok hrules, bind, Except.bind, hrows]
  rfl

theorem refersTo_lt {r t : Nat} (h : RefersTo rules r t) : t < rules.size := by
  obtain ⟨rule, hrule, ht⟩ := h
  exact hrules rule (Array.mem_of_getElem? hrule) t ht

/-- A rule of a table is counted just if it is reached. -/
theorem counts_pos_iff_reaches (r t : Nat) :
    0 < (References.counts (rules.map targets) r)[t]?.getD 0 ↔
      Relation.TransGen (RefersTo rules) r t := by
  have hsame : Relation.TransGen (Refers (rules.map targets)) r t ↔
      Relation.TransGen (RefersTo rules) r t :=
    ⟨fun h => h.lift id fun _ _ => refers_iff.1, fun h => h.lift id fun _ _ => refers_iff.2⟩
  rw [← hsame]
  by_cases ht : t < (rules.map targets).size
  · exact counts_pos_iff ht
  · have hout : ¬ Relation.TransGen (RefersTo rules) r t := by
      intro h
      obtain ⟨_, -, hlast⟩ := Relation.TransGen.tail'_iff.1 h
      exact ht (by simpa using refersTo_lt hrules hlast)
    rw [Array.getElem?_eq_none (by rw [size_counts]; omega), hsame]
    simpa using hout

/-- Two rules are found in a circle just if each reaches the other. -/
theorem inCircle_rowsOf_iff : ∀ i < (rowsOf rules).size, ∀ j < (rowsOf rules).size,
    (inCircle (rowsOf rules) i j = true ↔
      Relation.TransGen (RefersTo rules) i j ∧ Relation.TransGen (RefersTo rules) j i) := by
  intro i hi j hj
  rw [size_rowsOf] at hi hj
  simp only [inCircle, rowsOf_eq hi, rowsOf_eq hj, Option.getD_some, Bool.and_eq_true,
    decide_eq_true_eq, counts_pos_iff_reaches hrules]

omit hrules in
theorem classOf_of_getElem? {r : Nat} {c : RuleClass}
    (hc : ((rowsOf rules).mapIdx (classOf (findGroups (rowsOf rules))))[r]? = some c) :
    r < rules.size ∧
      c = classOf (findGroups (rowsOf rules)) r (References.counts (rules.map targets) r) := by
  rw [Array.getElem?_mapIdx] at hc
  obtain ⟨row, hget, rfl⟩ := Option.map_eq_some_iff.1 hc
  have hr : r < rules.size := size_rowsOf rules ▸ (Array.getElem?_eq_some_iff.1 hget).1
  rw [rowsOf_eq hr] at hget
  cases hget
  exact ⟨hr, rfl⟩

/-- Classification ends and is exact. -/
theorem classify_exact :
    ∃ analysis, classify rules = .ok analysis ∧ Classifies rules analysis := by
  have hpos := counts_pos_iff_reaches hrules
  have hcircle := inCircle_rowsOf_iff hrules
  have hgroup : ∀ {r}, r < rules.size → ((∃ members ∈ findGroups (rowsOf rules), r ∈ members) ↔
      ∃ t, t ≠ r ∧ Relation.TransGen (RefersTo rules) r t ∧
        Relation.TransGen (RefersTo rules) t r) := fun hr => exists_group_iff hcircle
    (fun h => (size_rowsOf rules).symm ▸ refersTo_lt hrules h) ((size_rowsOf rules).symm ▸ hr)
  refine ⟨_, classify_eq_ok hrules, ?_⟩
  exact {
    size := by simp
    attributes := rfl
    counts_size := fun c hc => by
      obtain ⟨r, hr⟩ := Array.getElem?_of_mem hc
      rw [(classOf_of_getElem? hr).2]
      simp [classOf, size_counts]
    counts_le := fun c hc n hn => by
      obtain ⟨r, hr⟩ := Array.getElem?_of_mem hc
      rw [(classOf_of_getElem? hr).2] at hn
      exact Nat.le_trans (count_le_sum hn) (sum_targets_le rules)
    reaches := fun {r c} hc t => by
      rw [(classOf_of_getElem? hc).2, RuleClass.reaches, decide_eq_true_eq]
      exact hpos r t
    recursive := fun {r c} hc => by
      obtain ⟨hr, rfl⟩ := classOf_of_getElem? hc
      rw [← hpos r r]
      refine isRecursive_classOf_iff fun hin => ?_
      obtain ⟨t, -, hrt, htr⟩ := (hgroup hr).1 hin
      exact (hpos r r).2 (hrt.trans htr)
    members := fun group hgroup r hr => by
      rw [← size_rowsOf rules]
      exact mem_findGroups (List.mem_toArray.1 hgroup) hr
    group := fun {r c} hc g => by
      obtain ⟨hr, rfl⟩ := classOf_of_getElem? hc
      rw [group_classOf_eq_some_iff (nodup_findGroups _) (eq_of_mem_findGroups hcircle),
        List.getElem?_toArray]
    inGroup := fun {r c} hc => by
      obtain ⟨hr, rfl⟩ := classOf_of_getElem? hc
      rw [kind_classOf_eq_inGroup_iff]
      simp [classOf]
    circle := fun {r c} hc => by
      obtain ⟨hr, rfl⟩ := classOf_of_getElem? hc
      rw [kind_classOf_eq_inGroup_iff]
      exact hgroup hr
    apart := fun {r t c c'} hc hc' hkind hreach hin => by
      obtain ⟨hr, rfl⟩ := classOf_of_getElem? hc
      obtain ⟨ht, rfl⟩ := classOf_of_getElem? hc'
      obtain ⟨members, hmembers, hmem⟩ := kind_classOf_eq_inGroup_iff.1 hin
      exact absurd (not_reached_of_classOf hkind hmembers hmem)
        (Nat.pos_iff_ne_zero.1 ((hpos r t).2 hreach)) }

end

/-! ## The passes after classification -/

theorem foldlM_keeps {ε α σ : Type} {f : σ → α → Except ε σ} {P : σ → Prop}
    (h : ∀ s a s', f s a = .ok s' → P s → P s') {as : List α} {s s' : σ}
    (hfold : as.foldlM f s = .ok s') (hs : P s) : P s' := by
  induction as generalizing s with
  | nil =>
    cases hfold
    exact hs
  | cons a as ih =>
    rw [List.foldlM_cons] at hfold
    cases hstep : f s a with
    | error =>
      rw [hstep] at hfold
      cases hfold
    | ok next =>
      rw [hstep] at hfold
      exact ih hfold (h s a next hstep hs)

/-- The pass that looks for phrases keeps classes and groups. -/
theorem kept_of_phrases {rules : Array Rule} {analysis found : Analysis}
    (h : Phrases.propagate rules analysis = .ok found) :
    found.classes = analysis.classes ∧ found.groups = analysis.groups := by
  obtain ⟨_, -, h⟩ := exists_of_bind_eq_ok h
  obtain ⟨_, -, h⟩ := exists_of_bind_eq_ok h
  obtain ⟨_, -, h⟩ := exists_of_bind_eq_ok h
  cases h
  exact ⟨rfl, rfl⟩

/-- The pass that looks for recursion keeps classes and groups. -/
theorem kept_of_recursion {rules : Array Rule} {analysis found : Analysis}
    (h : Recursion.propagate rules analysis = .ok found) :
    found.classes = analysis.classes ∧ found.groups = analysis.groups := by
  refine foldlM_keeps (P := fun found => found.classes = analysis.classes ∧
    found.groups = analysis.groups) (fun before r after hwalk hbefore => ?_) h ⟨rfl, rfl⟩
  obtain ⟨_, -, hwalk⟩ := exists_of_bind_eq_ok hwalk
  cases hwalk
  exact hbefore

/-- Analysis keeps the classes and the groups that classification found. -/
theorem classes_of_analyze {rules : Array Rule} {analysis : Analysis}
    (h : analyze rules = .ok analysis) :
    ∃ classified, classify rules = .ok classified ∧ analysis.classes = classified.classes ∧
      analysis.groups = classified.groups := by
  obtain ⟨classified, hclassify, h⟩ := exists_of_bind_eq_ok h
  obtain ⟨found, hphrases, hrecursion⟩ := exists_of_bind_eq_ok h
  obtain ⟨hclasses, hgroups⟩ := kept_of_phrases hphrases
  obtain ⟨hclasses', hgroups'⟩ := kept_of_recursion hrecursion
  exact ⟨classified, hclassify, hclasses'.trans hclasses, hgroups'.trans hgroups⟩

end Analysis

end Abnf
