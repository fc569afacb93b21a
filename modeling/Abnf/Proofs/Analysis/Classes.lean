import Abnf.Analysis.Classes
import Abnf.Proofs.Engine.Descent

/-!
# References and classes

A rule is found to reach every rule that it refers to, directly or through others; so a rule that
can be reached from itself is found to be recursive.

* `References.closed_closure`: the rules collected from a rule are closed under references.
* `Analysis.classify_spec`: classification ends, and misses no reference.
-/

namespace Abnf

namespace References

variable {graph : Array (List Nat)}

/-! ## Closure -/

/-- The number of references of the rules that have not been seen. -/
def unseen (graph : Array (List Nat)) (seen : List Nat) : Nat :=
  ∑ r ∈ Finset.range graph.size \ seen.toFinset, (successors graph r).length

theorem unseen_cons {rule : Nat} {seen : List Nat} (h : rule ∉ seen) :
    unseen graph (rule :: seen) + (successors graph rule).length = unseen graph seen := by
  by_cases hrule : rule < graph.size
  · have hmem : rule ∈ Finset.range graph.size \ seen.toFinset := by simp [hrule, h]
    rw [unseen, unseen, ← Finset.sum_erase_add _ _ hmem]
    congr 2
    ext r
    simp only [List.toFinset_cons, Finset.mem_sdiff, Finset.mem_insert, Finset.mem_erase]
    tauto
  · have hnone : successors graph rule = [] := by
      rw [successors, Array.getElem?_eq_none (by omega)]
      rfl
    have hsame : Finset.range graph.size \ (rule :: seen).toFinset =
        Finset.range graph.size \ seen.toFinset := by
      ext r
      simp only [List.toFinset_cons, Finset.mem_sdiff, Finset.mem_range, Finset.mem_insert]
      constructor
      · rintro ⟨hr, hnot⟩
        exact ⟨hr, fun hmem => hnot (Or.inr hmem)⟩
      · rintro ⟨hr, hnot⟩
        refine ⟨hr, fun hmem => ?_⟩
        rcases hmem with rfl | hmem
        · exact hrule hr
        · exact hnot hmem
    rw [unseen, unseen, hsame, hnone, List.length_nil, Nat.add_zero]

/-- With enough budget nothing is left to do: what was seen or to be seen is collected, and what
is collected is closed under references. -/
theorem collect_spec (budget : Nat) (todo seen : List Nat)
    (hbudget : todo.length + unseen graph seen < budget)
    (hclosed : ∀ r ∈ seen, ∀ t ∈ successors graph r, t ∈ seen ∨ t ∈ todo) :
    (∀ r, r ∈ seen ∨ r ∈ todo → r ∈ collect graph budget todo seen) ∧
      ∀ r ∈ collect graph budget todo seen, ∀ t ∈ successors graph r,
        t ∈ collect graph budget todo seen := by
  -- A rule that was seen makes what is to be done shorter by one. A new rule leaves the unseen
  -- ones, and its references pass from there to what is to be done. So the sum falls in each round.
  induction budget generalizing todo seen with
  | zero => omega
  | succ budget ih =>
    cases todo with
    | nil =>
      simp only [collect]
      refine ⟨fun r hr => by simpa using hr, fun r hr t ht => ?_⟩
      simpa using hclosed r hr t ht
    | cons rule todo =>
      rw [List.length_cons] at hbudget
      rw [collect]
      split
      · rename_i hseen
        have hseen : rule ∈ seen := by simpa using hseen
        have hdrop : ∀ r, r ∈ seen ∨ r ∈ rule :: todo → r ∈ seen ∨ r ∈ todo := by
          rintro r (hr | hr)
          · exact Or.inl hr
          · rcases List.mem_cons.1 hr with rfl | hr
            · exact Or.inl hseen
            · exact Or.inr hr
        obtain ⟨hall, hcollected⟩ := ih todo seen (by omega)
          fun r hr t ht => hdrop t (hclosed r hr t ht)
        exact ⟨fun r hr => hall r (hdrop r hr), hcollected⟩
      · rename_i hseen
        have hseen : rule ∉ seen := by simpa using hseen
        have hcount : unseen graph (rule :: seen) + _ = _ := unseen_cons hseen
        have hmove : ∀ r, r ∈ seen ∨ r ∈ rule :: todo →
            r ∈ rule :: seen ∨ r ∈ successors graph rule ++ todo := by
          simp only [List.mem_cons, List.mem_append]
          tauto
        obtain ⟨hall, hcollected⟩ := ih (successors graph rule ++ todo) (rule :: seen)
          (by rw [List.length_append]; omega) (by
            intro r hr t ht
            rcases List.mem_cons.1 hr with rfl | hr
            · exact Or.inr (List.mem_append_left _ ht)
            · exact hmove t (hclosed r hr t ht))
        exact ⟨fun r hr => hall r (hmove r hr), hcollected⟩

/-- The rules collected from a rule are closed under references. -/
theorem closed_closure (graph : Array (List Nat)) (rule : Nat) :
    rule ∈ closure graph rule ∧
      ∀ r ∈ closure graph rule, ∀ t ∈ successors graph r, t ∈ closure graph rule := by
  have hbudget : [rule].length + unseen graph [] <
      graph.foldl (fun count refs => count + refs.length) 2 := by
    rw [Engine.foldl_add_eq_sum List.length]
    have hsum : ∑ r ∈ Finset.range graph.size, (successors graph r).length =
        ∑ i ∈ Finset.range graph.size, graph[i]?.elim 0 List.length := by
      refine Finset.sum_congr rfl fun i _ => ?_
      rw [successors]
      cases graph[i]? <;> rfl
    simp only [unseen, List.toFinset_nil, Finset.sdiff_empty, List.length_singleton, hsum]
    omega
  obtain ⟨hall, hclosed⟩ := collect_spec _ [rule] [] hbudget (by simp)
  exact ⟨hall rule (by simp), hclosed⟩

/-! ## Counts -/

/-- `r` refers to `t`. -/
def Refers (graph : Array (List Nat)) (r t : Nat) : Prop :=
  t ∈ successors graph r

theorem getElem?_foldl_modify (counts : Array Nat) (targets : List Nat) (t : Nat) :
    (targets.foldl (fun counts target => counts.modify target (· + 1)) counts)[t]? =
      counts[t]?.map (· + targets.count t) := by
  induction targets generalizing counts with
  | nil => simp
  | cons target targets ih =>
    rw [List.foldl_cons, ih, Array.getElem?_modify, List.count_cons]
    by_cases h : target = t
    · subst h
      cases counts[target]? <;> simp [Nat.add_comm, Nat.add_left_comm]
    · cases counts[t]? <;> simp [h]

/-- A rule that can be reached is counted. -/
theorem counts_pos {rule t : Nat} (h : Relation.TransGen (Refers graph) rule t)
    (ht : t < graph.size) : 0 < (counts graph rule)[t]?.getD 0 := by
  obtain ⟨hself, hclosed⟩ := closed_closure graph rule
  have hreach : ∀ r, Relation.ReflTransGen (Refers graph) rule r → r ∈ closure graph rule := by
    intro r hr
    induction hr with
    | refl => exact hself
    | tail _ hstep ih => exact hclosed _ ih _ hstep
  have hmem : t ∈ (closure graph rule).flatMap (successors graph) := by
    obtain ⟨r, hr, hlast⟩ := Relation.TransGen.tail'_iff.1 h
    exact List.mem_flatMap.2 ⟨r, hreach r hr, hlast⟩
  rw [counts, getElem?_foldl_modify]
  simp [ht, List.count_pos_iff.2 hmem]

end References

namespace Analysis

open References

/-! ## Classification -/

theorem isRecursive_classOf {groups : List (List Nat)} {i : Nat} {counts : Array Nat}
    (h : 0 < counts[i]?.getD 0) : (classOf groups i counts).kind.isRecursive = true := by
  simp only [classOf, h, decide_true]
  split
  · rfl
  · cases groups.any (·.any fun j => decide (0 < counts[j]?.getD 0)) <;> rfl

theorem mem_findGroups {counts : Array (Array Nat)} {group : List Nat} {r : Nat}
    (hgroup : group ∈ findGroups counts) (hr : r ∈ group) : r < counts.size := by
  obtain ⟨i, -, hi⟩ := List.mem_filterMap.1 hgroup
  simp only [groupFrom?] at hi
  split at hi
  · cases hi
    exact List.mem_range.1 (List.mem_filter.1 hr).1
  · cases hi

/-- Rule `r` refers to rule `t`. -/
def RefersTo (rules : Array Rule) (r t : Nat) : Prop :=
  ∃ rule, rules[r]? = some rule ∧ .rnm t ∈ rule.opcodes

theorem mem_targets {rule : Rule} {t : Nat} : t ∈ targets rule ↔ .rnm t ∈ rule.opcodes := by
  simp only [targets, List.mem_filterMap, Array.mem_toList_iff]
  constructor
  · rintro ⟨op, hop, ht⟩
    cases op with
    | rnm => cases ht; exact hop
    | _ => cases ht
  · intro h
    exact ⟨_, h, rfl⟩

theorem refers_iff {rules : Array Rule} {r t : Nat} :
    Refers (rules.map targets) r t ↔ RefersTo rules r t := by
  simp only [Refers, successors, Array.getElem?_map, RefersTo]
  cases rules[r]? with
  | none => simp
  | some rule => simp [mem_targets]

theorem graph_eq_ok {rules : Array Rule}
    (hrules : ∀ rule ∈ rules, ∀ t, .rnm t ∈ rule.opcodes → t < rules.size) :
    graph rules = .ok (rules.map targets) := by
  rw [graph, if_pos]
  simp only [Array.all_eq_true', List.all_eq_true, decide_eq_true_eq]
  exact fun rule hrule t ht => hrules rule hrule t (mem_targets.1 ht)

/-- Classification ends. It takes all rules to be empty and recursive rules to recur first, and
finds every rule that can be reached. -/
theorem classify_spec {rules : Array Rule}
    (hrules : ∀ rule ∈ rules, ∀ t, .rnm t ∈ rule.opcodes → t < rules.size) :
    ∃ analysis, classify rules = .ok analysis ∧ analysis.classes.size = rules.size ∧
      analysis.attributes.size = rules.size ∧
      (∀ group ∈ analysis.groups, ∀ r ∈ group, r < rules.size) ∧
      (∀ a ∈ analysis.attributes, a.empty = true) ∧
      (∀ r t, Relation.TransGen (RefersTo rules) r t →
        ∃ c, analysis.classes[r]? = some c ∧ c.reaches t = true) ∧
      ∀ r, Relation.TransGen (RefersTo rules) r r →
        ∃ c a, analysis.classes[r]? = some c ∧ c.kind.isRecursive = true ∧
          analysis.attributes[r]? = some a ∧ a.left = true := by
  have hgraph := graph_eq_ok hrules
  let counts := (Array.range (rules.map targets).size).map (References.counts (rules.map targets))
  have hcounts : counts.size = rules.size := by simp [counts]
  have hreached : ∀ r t, Relation.TransGen (RefersTo rules) r t →
      ∃ row, counts[r]? = some row ∧ 0 < row[t]?.getD 0 := by
    intro r t h
    obtain ⟨_, ⟨rule, hrule, -⟩, -⟩ := Relation.TransGen.head'_iff.1 h
    obtain ⟨_, -, rule', hrule', ht⟩ := Relation.TransGen.tail'_iff.1 h
    have hr : r < rules.size := (Array.getElem?_eq_some_iff.1 hrule).1
    refine ⟨References.counts (rules.map targets) r, by simp [counts, hr], ?_⟩
    refine counts_pos (h.lift id fun _ _ => refers_iff.2) ?_
    simpa using hrules rule' (Array.mem_of_getElem? hrule') t ht
  refine ⟨_, by simp only [classify, hgraph, bind, Except.bind]; rfl, ?_, ?_, ?_, ?_, ?_, ?_⟩
  · simp
  · simp
  · intro group hgroup r hr
    rw [← hcounts]
    exact mem_findGroups (List.mem_toArray.1 hgroup) hr
  · intro a ha
    obtain ⟨c, -, rfl⟩ := Array.mem_map.1 ha
    rfl
  · intro r t h
    obtain ⟨c, hc, ht⟩ := hreached r t h
    refine ⟨classOf (findGroups counts) r c, ?_, by simpa [RuleClass.reaches, classOf] using ht⟩
    rw [Array.getElem?_mapIdx, hc]
    rfl
  · intro r h
    obtain ⟨c, hc, hr⟩ := hreached r r h
    have hclass : (counts.mapIdx (classOf (findGroups counts)))[r]? =
        some (classOf (findGroups counts) r c) := by
      rw [Array.getElem?_mapIdx, hc]
      rfl
    refine ⟨_, initialAttributes (classOf (findGroups counts) r c).kind, hclass,
      isRecursive_classOf hr, ?_, ?_⟩
    · rw [Array.getElem?_map, hclass]
      rfl
    · exact isRecursive_classOf hr

end Analysis

end Abnf
