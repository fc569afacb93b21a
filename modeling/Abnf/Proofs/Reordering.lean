import Mathlib.Data.Finset.Sort
import Mathlib.Data.List.FinRange
import Abnf.Proofs.Analysis.Renaming
import Abnf.Proofs.Classification

/-!
# Analysis does not depend on the order of the rules

Classes are exact about references, phrases are solutions of equations, and what a rule's own walk
finds is all that is left of the walks; none of this knows the order of the rules.

* `reorder`: a table with its rules in another order.
* `Analysis.Agrees`: two analyses that say the same of rules at other places.
* `analyze_reorder`: the analyses of a table in two orders.
-/

namespace Abnf

/-! ## Orders -/

/-- The place of every rule in another order; what is outside of the table stays. -/
def newPlace {n : Nat} (order : Equiv.Perm (Fin n)) : Equiv.Perm Nat :=
  order.extendDomain Fin.equivSubtype

/-- The table in another order, with every rule `r` at `order r`. -/
def reorder (rules : Array Rule) (order : Equiv.Perm (Fin rules.size)) : Array Rule :=
  Array.ofFn fun i => (rules[order.symm i]).rename (newPlace order)

/-- The fault of a rule that moves. -/
def FaultyRule.rename (place : Nat → Nat) (faulty : FaultyRule) : FaultyRule :=
  { faulty with index := place faulty.index }

theorem newPlace_apply {n : Nat} (order : Equiv.Perm (Fin n)) (r : Fin n) :
    newPlace order r = order r :=
  order.extendDomain_apply_image Fin.equivSubtype r

theorem moved_reorder (rules : Array Rule) (order : Equiv.Perm (Fin rules.size)) :
    Moved (newPlace order) rules (reorder rules order) := by
  have hsize : (reorder rules order).size = rules.size := Array.size_ofFn
  refine ⟨hsize, fun r => ?_⟩
  by_cases hr : r < rules.size
  · have hplace := newPlace_apply order ⟨r, hr⟩
    simp only at hplace
    rw [hplace, Array.getElem?_eq_getElem hr, Option.map_some, reorder,
      Array.getElem?_eq_getElem (by simp), Array.getElem_ofFn]
    simp
  · have hstays : newPlace order r = r := order.extendDomain_apply_not_subtype _ hr
    rw [hstays, Array.getElem?_eq_none (by omega), Array.getElem?_eq_none (by omega),
      Option.map_none]

theorem Kind.eq_of_iff {k k' : Kind} (hgroup : k' = .inGroup ↔ k = .inGroup)
    (hrecursive : k'.isRecursive = true ↔ k.isRecursive = true)
    (hrefers : k' ≠ .inGroup → k ≠ .inGroup →
      (k' ∈ [Kind.refersToGroup, .recursiveRefersToGroup] ↔
        k ∈ [Kind.refersToGroup, .recursiveRefersToGroup])) : k' = k := by
  cases k <;> cases k' <;> simp_all [Kind.isRecursive]

namespace Analysis

/-- Two rules are in one group. -/
def Together (analysis : Analysis) (r t : Nat) : Prop :=
  ∃ c d g, analysis.classes[r]? = some c ∧ analysis.classes[t]? = some d ∧
    c.group = some g ∧ d.group = some g

/-- The second analysis says of the rules at their places what the first says of the rules. The
groups have the same members, but may be numbered and listed in another way. -/
structure Agrees (place : Nat → Nat) (analysis analysis' : Analysis) : Prop where
  classes : ∀ {r : Nat} {c}, analysis.classes[r]? = some c →
    ∃ c', analysis'.classes[place r]? = some c' ∧ c'.kind = c.kind ∧
      ∀ t : Nat, c'.counts[place t]? = c.counts[t]?
  together : ∀ r t, Together analysis' (place r) (place t) ↔ Together analysis r t
  groups : (analysis'.groups.toList.map List.toFinset).Perm
    (analysis.groups.toList.map fun members => (members.map place).toFinset)
  attributes : ∀ r : Nat, analysis'.attributes[place r]? = analysis.attributes[r]?

/-! ## Classes -/

variable {rules rules' : Array Rule} {analysis analysis' : Analysis}

/-- The rules in groups are those that are mutual with another rule. -/
theorem Exact.exists_group_iff (h : Exact rules analysis) (hclasses : Classifies rules analysis)
    {t : Nat} (ht : t < rules.size) :
    (∃ members ∈ analysis.groups, t ∈ members) ↔ ∃ u, u ≠ t ∧ Mutual rules t u := by
  have hc := Array.getElem?_eq_getElem (h.size.symm ▸ ht : t < analysis.classes.size)
  unfold Mutual
  rw [← hclasses.circle hc, h.inGroup hc, Option.isSome_iff_exists]
  simp only [h.group hc]
  constructor
  · rintro ⟨members, hmembers, hmem⟩
    obtain ⟨g, hg⟩ := Array.getElem?_of_mem hmembers
    exact ⟨g, members, hg, hmem⟩
  · rintro ⟨g, members, hg, hmem⟩
    exact ⟨members, Array.mem_of_getElem? hg, hmem⟩

/-- A rule in no group refers to one if it reaches a rule that is mutual with another. -/
theorem Exact.refersToGroup_iff (h : Exact rules analysis) (hclasses : Classifies rules analysis)
    (hrules : ∀ rule ∈ rules, ∀ t, .rnm t ∈ rule.opcodes → t < rules.size) {i : Nat}
    {c : RuleClass} (hc : analysis.classes[i]? = some c) (hkind : c.kind ≠ .inGroup) :
    c.kind ∈ [.refersToGroup, .recursiveRefersToGroup] ↔
      ∃ t, Relation.TransGen (RefersTo rules) i t ∧ ∃ u, u ≠ t ∧ Mutual rules t u := by
  have hnone : c.group = none := by simpa using mt (h.inGroup hc).2 hkind
  have hlt : ∀ t, Relation.TransGen (RefersTo rules) i t → t < rules.size := by
    intro t hreach
    obtain ⟨_, -, hlast⟩ := Relation.TransGen.tail'_iff.1 hreach
    exact refersTo_lt hrules hlast
  rw [h.refersToGroup hc hnone]
  constructor
  · rintro ⟨members, hmembers, t, ht, hreach⟩
    exact ⟨t, hreach, (h.exists_group_iff hclasses (hlt t hreach)).1 ⟨members, hmembers, ht⟩⟩
  · rintro ⟨t, hreach, hmutual⟩
    obtain ⟨members, hmembers, ht⟩ := (h.exists_group_iff hclasses (hlt t hreach)).2 hmutual
    exact ⟨members, hmembers, t, ht, hreach⟩

/-! ## Groups -/

theorem Exact.mem_components (h : Exact rules analysis) {members : Finset Nat} :
    members ∈ analysis.groups.toList.map List.toFinset ↔
      2 ≤ members.card ∧ ∃ i < rules.size, ∀ j, j ∈ members ↔ j = i ∨ Mutual rules i j := by
  simp only [List.mem_map, Array.mem_toList_iff, h.components]
  constructor
  · rintro ⟨group, ⟨htwo, hsorted, i, hi, hgroup⟩, rfl⟩
    rw [List.toFinset_card_of_nodup (hsorted.imp Nat.ne_of_lt)]
    exact ⟨htwo, i, hi, fun j => by rw [List.mem_toFinset, hgroup]⟩
  · rintro ⟨htwo, i, hi, hmembers⟩
    refine ⟨members.sort, ⟨?_, members.sortedLT_sort.pairwise, i, hi, fun j => ?_⟩, ?_⟩
    · rwa [Finset.length_sort]
    · rw [Finset.mem_sort, hmembers]
    · ext j
      rw [List.mem_toFinset, Finset.mem_sort]

theorem Exact.nodup_components (h : Exact rules analysis) :
    (analysis.groups.toList.map List.toFinset).Nodup := by
  rw [List.Nodup, List.pairwise_map]
  refine h.disjoint.imp_of_mem fun {a b} ha _ hdisjoint heq => ?_
  have htwo := ((h.components a).1 (Array.mem_toList_iff.1 ha)).1
  obtain ⟨i, hi⟩ := List.exists_mem_of_length_pos (Nat.lt_of_lt_of_le Nat.zero_lt_two htwo)
  have hi' : i ∈ b := by rwa [← List.mem_toFinset, ← heq, List.mem_toFinset]
  exact hdisjoint hi hi'

theorem Exact.together_iff (h : Exact rules analysis) (hclasses : Classifies rules analysis)
    {r t : Nat} : Together analysis r t ↔
      ∃ members ∈ analysis.groups.toList.map List.toFinset, r ∈ members ∧ t ∈ members := by
  simp only [List.mem_map, Array.mem_toList_iff]
  constructor
  · rintro ⟨c, d, g, hc, hd, hcg, hdg⟩
    obtain ⟨members, hget, hr⟩ := (h.group hc g).1 hcg
    obtain ⟨members', hget', ht⟩ := (h.group hd g).1 hdg
    cases hget.symm.trans hget'
    exact ⟨_, ⟨members, Array.mem_of_getElem? hget, rfl⟩, by simpa using hr, by simpa using ht⟩
  · rintro ⟨_, ⟨members, hmembers, rfl⟩, hr, ht⟩
    rw [List.mem_toFinset] at hr ht
    obtain ⟨g, hg⟩ := Array.getElem?_of_mem hmembers
    have hclass : ∀ {r}, r ∈ members → ∃ c, analysis.classes[r]? = some c := fun {r} hr =>
      ⟨_, Array.getElem?_eq_getElem (h.size ▸ hclasses.members members hmembers r hr)⟩
    obtain ⟨c, hc⟩ := hclass hr
    obtain ⟨d, hd⟩ := hclass ht
    exact ⟨c, d, g, hc, hd, (h.group hc g).2 ⟨members, hg, hr⟩, (h.group hd g).2 ⟨members, hg, ht⟩⟩

end Analysis

namespace Moved

open Analysis

variable {place : Equiv.Perm Nat} {rules rules' : Array Rule} (h : Moved place rules rules')
include h

theorem mutual_iff {i j : Nat} : Mutual rules' (place i) (place j) ↔ Mutual rules i j :=
  and_congr h.reaches_iff h.reaches_iff

theorem exists_mutual_iff {i : Nat} :
    (∃ t, t ≠ place i ∧ Mutual rules' (place i) t) ↔ ∃ t, t ≠ i ∧ Mutual rules i t := by
  rw [← place.exists_congr_right]
  simp only [place.injective.ne_iff, h.mutual_iff]

theorem namings_eq (r t : Nat) : namings rules' (place r) (place t) = namings rules r t := by
  rw [namings, h.rule, namings]
  cases rules[r]? with
  | none => rfl
  | some rule =>
    have hcount := rule.opcodes.toList.count_map_of_injective _
      (Opcode.rename_injective place.injective) (.rnm t)
    simpa [Rule.rename, Opcode.rename, ← Array.count_toList] using hcount

theorem reachedNamings_eq (i t : Nat) :
    reachedNamings rules' (place i) (place t) = reachedNamings rules i t := by
  classical
  refine (Finset.sum_equiv place (fun r => ?_) fun r _ => (h.namings_eq r t).symm).symm
  simp only [Finset.mem_filter, Finset.mem_range, h.lt_iff,
    Relation.reflTransGen_iff_eq_or_transGen, h.reaches_iff, place.injective.eq_iff]

theorem component_map {members : Finset Nat} {i : Nat}
    (hmembers : ∀ j, j ∈ members ↔ j = i ∨ Mutual rules i j) (j : Nat) :
    j ∈ members.map place.toEmbedding ↔ j = place i ∨ Mutual rules' (place i) j := by
  obtain ⟨j, rfl⟩ := place.surjective j
  rw [h.mutual_iff, place.injective.eq_iff, ← hmembers]
  exact Finset.mem_map' place.toEmbedding

variable {analysis analysis' : Analysis}

theorem mem_components_map (hexact : Exact rules analysis) (hexact' : Exact rules' analysis')
    {members : Finset Nat} (hmembers : members ∈ analysis.groups.toList.map List.toFinset) :
    members.map place.toEmbedding ∈ analysis'.groups.toList.map List.toFinset := by
  obtain ⟨htwo, i, hi, hmembers⟩ := hexact.mem_components.1 hmembers
  refine hexact'.mem_components.2 ⟨?_, place i, h.lt_iff.2 hi, h.component_map hmembers⟩
  rwa [Finset.card_map]

/-- The groups of the moved rules are the groups of the rules. -/
theorem groups_perm (hexact : Exact rules analysis) (hexact' : Exact rules' analysis') :
    (analysis'.groups.toList.map List.toFinset).Perm
      ((analysis.groups.toList.map List.toFinset).map (Finset.map place.toEmbedding)) := by
  rw [List.perm_ext_iff_of_nodup hexact'.nodup_components
    (hexact.nodup_components.map (Finset.map_injective _))]
  intro members'
  constructor
  · intro hmembers'
    refine List.mem_map.2 ⟨_, h.symm.mem_components_map hexact' hexact hmembers', ?_⟩
    ext j
    simp
  · intro hmembers'
    obtain ⟨members, hmembers, rfl⟩ := List.mem_map.1 hmembers'
    exact h.mem_components_map hexact hexact' hmembers

theorem together_iff (hexact : Exact rules analysis) (hexact' : Exact rules' analysis')
    (hclasses : Classifies rules analysis) (hclasses' : Classifies rules' analysis') {r t : Nat} :
    Together analysis' (place r) (place t) ↔ Together analysis r t := by
  rw [hexact'.together_iff hclasses', hexact.together_iff hclasses]
  constructor
  · rintro ⟨members', hmembers', hr, ht⟩
    refine ⟨_, h.symm.mem_components_map hexact' hexact hmembers', ?_, ?_⟩
    · simpa using hr
    · simpa using ht
  · rintro ⟨members, hmembers, hr, ht⟩
    refine ⟨_, h.mem_components_map hexact hexact' hmembers, ?_, ?_⟩
    · simpa using hr
    · simpa using ht

theorem class_eq (hordered : Ordered rules) (hexact : Exact rules analysis)
    (hexact' : Exact rules' analysis') (hclasses : Classifies rules analysis)
    (hclasses' : Classifies rules' analysis') {r : Nat} {c : RuleClass}
    (hc : analysis.classes[r]? = some c) :
    ∃ c', analysis'.classes[place r]? = some c' ∧ c'.kind = c.kind ∧
      ∀ t : Nat, c'.counts[place t]? = c.counts[t]? := by
  have hr : place r < analysis'.classes.size := by
    rw [hexact'.size, h.lt_iff, ← hexact.size]
    exact (Array.getElem?_eq_some_iff.1 hc).1
  have hc' := Array.getElem?_eq_getElem hr
  refine ⟨_, hc', Kind.eq_of_iff ?_ ?_ fun hkind' hkind => ?_, fun t => ?_⟩
  · rw [hclasses'.circle hc', hclasses.circle hc]
    exact h.exists_mutual_iff
  · rw [hclasses'.recursive hc', hclasses.recursive hc, h.reaches_iff]
  · rw [hexact'.refersToGroup_iff hclasses' (h.ordered hordered).inRange hc' hkind',
      hexact.refersToGroup_iff hclasses hordered.inRange hc hkind, ← place.exists_congr_right]
    simp only [h.reaches_iff, h.exists_mutual_iff]
  · rw [hexact'.counts hc', hexact.counts hc, h.reachedNamings_eq]
    simp only [h.lt_iff]

end Moved

/-! ## Attributes -/

/-- Attributes are what they say of phrases and of recursion. -/
theorem Attributes.eq_of_has {a b : Attributes} (hrest : a.withPhrases {} = b.withPhrases {})
    (hphrases : ∀ aspect, a.has aspect = b.has aspect) : a = b := by
  have hfinite := hphrases .finite
  have hempty := hphrases .empty
  have hnotEmpty := hphrases .notEmpty
  cases a
  cases b
  simp_all [withPhrases, has]

theorem Phrases.attributes_eq {place : Equiv.Perm Nat} {found found' : Analysis}
    (hrest : ∀ r : Nat, found'.attributes[place r]?.map (·.withPhrases {}) =
      found.attributes[r]?.map (·.withPhrases {}))
    (hsaid : ∀ aspect, said found' aspect = place '' said found aspect) (r : Nat) :
    found'.attributes[place r]? = found.attributes[r]? := by
  have hrest := hrest r
  cases ha : found.attributes[r]? with
  | none => simpa [ha] using hrest
  | some a =>
    rw [ha, Option.map_some] at hrest
    obtain ⟨a', ha', hrest⟩ := Option.map_eq_some_iff.1 hrest
    rw [ha', Attributes.eq_of_has hrest fun aspect => ?_]
    have hmem : place r ∈ said found' aspect ↔ r ∈ said found aspect := by
      rw [hsaid, place.injective.mem_set_image]
    simpa [said, ha, ha'] using hmem

namespace Analysis

/-- What classification and the passes find of a table, one after the other. -/
structure Stages (rules : Array Rule) (classified found analysis : Analysis) : Prop where
  analyze : analyze rules = .ok analysis
  classifies : Classifies rules classified
  exact : Exact rules classified
  recursion : Recursion.propagate rules found = .ok analysis
  found_classes : found.classes = classified.classes
  found_size : found.attributes.size = rules.size
  classes : analysis.classes = classified.classes
  groups : analysis.groups = classified.groups
  size : analysis.attributes.size = rules.size
  kept : ∀ r : Nat, found.attributes[r]?.map (·.withPhrases {}) =
    classified.classes[r]?.map fun c => (initialAttributes c.kind).withPhrases {}
  finite : IsLeast (Phrases.Solutions .finite rules) (Phrases.said found .finite)
  notEmpty : IsLeast (Phrases.Solutions .notEmpty rules) (Phrases.said found .notEmpty)
  empty : IsGreatest (Phrases.Solutions .empty rules) (Phrases.said found .empty)

theorem exists_stages {rules : Array Rule} (h : Ordered rules) :
    ∃ classified found analysis, Stages rules classified found analysis := by
  obtain ⟨classified, found, hclassify, hclasses, hphrases, hsame, hfound, hkept, hfinite,
    hnotEmpty, hempty⟩ := Phrases.propagate_solutions h
  obtain ⟨_, hclassify', hexact⟩ := exists_exact_classify h.inRange
  cases hclassify.symm.trans hclassify'
  obtain ⟨analysis, hanalyze, hsize, -⟩ := analyze_exact h
  obtain ⟨_, hclassify', hclasses', hgroups⟩ := classes_of_analyze hanalyze
  cases hclassify.symm.trans hclassify'
  refine ⟨classified, found, analysis, hanalyze, hclasses, hexact, ?_, hsame, hfound, hclasses',
    hgroups, hsize, fun r => ?_, hfinite, hnotEmpty, hempty⟩
  · simpa only [analyze, hclassify, hphrases, bind, Except.bind] using hanalyze
  · rw [hkept, hclasses.attributes, Array.getElem?_map, Option.map_map]
    rfl

end Analysis

namespace Moved

open Analysis

variable {place : Equiv.Perm Nat} {rules rules' : Array Rule} (h : Moved place rules rules')
  (hordered : Ordered rules) {classified found analysis classified' found' analysis' : Analysis}
  (hstages : Stages rules classified found analysis)
  (hstages' : Stages rules' classified' found' analysis')
include h hordered hstages hstages'

theorem map_classes {α : Type} {f f' : RuleClass → α}
    (hf : ∀ c c', c'.kind = c.kind → (∀ t : Nat, c'.counts[place t]? = c.counts[t]?) →
      f' c' = f c) (r : Nat) :
    classified'.classes[place r]?.map f' = classified.classes[r]?.map f := by
  cases hc : classified.classes[r]? with
  | none =>
    rw [Array.getElem?_eq_none_iff, hstages.exact.size] at hc
    rw [Array.getElem?_eq_none]
    · rfl
    · rw [hstages'.exact.size]
      exact Nat.not_lt.1 (mt h.lt_iff.1 (Nat.not_lt.2 hc))
  | some c =>
    obtain ⟨c', hc', hkind, hcounts⟩ := h.class_eq hordered hstages.exact hstages'.exact
      hstages.classifies hstages'.classifies hc
    rw [hc', Option.map_some, Option.map_some, hf c c' hkind hcounts]

/-- The phrases pass finds the same of the rules at their places. -/
theorem phrases_eq (r : Nat) : found'.attributes[place r]? = found.attributes[r]? := by
  refine Phrases.attributes_eq (fun r => ?_) (fun aspect => ?_) r
  · rw [hstages'.kept, hstages.kept]
    exact h.map_classes hordered hstages hstages' (fun c c' hkind _ => by rw [hkind]) r
  · cases aspect with
    | finite => exact h.said_least hstages.finite hstages'.finite
    | notEmpty => exact h.said_least hstages.notEmpty hstages'.notEmpty
    | empty => exact h.said_greatest hstages.empty hstages'.empty

theorem attributes_eq (r : Nat) : analysis'.attributes[place r]? = analysis.attributes[r]? := by
  have hany : ∀ {f f' : RuleClass → Bool} (_ : ∀ c c' : RuleClass, c'.kind = c.kind →
      (∀ t : Nat, c'.counts[place t]? = c.counts[t]?) → f' c' = f c) (r : Nat),
      (found'.classes[place r]?.any f') = found.classes[r]?.any f := by
    intro f f' hf r
    have hmap := h.map_classes hordered hstages hstages' hf r
    rw [hstages'.found_classes, hstages.found_classes]
    cases hc : classified.classes[r]? <;> cases hc' : classified'.classes[place r]? <;> simp_all
  refine Recursion.attributes_of_moved (h.phrases_eq hordered hstages hstages') (fun r t => ?_) h
    hstages.recursion hstages'.recursion (fun r => ?_) r
  · refine hany (fun c c' _ hcounts => ?_) r
    rw [RuleClass.reaches, RuleClass.reaches, hcounts]
  · rw [Recursion.mem_recursiveRules_iff hstages'.classifies hstages'.found_classes,
      Recursion.mem_recursiveRules_iff hstages.classifies hstages.found_classes, h.reaches_iff]

/-- Analysis says the same of rules that have moved. -/
theorem agrees : Agrees place analysis analysis' := by
  have hclasses := hstages.classes
  have hclasses' := hstages'.classes
  refine ⟨fun {r c} hc => ?_, fun r t => ?_, ?_, h.attributes_eq hordered hstages hstages'⟩
  · rw [hclasses] at hc
    rw [hclasses']
    exact h.class_eq hordered hstages.exact hstages'.exact hstages.classifies hstages'.classifies hc
  · unfold Together
    rw [hclasses, hclasses']
    exact h.together_iff hstages.exact hstages'.exact hstages.classifies hstages'.classifies
  · have himage : ∀ members : List Nat, members.toFinset.map place.toEmbedding =
        (members.map place).toFinset := fun members => by
      ext j
      obtain ⟨j, rfl⟩ := place.surjective j
      simp
    have hperm := h.groups_perm hstages.exact hstages'.exact
    simpa only [hstages.groups, hstages'.groups, List.map_map, Function.comp_def, himage]
      using hperm

end Moved

/-! ## Faults -/

namespace Analysis

theorem zip_attributes {rules : Array Rule} {attributes : Array Attributes}
    (hsize : attributes.size = rules.size) : rules.toList.zip attributes.toList =
      (List.finRange rules.size).map fun r => (rules[r], attributes[r.1]?.getD {}) := by
  refine List.ext_getElem (by simp [hsize]) fun i hi _ => ?_
  have hi : i < attributes.size := by simp at hi; omega
  simp [Array.getElem?_eq_getElem hi]

/-- The faulty rules of a table in another order are the faulty rules of the table. -/
theorem faultyRules_reorder {rules : Array Rule} {order : Equiv.Perm (Fin rules.size)}
    {analysis analysis' : Analysis} (hsize : analysis.attributes.size = rules.size)
    (hsize' : analysis'.attributes.size = rules.size)
    (h : ∀ r : Nat, analysis'.attributes[newPlace order r]? = analysis.attributes[r]?) :
    (analysis'.faultyRules (reorder rules order)).Perm
      ((analysis.faultyRules rules).map (FaultyRule.rename (newPlace order))) := by
  let entry : Fin rules.size → Rule × Attributes := fun r =>
    ((rules[r]).rename (newPlace order), analysis.attributes[r.1]?.getD {})
  have hentries : (reorder rules order).toList.zip analysis'.attributes.toList =
      ((List.finRange rules.size).map order.symm).map entry := by
    have hreorder : (reorder rules order).size = rules.size := Array.size_ofFn
    refine List.ext_getElem (by simp [hreorder, hsize']) fun i hi hi' => ?_
    have hi : i < rules.size := by simpa using hi'
    have hplace : newPlace order (order.symm ⟨i, hi⟩) = i := by
      rw [newPlace_apply, order.apply_symm_apply]
    have hattributes := h (order.symm ⟨i, hi⟩)
    rw [hplace, Array.getElem?_eq_getElem (by omega)] at hattributes
    simp [entry, reorder, ← hattributes]
  have hperm := (Equiv.Perm.map_finRange_perm order.symm).map entry
  rw [← hentries] at hperm
  unfold faultyRules
  rw [zip_attributes hsize]
  refine (hperm.flatMap_right _).trans (List.Perm.of_eq ?_)
  rw [List.map_flatMap, List.flatMap_map, List.flatMap_map]
  refine List.flatMap_congr fun r _ => ?_
  simp only [entry, List.map_map]
  rfl

end Analysis

/-- Analysis does not depend on the order of the rules. For every table and every order of its rules
analysis ends for both; it gives each rule the same kind, the same attributes and the same counts,
and the same groups, up to their numbers and the order of their members. The same rules are faulty,
so the table is accepted in one order just when it is accepted in the other. -/
theorem analyze_reorder {rules : Array Rule} (h : Analysis.Ordered rules)
    (order : Equiv.Perm (Fin rules.size)) :
    ∃ analysis analysis', Analysis.analyze rules = .ok analysis ∧
      Analysis.analyze (reorder rules order) = .ok analysis' ∧
      analysis.classes.size = rules.size ∧ analysis.attributes.size = rules.size ∧
      Analysis.Agrees (newPlace order) analysis analysis' ∧
      (analysis'.faultyRules (reorder rules order)).Perm
        ((analysis.faultyRules rules).map (FaultyRule.rename (newPlace order))) ∧
      (analysis'.faultyRules (reorder rules order) = [] ↔ analysis.faultyRules rules = []) := by
  have hmoved := moved_reorder rules order
  obtain ⟨classified, found, analysis, hstages⟩ := Analysis.exists_stages h
  obtain ⟨classified', found', analysis', hstages'⟩ :=
    Analysis.exists_stages (hmoved.ordered h)
  have hagrees := hmoved.agrees h hstages hstages'
  have hfaulty := Analysis.faultyRules_reorder hstages.size (hstages'.size.trans hmoved.size)
    hagrees.attributes
  refine ⟨analysis, analysis', hstages.analyze, hstages'.analyze, ?_, hstages.size, hagrees,
    hfaulty, ?_⟩
  · rw [hstages.classes, hstages.exact.size]
  · constructor
    · intro hnone
      rw [hnone] at hfaulty
      exact List.map_eq_nil_iff.1 hfaulty.symm.eq_nil
    · intro hnone
      rw [hnone] at hfaulty
      exact hfaulty.eq_nil

/-- Two rules that recur through each other change places, with the references between them. -/
theorem analyze_reorder_hiddenCircle :
    Analysis.Ordered Analysis.hiddenCircle ∧
    reorder Analysis.hiddenCircle (Equiv.swap ⟨0, by decide⟩ ⟨1, by decide⟩) =
      #[⟨"b", 0, #[.cat [1, 3], .rep 0 none, .tls [122], .rnm 1]⟩,
        ⟨"a", 1, #[.alt [1, 4], .cat [2, 3], .rnm 0, .tls [120], .tls [121]]⟩] ∧
    ∃ analysis analysis', Analysis.analyze Analysis.hiddenCircle = .ok analysis ∧
      Analysis.analyze (reorder Analysis.hiddenCircle
        (Equiv.swap ⟨0, by decide⟩ ⟨1, by decide⟩)) = .ok analysis' ∧
      analysis'.attributes[0]? = analysis.attributes[1]? ∧
      analysis'.attributes[1]? = analysis.attributes[0]? := by
  have hordered : Analysis.Ordered Analysis.hiddenCircle := by decide
  obtain ⟨analysis, analysis', hanalyze, hanalyze', -, -, hagrees, -⟩ :=
    analyze_reorder hordered (Equiv.swap ⟨0, by decide⟩ ⟨1, by decide⟩)
  refine ⟨hordered, by decide +kernel, analysis, analysis', hanalyze, hanalyze', ?_, ?_⟩
  · exact hagrees.attributes 1
  · exact hagrees.attributes 0

end Abnf
