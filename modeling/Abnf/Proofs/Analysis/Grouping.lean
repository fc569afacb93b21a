import Mathlib.Data.List.Induction
import Abnf.Proofs.Analysis.Scan

/-!
# Looking for groups in place

Groups can be found by a loop over the rules that marks what it finds. The lowest rule that is
recursive and in no group yet takes all such rules that it is in a circle with, and a second loop
looks at which rules reach a member of a group. The loops see only what was marked before, but they
find what classification says of all rules at once: a circle is closed, so its lowest member takes
all of it, and no other member is tried again.

* `Grouping.run`: the loops.
* `Grouping.seed_upTo`: what one round of the first loop adds.
* `Grouping.classify_eq_run`: the loops find the classes and groups that classification finds.
-/

namespace Abnf.Analysis

/-! ## The loops -/

/-- What the loops keep: what is known of each rule so far, and the groups that were found. -/
structure Grouping where
  classes : Array RuleClass
  groups : Array (List Nat)

namespace Grouping

/-- Every rule with its counts; a rule that reaches itself is recursive. -/
def fresh (counts : Array (Array Nat)) : Grouping where
  classes := counts.mapIdx fun i row =>
    ⟨if 0 < row[i]?.getD 0 then .recursive else .nonRecursive, none, row⟩
  groups := #[]

/-- Whether a rule is recursive and in no group yet. -/
def isFree (classes : Array RuleClass) (i : Nat) : Bool :=
  classes[i]?.any fun c => c.kind == .recursive

/-- Whether each of two rules reaches the other. -/
def meets (classes : Array RuleClass) (i j : Nat) : Bool :=
  classes[i]?.any (·.reaches j) && classes[j]?.any (·.reaches i)

/-- Looks at rule `j` for the group of rule `i`, which itself comes in with the first rule that is
found. -/
def join (classes : Array RuleClass) (i : Nat) (members : List Nat) (j : Nat) : List Nat :=
  if i == j || !isFree classes j then
    members
  else if meets classes i j then
    (if members.isEmpty then [i] else members) ++ [j]
  else
    members

/-- Marks a rule as a member of group `g`. -/
def assign (g : Nat) (classes : Array RuleClass) (member : Nat) : Array RuleClass :=
  classes.modify member fun c => { c with kind := .inGroup, group := some g }

/-- Looks for the group of which rule `i` is the lowest member. -/
def seed (grouping : Grouping) (i : Nat) : Grouping :=
  if isFree grouping.classes i then
    let members := (List.range grouping.classes.size).foldl (join grouping.classes i) []
    if members.isEmpty then
      grouping
    else
      ⟨members.foldl (assign grouping.groups.size) grouping.classes, grouping.groups.push members⟩
  else
    grouping

/-- Whether a rule reaches one that is in a group. -/
def refersToGroup (classes : Array RuleClass) (c : RuleClass) : Bool :=
  (c.counts.zip classes).any fun (count, target) => 0 < count && target.kind == .inGroup

/-- The kind of a rule that reaches a group. -/
def referring : Kind → Kind
  | .nonRecursive => .refersToGroup
  | .recursive => .recursiveRefersToGroup
  | kind => kind

/-- A rule with its kind changed if it reaches a group. -/
def settled (classes : Array RuleClass) (c : RuleClass) : RuleClass :=
  if refersToGroup classes c then { c with kind := referring c.kind } else c

/-- Changes the kind of rule `i` if it reaches a group. -/
def settle (classes : Array RuleClass) (i : Nat) : Array RuleClass :=
  classes.modify i (settled classes)

/-- Looks for groups, and then for the rules that reach them. -/
def run (counts : Array (Array Nat)) : Grouping :=
  let found := (List.range counts.size).foldl seed (fresh counts)
  { found with classes := (List.range counts.size).foldl settle found.classes }

/-! ## Members -/

/-- A rule with the others of its group, if there are others. -/
def withSeed (i : Nat) : List Nat → List Nat
  | [] => []
  | others => i :: others

/-- Whether rule `j` is found for the group of rule `i`. -/
def isFound (classes : Array RuleClass) (i j : Nat) : Bool :=
  i != j && isFree classes j && meets classes i j

theorem join_withSeed (classes : Array RuleClass) (i j : Nat) (others : List Nat) :
    join classes i (withSeed i others) j =
      withSeed i (others ++ [j].filter (isFound classes i)) := by
  rw [join, List.filter_cons, List.filter_nil, isFound]
  by_cases hskip : (i == j || !isFree classes j) = true
  · have hnot : (i != j && isFree classes j && meets classes i j) = false := by
      simp only [Bool.or_eq_true, beq_iff_eq, Bool.not_eq_true'] at hskip
      rcases hskip with rfl | hskip <;> simp [*]
    rw [if_pos hskip, hnot, if_neg Bool.false_ne_true, List.append_nil]
  · have hsame : (i != j && isFree classes j && meets classes i j) = meets classes i j := by
      simp only [Bool.or_eq_true, beq_iff_eq, Bool.not_eq_true', not_or, Bool.not_eq_false] at hskip
      simp [hskip]
    rw [if_neg hskip, hsame]
    cases meets classes i j <;> cases others <;> simp [withSeed]

/-- The loop over all rules finds the others of the group. -/
theorem foldl_join (classes : Array RuleClass) (i : Nat) (js : List Nat) :
    js.foldl (join classes i) [] = withSeed i (js.filter (isFound classes i)) := by
  induction js using List.reverseRecOn with
  | nil => rfl
  | append_singleton js j ih =>
    rw [List.foldl_append, ih, List.foldl_cons, List.foldl_nil, join_withSeed, List.filter_append]

theorem getElem?_foldl_assign (g : Nat) (members : List Nat) (classes : Array RuleClass) (j : Nat) :
    (members.foldl (assign g) classes)[j]? =
      if j ∈ members then
        classes[j]?.map fun c => { c with kind := .inGroup, group := some g }
      else
        classes[j]? := by
  induction members generalizing classes with
  | nil => simp
  | cons member members ih =>
    rw [List.foldl_cons, ih, assign, Array.getElem?_modify]
    by_cases hmember : member = j
    · subst hmember
      by_cases hmem : member ∈ members <;> simp [hmem, Function.comp_def]
    · simp [hmember, Ne.symm hmember]

/-! ## Rounds -/

/-- The class of a rule when only the groups in `groups` have been found. -/
def joined (groups : List (List Nat)) (i : Nat) (row : Array Nat) : RuleClass where
  kind :=
    if groups.any (·.contains i) then .inGroup
    else if 0 < row[i]?.getD 0 then .recursive else .nonRecursive
  group := groups.findIdx? (·.contains i)
  counts := row

/-- The groups whose lowest members are below `k`. -/
def groupsBelow (counts : Array (Array Nat)) (k : Nat) : List (List Nat) :=
  (List.range k).filterMap (groupFrom? counts)

/-- What is known when the rules below `k` have been tried. -/
def upTo (counts : Array (Array Nat)) (k : Nat) : Grouping where
  classes := counts.mapIdx (joined (groupsBelow counts k))
  groups := (groupsBelow counts k).toArray

theorem groupsBelow_succ (counts : Array (Array Nat)) (k : Nat) :
    groupsBelow counts (k + 1) = groupsBelow counts k ++ (groupFrom? counts k).toList := by
  rw [groupsBelow, List.range_succ, List.filterMap_append, groupsBelow]
  cases h : groupFrom? counts k <;> simp [h]

theorem fresh_eq_upTo (counts : Array (Array Nat)) : fresh counts = upTo counts 0 := rfl

section

variable {counts : Array (Array Nat)} {k j : Nat}

theorem getElem?_joined (groups : List (List Nat)) (hj : j < counts.size) :
    (counts.mapIdx (joined groups))[j]? = some (joined groups j counts[j]) := by
  simp [hj]

theorem kind_joined_eq_inGroup_iff {groups : List (List Nat)} {i : Nat} {row : Array Nat} :
    (joined groups i row).kind = .inGroup ↔ ∃ members ∈ groups, i ∈ members := by
  rw [joined]
  split
  · rename_i hin
    simpa only [List.any_eq_true, List.contains_iff_mem, true_iff] using hin
  · rename_i hnot
    have hnone : ¬ ∃ members ∈ groups, i ∈ members := by
      simpa only [List.any_eq_true, List.contains_iff_mem] using hnot
    split <;> simp only [reduceCtorEq, false_iff] <;> exact hnone

theorem isFree_joined_iff {groups : List (List Nat)} (hj : j < counts.size) :
    isFree (counts.mapIdx (joined groups)) j = true ↔
      (∀ members ∈ groups, j ∉ members) ∧ 0 < counts[j][j]?.getD 0 := by
  rw [isFree, getElem?_joined groups hj, Option.any_some, beq_iff_eq, joined]
  by_cases hin : groups.any (·.contains j) = true
  · rw [if_pos hin]
    obtain ⟨members, hmembers, hmem⟩ := List.any_eq_true.1 hin
    simp only [reduceCtorEq, false_iff, not_and]
    exact fun hnone => absurd (List.contains_iff_mem.1 hmem) (hnone members hmembers)
  · rw [if_neg hin]
    have hnone : ∀ members ∈ groups, j ∉ members := by simpa using hin
    by_cases hrow : 0 < counts[j][j]?.getD 0
    · simpa [hrow] using hnone
    · simp [hrow]

theorem meets_joined {groups : List (List Nat)} (hk : k < counts.size) (hj : j < counts.size) :
    meets (counts.mapIdx (joined groups)) k j = inCircle counts k j := by
  rw [meets, getElem?_joined groups hk, getElem?_joined groups hj]
  simp only [inCircle, Array.getElem?_eq_getElem hk, Array.getElem?_eq_getElem hj]
  rfl

theorem mem_groupsBelow_iff {members : List Nat} : members ∈ groupsBelow counts k ↔
    ∃ i < k, members = circleOf counts i ∧ members.head? = some i ∧ 2 ≤ members.length := by
  simp only [groupsBelow, List.mem_filterMap, List.mem_range, groupFrom?_eq_some_iff]

variable {R : Nat → Nat → Prop}
  (hcircle : ∀ i < counts.size, ∀ j < counts.size,
    (inCircle counts i j = true ↔ Relation.TransGen R i j ∧ Relation.TransGen R j i))
  (hself : ∀ i (hi : i < counts.size),
    (0 < counts[i][i]?.getD 0 ↔ Relation.TransGen R i i))
include hcircle

theorem self_mem_circleOf (hk : k < counts.size) : k ∈ circleOf counts k :=
  (mem_circleOf_iff hcircle hk).2 ⟨hk, Or.inl rfl⟩

/-- A rule that is in no group with a lower member is the lowest one of its circle. -/
theorem head?_circleOf (hk : k < counts.size)
    (hnone : ∀ members ∈ groupsBelow counts k, k ∉ members) :
    (circleOf counts k).head? = some k := by
  have hmem := self_mem_circleOf hcircle hk
  obtain ⟨i, rest, hlist⟩ := List.exists_cons_of_ne_nil (List.ne_nil_of_mem hmem)
  rw [hlist, List.head?_cons, Option.some_inj]
  by_contra hne
  have hi : i ∈ circleOf counts k := by simp [hlist]
  have hsorted : (circleOf counts k).Pairwise (· < ·) := List.pairwise_lt_range.filter _
  rw [hlist] at hmem hsorted
  have hrest : k ∈ rest := (List.mem_cons.1 hmem).resolve_left (Ne.symm hne)
  have hlt : i < k := List.rel_of_pairwise_cons hsorted hrest
  refine hnone (circleOf counts k) (mem_groupsBelow_iff.2 ⟨i, hlt, ?_, by simp [hlist], ?_⟩)
    (self_mem_circleOf hcircle hk)
  · exact (circleOf_eq hcircle hk hi).symm
  · have hpos := List.length_pos_of_mem hrest
    rw [hlist, List.length_cons]
    omega

/-- A rule that is not recursive is in a circle with no other, and a rule that is in a group with a
lower member is not the lowest one. -/
theorem groupFrom?_eq_none (hself : ∀ i (hi : i < counts.size),
      (0 < counts[i][i]?.getD 0 ↔ Relation.TransGen R i i)) (hk : k < counts.size)
    (h : isFree (upTo counts k).classes k = false) : groupFrom? counts k = none := by
  rw [Option.eq_none_iff_forall_ne_some]
  intro members hsome
  obtain ⟨rfl, hhead, htwo⟩ := groupFrom?_eq_some_iff.1 hsome
  refine Bool.eq_false_iff.1 h ((isFree_joined_iff hk).2 ⟨fun members hmembers hmem => ?_, ?_⟩)
  · obtain ⟨i, hi, rfl, hhead', -⟩ := mem_groupsBelow_iff.1 hmembers
    rw [circleOf_eq hcircle (by omega) hmem, hhead', Option.some_inj] at hhead
    omega
  · have hnodup : (circleOf counts k).Nodup := List.nodup_range.filter _
    obtain ⟨j, hj, hne⟩ := ((hnodup.ne_singleton_iff k).1 fun heq => by simp [heq] at htwo)
      |>.resolve_left (List.ne_nil_of_mem (self_mem_circleOf hcircle hk))
    obtain ⟨hkj, hjk⟩ := ((mem_circleOf_iff hcircle hk).1 hj).2.resolve_left hne
    exact (hself k hk).2 (hkj.trans hjk)

/-- No rule is in two groups: a group with a lower member would have rule `k` too. -/
theorem not_mem_groupsBelow (hk : k < counts.size)
    (hnone : ∀ members ∈ groupsBelow counts k, k ∉ members) (hj : j ∈ circleOf counts k) :
    ∀ members ∈ groupsBelow counts k, j ∉ members := by
  intro members hmembers hmem
  obtain ⟨i, hi, rfl, -⟩ := mem_groupsBelow_iff.1 hmembers
  refine hnone _ hmembers ?_
  rw [← circleOf_eq hcircle (by omega) hmem, circleOf_eq hcircle hk hj]
  exact self_mem_circleOf hcircle hk

include hself

/-- The others that are found for a free rule are the rest of its circle. -/
theorem circleOf_eq_cons (hk : k < counts.size)
    (hnone : ∀ members ∈ groupsBelow counts k, k ∉ members) :
    circleOf counts k =
      k :: (List.range counts.size).filter (isFound (upTo counts k).classes k) := by
  obtain ⟨others, hlist⟩ := List.head?_eq_some_iff.1 (head?_circleOf hcircle hk hnone)
  have hnodup : (circleOf counts k).Nodup := List.nodup_range.filter _
  have hothers : others = (circleOf counts k).filter (k != ·) := by
    rw [hlist, List.nodup_cons] at hnodup
    rw [hlist, List.filter_cons_of_neg (by simp), List.filter_eq_self.2 fun j hj => ?_]
    simpa using fun heq : k = j => hnodup.1 (heq ▸ hj)
  rw [hlist, hothers, circleOf, List.filter_filter]
  refine congrArg (k :: ·) (List.filter_congr fun j hj => ?_)
  have hj := List.mem_range.1 hj
  rw [isFound, show (upTo counts k).classes = counts.mapIdx (joined (groupsBelow counts k)) from rfl,
    meets_joined hk hj]
  by_cases hne : k = j
  · simp [hne]
  by_cases hin : inCircle counts k j = true
  · obtain ⟨hkj, hjk⟩ := (hcircle k hk j hj).1 hin
    have hmem : j ∈ circleOf counts k := (mem_circleOf_iff hcircle hk).2 ⟨hj, Or.inr ⟨hkj, hjk⟩⟩
    have hfree : isFree (counts.mapIdx (joined (groupsBelow counts k))) j = true :=
      (isFree_joined_iff hj).2
        ⟨not_mem_groupsBelow hcircle hk hnone hmem, (hself j hj).2 (hjk.trans hkj)⟩
    simp [hin, hfree]
  · simp [hin, Ne.symm hne]

omit hcircle hself in
/-- One group more changes the classes of its members only. -/
theorem joined_append (groups : List (List Nat)) (members : List Nat) (row : Array Nat)
    (h : j ∈ members → ∀ others ∈ groups, j ∉ others) :
    joined (groups ++ [members]) j row =
      if j ∈ members then
        { joined groups j row with kind := .inGroup, group := some groups.length }
      else
        joined groups j row := by
  by_cases hmem : j ∈ members
  · have hnone : groups.findIdx? (fun members => decide (j ∈ members)) = none := by
      simpa [List.findIdx?_eq_none_iff] using h hmem
    simp [joined, hmem, List.findIdx?_append, hnone]
  · simp [joined, hmem, List.findIdx?_append]

/-- A round of the first loop finds the group of which rule `k` is the lowest member. -/
theorem seed_upTo (hk : k < counts.size) : seed (upTo counts k) k = upTo counts (k + 1) := by
  have hsize : (upTo counts k).classes.size = counts.size := Array.size_mapIdx
  cases hfree : isFree (upTo counts k).classes k with
  | false =>
    have hsame := groupsBelow_succ counts k
    rw [groupFrom?_eq_none hcircle hself hk hfree, Option.toList_none, List.append_nil] at hsame
    rw [seed, hfree, if_neg Bool.false_ne_true, upTo, upTo, hsame]
  | true =>
    have hnone := ((isFree_joined_iff hk).1 hfree).1
    have hlist := circleOf_eq_cons hcircle hself hk hnone
    have hdisjoint := fun j => not_mem_groupsBelow (j := j) hcircle hk hnone
    simp only [seed, hfree, if_true, foldl_join, hsize]
    generalize (List.range counts.size).filter _ = others at hlist
    cases others with
    | nil =>
      have hsame := groupsBelow_succ counts k
      have hgroup : groupFrom? counts k = none := by
        rw [Option.eq_none_iff_forall_ne_some]
        intro members hsome
        obtain ⟨rfl, -, htwo⟩ := groupFrom?_eq_some_iff.1 hsome
        simp [hlist] at htwo
      rw [hgroup, Option.toList_none, List.append_nil] at hsame
      simp only [withSeed, List.isEmpty_nil, if_true]
      rw [upTo, upTo, hsame]
    | cons j others =>
      have hgroup : groupFrom? counts k = some (k :: j :: others) :=
        groupFrom?_eq_some_iff.2 ⟨hlist.symm, rfl, by simp⟩
      have hnext := groupsBelow_succ counts k
      rw [hgroup, Option.toList_some] at hnext
      simp only [withSeed, List.isEmpty_cons, Bool.false_eq_true, if_false]
      rw [upTo, upTo, hnext, List.push_toArray]
      refine congrArg (Grouping.mk · _) (Array.ext_getElem? fun i => ?_)
      rw [getElem?_foldl_assign, Array.getElem?_mapIdx, Array.getElem?_mapIdx, List.size_toArray]
      cases counts[i]? with
      | none => simp
      | some row =>
        rw [Option.map_some, Option.map_some, Option.map_some,
          joined_append _ _ _ fun hi => hdisjoint i (hlist ▸ hi)]
        split <;> rfl

/-- The first loop finds the groups. -/
theorem foldl_seed (hk : k ≤ counts.size) :
    (List.range k).foldl seed (fresh counts) = upTo counts k := by
  induction k with
  | zero => exact fresh_eq_upTo counts
  | succ k ih =>
    rw [List.range_succ, List.foldl_append, ih (by omega), List.foldl_cons, List.foldl_nil,
      seed_upTo hcircle hself (by omega)]

end

/-! ## Rules that reach groups -/

theorem refersToGroup_iff {classes : Array RuleClass} {c : RuleClass} :
    refersToGroup classes c = true ↔
      ∃ t : Nat, c.reaches t = true ∧ ∃ target, classes[t]? = some target ∧
        target.kind = .inGroup := by
  simp only [refersToGroup, RuleClass.reaches, Array.any_eq_true, Array.getElem_zip,
    Bool.and_eq_true, decide_eq_true_eq, beq_iff_eq]
  constructor
  · rintro ⟨t, ht, hcount, hkind⟩
    rw [Array.size_zip] at ht
    have hrow : t < c.counts.size := by omega
    have htarget : t < classes.size := by omega
    exact ⟨t, by simpa [hrow] using hcount, _, Array.getElem?_eq_getElem htarget, hkind⟩
  · rintro ⟨t, hcount, target, htarget, hkind⟩
    obtain ⟨hlt, rfl⟩ := Array.getElem?_eq_some_iff.1 htarget
    have hrow : t < c.counts.size := by
      by_contra hnot
      simp [hnot] at hcount
    refine ⟨t, by rw [Array.size_zip]; omega, by simpa [hrow] using hcount, hkind⟩

theorem kind_settled_eq_inGroup_iff (classes : Array RuleClass) (c : RuleClass) :
    (settled classes c).kind = .inGroup ↔ c.kind = .inGroup := by
  rw [settled]
  split
  · cases hkind : c.kind <;> simp [referring]
  · rfl

/-- The second loop changes no rule that later rounds look at. -/
theorem foldl_settle (classes : Array RuleClass) (k : Nat) :
    (List.range k).foldl settle classes =
      classes.mapIdx fun i c => if i < k then settled classes c else c := by
  induction k with
  | zero => exact Array.ext_getElem? fun i => by simp
  | succ k ih =>
    rw [List.range_succ, List.foldl_append, ih, List.foldl_cons, List.foldl_nil, settle]
    have hsame : ∀ c, settled (classes.mapIdx fun i c => if i < k then settled classes c else c) c =
        settled classes c := by
      intro c
      have hrefers : refersToGroup
          (classes.mapIdx fun i c => if i < k then settled classes c else c) c =
          refersToGroup classes c := by
        rw [Bool.eq_iff_iff, refersToGroup_iff, refersToGroup_iff]
        refine exists_congr fun t => and_congr_right fun _ => ?_
        rw [Array.getElem?_mapIdx]
        cases classes[t]? with
        | none => simp
        | some target =>
          simp only [Option.map_some, Option.some_inj, exists_eq_left']
          split
          · exact kind_settled_eq_inGroup_iff classes target
          · rfl
      rw [settled, settled, hrefers]
    refine Array.ext_getElem? fun i => ?_
    rw [Array.getElem?_modify, Array.getElem?_mapIdx, Array.getElem?_mapIdx]
    cases classes[i]? with
    | none => simp
    | some c =>
      by_cases hi : k = i
      · subst hi
        simp [hsame]
      · have hiff : i < k + 1 ↔ i < k := by omega
        simp [hi, hiff]

/-- A rule ends with the class that it has by the groups that were found. -/
theorem settled_joined {counts : Array (Array Nat)} {groups : List (List Nat)}
    (hlt : ∀ members ∈ groups, ∀ t ∈ members, t < counts.size) (i : Nat) (row : Array Nat) :
    settled (counts.mapIdx (joined groups)) (joined groups i row) = classOf groups i row := by
  have hrefers : refersToGroup (counts.mapIdx (joined groups)) (joined groups i row) =
      groups.any (·.any fun t => decide (0 < row[t]?.getD 0)) := by
    rw [Bool.eq_iff_iff, refersToGroup_iff]
    simp only [List.any_eq_true, decide_eq_true_eq]
    constructor
    · rintro ⟨t, hreaches, target, htarget, hin⟩
      rw [Array.getElem?_mapIdx] at htarget
      obtain ⟨row', -, rfl⟩ := Option.map_eq_some_iff.1 htarget
      obtain ⟨members, hmembers, hmem⟩ := kind_joined_eq_inGroup_iff.1 hin
      exact ⟨members, hmembers, t, hmem, by simpa [RuleClass.reaches, joined] using hreaches⟩
    · rintro ⟨members, hmembers, t, hmem, hreaches⟩
      refine ⟨t, by simpa [RuleClass.reaches, joined] using hreaches, _,
        getElem?_joined groups (hlt members hmembers t hmem), ?_⟩
      exact kind_joined_eq_inGroup_iff.2 ⟨members, hmembers, hmem⟩
  rw [settled, hrefers]
  simp only [joined, classOf]
  generalize groups.any (·.contains i) = isIn
  generalize groups.any (·.any fun t => decide (0 < row[t]?.getD 0)) = refers
  by_cases hrow : 0 < row[i]?.getD 0 <;> cases isIn <;> cases refers <;> simp [hrow, referring]

/-! ## Classification -/

/-- The loops find the groups in order of their lowest members, and the classes by these groups. -/
theorem run_eq {counts : Array (Array Nat)} {R : Nat → Nat → Prop}
    (hcircle : ∀ i < counts.size, ∀ j < counts.size,
      (inCircle counts i j = true ↔ Relation.TransGen R i j ∧ Relation.TransGen R j i))
    (hself : ∀ i (hi : i < counts.size),
      (0 < counts[i][i]?.getD 0 ↔ Relation.TransGen R i i)) :
    run counts = ⟨counts.mapIdx (classOf (findGroups counts)), (findGroups counts).toArray⟩ := by
  have hsize : (upTo counts counts.size).classes.size = counts.size := Array.size_mapIdx
  simp only [run, foldl_seed hcircle hself (Nat.le_refl _), foldl_settle]
  refine congrArg (Grouping.mk · _) (Array.ext_getElem? fun i => ?_)
  simp only [upTo, Array.getElem?_mapIdx]
  by_cases hi : i < counts.size
  · simp only [Array.getElem?_eq_getElem hi, Option.map_some, hi, if_true]
    exact congrArg some (settled_joined (fun members h t ht => mem_findGroups h ht) i _)
  · simp [hi]

/-- Classification finds what is found in place: each rule is scanned for its counts, and the loops
find the groups and the kinds of the rules. -/
theorem classify_eq_run {rules : Array Rule} (h : Ordered rules) :
    ∃ counts : Array (Array Nat), counts.size = rules.size ∧
      (∀ (r : Nat) row, counts[r]? = some row →
        ∃ scanned, Scan.Scans rules (.rule r) (.fresh rules.size) ⟨scanned, row⟩) ∧
      classify rules = .ok ⟨(run counts).classes,
        (run counts).classes.map fun c => initialAttributes c.kind, (run counts).groups⟩ := by
  have hreaches := counts_pos_iff_reaches h.inRange
  refine ⟨rowsOf rules, size_rowsOf rules, fun r row hrow => ?_, ?_⟩
  · have hr : r < rules.size := size_rowsOf rules ▸ (Array.getElem?_eq_some_iff.1 hrow).1
    rw [rowsOf_eq hr] at hrow
    cases hrow
    obtain ⟨after, hscans, -⟩ := Scan.existsUnique_scans h
      (.rule r, .fresh rules.size) (by simp [Scan.Ready, Scan.Marks.fresh, hr])
    exact ⟨after.scanned, by rw [← hscans.counts_eq hr]; exact hscans⟩
  · have hself : ∀ i (hi : i < (rowsOf rules).size),
        (0 < (rowsOf rules)[i][i]?.getD 0 ↔ Relation.TransGen (RefersTo rules) i i) := by
      intro i hi
      rw [← hreaches i i]
      simp [rowsOf]
    rw [classify_eq_ok h.inRange, run_eq (inCircle_rowsOf_iff h.inRange) hself]

end Grouping

end Abnf.Analysis
