import Mathlib.Data.Prod.Lex
import Abnf.Proofs.Analysis.Equations
import Abnf.Proofs.Analysis.Groups

/-!
# Scanning for references

To count what a rule reaches, its opcodes are scanned: every rule that they name is counted, and one
that has not been scanned is scanned before the loop goes on. Only the marks keep the scan from
going round in a circle, so it is given here as it runs, with marks that are passed on and no bound
on its depth.

* `Scan.descends`: whatever circles the references form, every call has fewer rules left to scan, or
  as many and fewer opcodes left to look at. A scan ends, and in one way only.
* `Scan.Scans.counts_eq`: a scan counts what classification counts, which collects the rules first.
-/

namespace Abnf

/-! ## Flags -/

theorem count_false_set_le (flags : Array Bool) (r : Nat) :
    (flags.setIfInBounds r true).count false ≤ flags.count false := by
  by_cases hr : r < flags.size
  · rw [Array.setIfInBounds, dif_pos hr, Array.count_set]
    simp
  · rw [Array.setIfInBounds, dif_neg hr]

/-- One flag less is down when a flag is put up. -/
theorem count_false_set_lt {flags : Array Bool} {r : Nat} (h : flags[r]? = some false) :
    (flags.setIfInBounds r true).count false < flags.count false := by
  obtain ⟨hr, hdown⟩ := Array.getElem?_eq_some_iff.1 h
  have hpos : 0 < flags.count false := Array.count_pos_iff.2 (Array.mem_of_getElem? h)
  rw [Array.setIfInBounds, dif_pos hr, Array.count_set, hdown]
  simpa using Nat.sub_lt hpos Nat.one_pos

/-! ## Opcodes of a table -/

theorem Opcode.target?_eq_some {op : Opcode} {t : Nat} : op.target? = some t ↔ op = .rnm t := by
  cases op <;> simp [target?]

namespace Analysis

/-- How many opcodes a rule has from a position on. -/
def remaining (rules : Array Rule) (r op : Nat) : Nat :=
  rules[r]?.elim 0 fun rule => rule.opcodes.size - op

variable {rules : Array Rule} {r op : Nat} {found : Opcode}

theorem remaining_lt (h : opcodeAt? rules r op = some found) {op' : Nat} (hop : op < op') :
    remaining rules r op' < remaining rules r op := by
  obtain ⟨rule, hrule, hget⟩ := opcodeAt?_eq_some.1 h
  have hlt : op < rule.opcodes.size := (Array.getElem?_eq_some_iff.1 hget).1
  simp only [remaining, hrule, Option.elim_some]
  omega

theorem remaining_pos (h : opcodeAt? rules r op = some found) : 0 < remaining rules r op :=
  Nat.zero_lt_of_lt (remaining_lt h (Nat.lt_succ_self op))

theorem Ordered.target_lt (h : Ordered rules) {t : Nat}
    (hop : opcodeAt? rules r op = some (.rnm t)) : t < rules.size := by
  obtain ⟨rule, hrule, hget⟩ := opcodeAt?_eq_some.1 hop
  exact h.inRange rule (Array.mem_of_getElem? hrule) t (Array.mem_of_getElem? hget)

theorem exists_opcodeAt {rule : Rule} (hrule : rules[r]? = some rule)
    (hop : op < rule.opcodes.size) : ∃ found, opcodeAt? rules r op = some found :=
  ⟨_, opcodeAt?_eq_some.2 ⟨rule, hrule, Array.getElem?_eq_getElem hop⟩⟩

theorem Ordered.exists_root (h : Ordered rules) (hr : r < rules.size) :
    ∃ found, opcodeAt? rules r 0 = some found :=
  exists_opcodeAt (Array.getElem?_eq_getElem hr) (h.opcodes _ (Array.getElem_mem hr)).nonempty

theorem Ordered.child (h : Ordered rules) (hop : opcodeAt? rules r op = some found) {c : Nat}
    (hc : c ∈ found.children) : op < c ∧ ∃ child, opcodeAt? rules r c = some child := by
  obtain ⟨rule, hrule, hget⟩ := opcodeAt?_eq_some.1 hop
  obtain ⟨hlt, hsize⟩ := (h.opcodes rule (Array.mem_of_getElem? hrule)).forward hget hc
  exact ⟨hlt, exists_opcodeAt hrule hsize⟩

theorem Ordered.operand (h : Ordered rules) (hop : opcodeAt? rules r op = some found)
    (hgoverns : found.governsNext = true) :
    ∃ operand, opcodeAt? rules r (op + 1) = some operand := by
  obtain ⟨rule, hrule, hget⟩ := opcodeAt?_eq_some.1 hop
  have hrules := h.opcodes rule (Array.mem_of_getElem? hrule)
  exact exists_opcodeAt hrule (hrules.governed hget hgoverns)

end Analysis

/-- Less in the first place, or no more there and less in the second. -/
theorem toLex_lt_of_le {a b c d : Nat} (h : a ≤ b) (h' : c < d) : toLex (a, c) < toLex (b, d) := by
  rw [Prod.Lex.toLex_lt_toLex]
  rcases h.lt_or_eq with h | h
  · exact Or.inl h
  · exact Or.inr ⟨h, h'⟩

namespace Scan

open Analysis References

/-! ## Scans -/

/-- What a scan writes: which rules it has come to, and how often each rule was named. -/
structure Marks where
  scanned : Array Bool
  counts : Array Nat

namespace Marks

/-- The marks before a scan. -/
def fresh (size : Nat) : Marks :=
  ⟨Array.replicate size false, Array.replicate size 0⟩

/-- Notes that the scan has come to a rule. -/
def mark (marks : Marks) (r : Nat) : Marks :=
  { marks with scanned := marks.scanned.setIfInBounds r true }

/-- Notes that a rule was named. -/
def count (marks : Marks) (t : Nat) : Marks :=
  { marks with counts := marks.counts.modify t (· + 1) }

@[simp] theorem scanned_count (marks : Marks) (t : Nat) : (marks.count t).scanned = marks.scanned :=
  rfl

@[simp] theorem counts_mark (marks : Marks) (r : Nat) : (marks.mark r).counts = marks.counts :=
  rfl

theorem getElem?_counts_count (marks : Marks) (t u : Nat) :
    (marks.count t).counts[u]? = marks.counts[u]?.map (· + [t].count u) := by
  rw [count, Array.getElem?_modify, List.count_singleton]
  by_cases h : t = u <;> simp [h]

theorem getElem?_scanned_mark {marks : Marks} {t : Nat} (h : marks.scanned[t]? = some false)
    (r : Nat) :
    (marks.mark t).scanned[r]? = some true ↔ marks.scanned[r]? = some true ∨ r = t := by
  have ht : t < marks.scanned.size := (Array.getElem?_eq_some_iff.1 h).1
  simp only [mark, Array.getElem?_setIfInBounds, ht, if_true]
  split
  · simp [*]
  · rename_i hne
    simp [Ne.symm hne]

end Marks

/-- What a scan is at: a call for a rule, or the loop over the opcodes of a rule. -/
inductive Task where
  | rule (r : Nat)
  | rest (r op : Nat)

/-- A scan that ends, with the marks before it and after it. -/
inductive Scans (rules : Array Rule) : Task → Marks → Marks → Prop
  | rule {r : Nat} {before after : Marks} : r < rules.size →
    Scans rules (.rest r 0) (before.mark r) after → Scans rules (.rule r) before after
  | done {r op : Nat} {marks : Marks} : opcodeAt? rules r op = none →
    Scans rules (.rest r op) marks marks
  | skip {r op : Nat} {found : Opcode} {before after : Marks} :
    opcodeAt? rules r op = some found → found.target? = none →
    Scans rules (.rest r (op + 1)) before after → Scans rules (.rest r op) before after
  | known {r op t : Nat} {before after : Marks} : opcodeAt? rules r op = some (.rnm t) →
    before.scanned[t]? = some true →
    Scans rules (.rest r (op + 1)) (before.count t) after → Scans rules (.rest r op) before after
  | enter {r op t : Nat} {before inner after : Marks} : opcodeAt? rules r op = some (.rnm t) →
    before.scanned[t]? = some false → Scans rules (.rule t) (before.count t) inner →
    Scans rules (.rest r (op + 1)) inner after → Scans rules (.rest r op) before after

/-- What a scan calls, and where its loop goes on, with the marks at that point. -/
inductive Calls (rules : Array Rule) : Task × Marks → Task × Marks → Prop
  | body {r : Nat} {marks : Marks} : r < rules.size →
    Calls rules (.rule r, marks) (.rest r 0, marks.mark r)
  | skip {r op : Nat} {found : Opcode} {marks : Marks} : opcodeAt? rules r op = some found →
    found.target? = none → Calls rules (.rest r op, marks) (.rest r (op + 1), marks)
  | known {r op t : Nat} {marks : Marks} : opcodeAt? rules r op = some (.rnm t) →
    marks.scanned[t]? = some true →
    Calls rules (.rest r op, marks) (.rest r (op + 1), marks.count t)
  | enter {r op t : Nat} {marks : Marks} : opcodeAt? rules r op = some (.rnm t) →
    marks.scanned[t]? = some false → Calls rules (.rest r op, marks) (.rule t, marks.count t)
  | next {r op t : Nat} {marks inner : Marks} : opcodeAt? rules r op = some (.rnm t) →
    marks.scanned[t]? = some false → Scans rules (.rule t) (marks.count t) inner →
    Calls rules (.rest r op, marks) (.rest r (op + 1), inner)

/-- What is asked of a scan: there is a mark for every rule, and a rule is scanned only if it is not
marked yet. -/
def Ready (rules : Array Rule) : Task × Marks → Prop
  | (.rule r, marks) => marks.scanned.size = rules.size ∧ marks.scanned[r]? = some false
  | (.rest _ _, marks) => marks.scanned.size = rules.size

/-- How much is left to do: the rules that are not scanned, and the opcodes that the loop has before
it. -/
def measure (rules : Array Rule) : Task × Marks → ℕ ×ₗ ℕ
  | (.rule _, marks) => toLex (marks.scanned.count false, 0)
  | (.rest r op, marks) => toLex (marks.scanned.count false, remaining rules r op)

variable {rules : Array Rule}

/-- A scan only ever puts marks. -/
theorem Scans.marks {task : Task} {before after : Marks} (h : Scans rules task before after) :
    after.scanned.size = before.scanned.size ∧
      after.scanned.count false ≤ before.scanned.count false := by
  induction h with
  | rule _ _ ih =>
    exact ⟨ih.1.trans Array.size_setIfInBounds, ih.2.trans (count_false_set_le _ _)⟩
  | done => exact ⟨rfl, le_rfl⟩
  | skip _ _ _ ih | known _ _ _ ih => exact ih
  | enter _ _ _ _ ihrule ihrest => exact ⟨ihrest.1.trans ihrule.1, ihrest.2.trans ihrule.2⟩

theorem Calls.ready {caller callee : Task × Marks} (h : Calls rules caller callee)
    (hready : Ready rules caller) : Ready rules callee := by
  cases h with
  | body => exact Array.size_setIfInBounds.trans hready.1
  | skip | known => exact hready
  | enter _ hfalse => exact ⟨hready, hfalse⟩
  | next _ _ hscans => exact hscans.marks.1.trans hready

/-- Every call has less left to do. -/
theorem Calls.measure_lt {caller callee : Task × Marks} (h : Calls rules caller callee)
    (hready : Ready rules caller) : measure rules callee < measure rules caller := by
  cases h with
  | body => exact Prod.Lex.toLex_lt_toLex.2 (Or.inl (count_false_set_lt hready.2))
  | skip hop | known hop => exact toLex_lt_of_le le_rfl (remaining_lt hop (Nat.lt_succ_self _))
  | enter hop => exact toLex_lt_of_le le_rfl (remaining_pos hop)
  | next hop _ hscans => exact toLex_lt_of_le hscans.marks.2 (remaining_lt hop (Nat.lt_succ_self _))

/-- No chain of calls goes on forever. -/
theorem wellFounded_calls (rules : Array Rule) :
    WellFounded fun callee caller => Ready rules caller ∧ Calls rules caller callee :=
  Subrelation.wf (fun h => h.2.measure_lt h.1) (InvImage.wf (measure rules) wellFounded_lt)

/-! ### One equation for each branch -/

section

variable {r op t : Nat} {found : Opcode} {before after : Marks}

theorem scans_rule_iff (hr : r < rules.size) :
    Scans rules (.rule r) before after ↔ Scans rules (.rest r 0) (before.mark r) after := by
  refine ⟨fun h => ?_, .rule hr⟩
  cases h with
  | rule _ hbody => exact hbody

theorem scans_done_iff (hop : opcodeAt? rules r op = none) :
    Scans rules (.rest r op) before after ↔ after = before := by
  constructor
  · intro h
    cases h with
    | done => rfl
    | skip hop' | known hop' | enter hop' => cases hop.symm.trans hop'
  · rintro rfl
    exact .done hop

theorem scans_skip_iff (hop : opcodeAt? rules r op = some found) (htarget : found.target? = none) :
    Scans rules (.rest r op) before after ↔ Scans rules (.rest r (op + 1)) before after := by
  refine ⟨fun h => ?_, .skip hop htarget⟩
  cases h with
  | done hop' => cases hop.symm.trans hop'
  | skip _ _ hrest => exact hrest
  | known hop' | enter hop' =>
    cases hop.symm.trans hop'
    cases htarget

theorem scans_known_iff (hop : opcodeAt? rules r op = some (.rnm t))
    (hknown : before.scanned[t]? = some true) :
    Scans rules (.rest r op) before after ↔
      Scans rules (.rest r (op + 1)) (before.count t) after := by
  refine ⟨fun h => ?_, .known hop hknown⟩
  cases h with
  | done hop' => cases hop.symm.trans hop'
  | skip hop' htarget =>
    cases hop.symm.trans hop'
    cases htarget
  | known hop' _ hrest =>
    cases hop.symm.trans hop'
    exact hrest
  | enter hop' hnew =>
    cases hop.symm.trans hop'
    cases hknown.symm.trans hnew

theorem scans_enter_iff (hop : opcodeAt? rules r op = some (.rnm t))
    (hnew : before.scanned[t]? = some false) :
    Scans rules (.rest r op) before after ↔
      ∃ inner, Scans rules (.rule t) (before.count t) inner ∧
        Scans rules (.rest r (op + 1)) inner after := by
  refine ⟨fun h => ?_, fun ⟨_, hrule, hrest⟩ => .enter hop hnew hrule hrest⟩
  cases h with
  | done hop' => cases hop.symm.trans hop'
  | skip hop' htarget =>
    cases hop.symm.trans hop'
    cases htarget
  | known hop' hknown =>
    cases hop.symm.trans hop'
    cases hnew.symm.trans hknown
  | enter hop' _ hrule hrest =>
    cases hop.symm.trans hop'
    exact ⟨_, hrule, hrest⟩

end

/-! ### Scans end -/

/-- A scan ends, and in one way only. -/
theorem existsUnique_scans (hordered : Ordered rules) (config : Task × Marks)
    (hready : Ready rules config) : ∃! after, Scans rules config.1 config.2 after := by
  induction config using (wellFounded_calls rules).induction with
  | _ config ih =>
  -- The induction goes along the calls, so whatever is called from here ends in one way only.
  have hcall : ∀ callee, Calls rules config callee →
      ∃! after, Scans rules callee.1 callee.2 after :=
    fun callee h => ih callee ⟨hready, h⟩ (h.ready hready)
  match config with
  | (.rule r, before) =>
    have hr : r < rules.size := hready.1 ▸ (Array.getElem?_eq_some_iff.1 hready.2).1
    simp only [scans_rule_iff hr]
    exact hcall _ (.body hr)
  | (.rest r op, before) =>
    rcases hop : opcodeAt? rules r op with _ | found
    · simp only [scans_done_iff hop]
      exact existsUnique_eq
    · rcases htarget : found.target? with _ | t
      · simp only [scans_skip_iff hop htarget]
        exact hcall _ (.skip hop htarget)
      obtain rfl : found = .rnm t := Opcode.target?_eq_some.1 htarget
      have ht : t < before.scanned.size := Eq.symm hready ▸ hordered.target_lt hop
      have hmark := Array.getElem?_eq_getElem ht
      cases hbit : before.scanned[t] with
      | true =>
        rw [hbit] at hmark
        simp only [scans_known_iff hop hmark]
        exact hcall _ (.known hop hmark)
      | false =>
        rw [hbit] at hmark
        obtain ⟨inner, hinner, hunique⟩ := hcall _ (.enter hop hmark)
        obtain ⟨after, hafter, hunique'⟩ := hcall _ (.next hop hmark hinner)
        simp only [scans_enter_iff hop hmark]
        refine ⟨after, ⟨inner, hinner, hafter⟩, ?_⟩
        rintro other ⟨inner', hinner', hother⟩
        cases hunique inner' hinner'
        exact hunique' other hother

/-! ## What is counted -/

/-- The rules that are named in a rule from a position on. -/
def namedFrom (rules : Array Rule) (r op : Nat) : List Nat :=
  rules[r]?.elim [] fun rule => (rule.opcodes.toList.drop op).filterMap Opcode.target?

theorem namedFrom_zero (rules : Array Rule) (r : Nat) :
    namedFrom rules r 0 = successors (rules.map targets) r := by
  rw [namedFrom, successors, Array.getElem?_map]
  cases rules[r]? <;> rfl

theorem namedFrom_of_none {r op : Nat} (hop : opcodeAt? rules r op = none) :
    namedFrom rules r op = [] := by
  simp only [namedFrom, opcodeAt?] at hop ⊢
  cases hrule : rules[r]? with
  | none => rfl
  | some rule =>
    rw [hrule, Option.bind_some, Array.getElem?_eq_none_iff] at hop
    rw [Option.elim_some, List.drop_eq_nil_of_le (by simpa using hop), List.filterMap_nil]

theorem namedFrom_of_some {r op : Nat} {found : Opcode} (hop : opcodeAt? rules r op = some found) :
    namedFrom rules r op = found.target?.toList ++ namedFrom rules r (op + 1) := by
  obtain ⟨rule, hrule, hget⟩ := opcodeAt?_eq_some.1 hop
  obtain ⟨hlt, rfl⟩ := Array.getElem?_eq_some_iff.1 hget
  simp only [namedFrom, hrule, Option.elim_some]
  rw [List.drop_eq_getElem_cons (by simpa using hlt), List.filterMap_cons, Array.getElem_toList]
  cases rule.opcodes[op].target? <;> rfl

/-- What is added to the marks where the rules in `named` are named, when the rules in `visited` are
scanned on account of that: these were not marked before, and everything that is named where they
are scanned is marked afterwards. -/
structure Adds (graph : Array (List Nat)) (named visited : List Nat) (before after : Marks) :
    Prop where
  nodup : visited.Nodup
  unmarked : ∀ r ∈ visited, before.scanned[r]? ≠ some true
  marked : ∀ r : Nat, after.scanned[r]? = some true ↔
    before.scanned[r]? = some true ∨ r ∈ visited
  closed : ∀ t ∈ named ++ visited.flatMap (successors graph), after.scanned[t]? = some true
  reached : ∀ r ∈ visited, ∃ t ∈ named, Relation.ReflTransGen (Refers graph) t r
  counts : ∀ t : Nat, after.counts[t]? =
    before.counts[t]?.map (· + (named ++ visited.flatMap (successors graph)).count t)

namespace Adds

variable {graph : Array (List Nat)} {named named' visited visited' : List Nat}
  {before inner after : Marks}

theorem nothing (graph : Array (List Nat)) (marks : Marks) : Adds graph [] [] marks marks where
  nodup := List.nodup_nil
  unmarked := by simp
  marked := by simp
  closed := by simp
  reached := by simp
  counts := by simp

theorem append (h : Adds graph named visited before inner)
    (h' : Adds graph named' visited' inner after) :
    Adds graph (named ++ named') (visited ++ visited') before after where
  nodup := List.nodup_append.2 ⟨h.nodup, h'.nodup, fun r hr r' hr' heq =>
    h'.unmarked r' hr' (heq ▸ (h.marked r).2 (Or.inr hr))⟩
  unmarked r hr := by
    rcases List.mem_append.1 hr with hr | hr
    · exact h.unmarked r hr
    · exact fun hmarked => h'.unmarked r hr ((h.marked r).2 (Or.inl hmarked))
  marked r := by rw [h'.marked, h.marked, List.mem_append, or_assoc]
  closed t ht := by
    have hmono : inner.scanned[t]? = some true → after.scanned[t]? = some true := fun hmarked =>
      (h'.marked t).2 (Or.inl hmarked)
    have hclosed := h.closed t
    have hclosed' := h'.closed t
    simp only [List.flatMap_append, List.mem_append] at ht hclosed hclosed'
    tauto
  reached r hr := by
    rcases List.mem_append.1 hr with hr | hr
    · obtain ⟨t, ht, hreached⟩ := h.reached r hr
      exact ⟨t, List.mem_append_left _ ht, hreached⟩
    · obtain ⟨t, ht, hreached⟩ := h'.reached r hr
      exact ⟨t, List.mem_append_right _ ht, hreached⟩
  counts t := by
    rw [h'.counts, h.counts, Option.map_map]
    simp only [Function.comp_def, List.flatMap_append, List.count_append]
    congr 1
    funext n
    omega

/-- A rule is named that is marked already. -/
theorem known {marks : Marks} {t : Nat} (hknown : marks.scanned[t]? = some true) :
    Adds graph [t] [] marks (marks.count t) where
  nodup := List.nodup_nil
  unmarked := by simp
  marked := by simp
  closed := by simp [hknown]
  reached := by simp
  counts u := by rw [Marks.getElem?_counts_count, List.flatMap_nil, List.append_nil]

/-- A rule is named and scanned. -/
theorem enter {marks : Marks} {t : Nat} (hnew : marks.scanned[t]? = some false)
    (h : Adds graph (successors graph t) visited ((marks.count t).mark t) after) :
    Adds graph [t] (t :: visited) marks after where
  nodup := List.nodup_cons.2 ⟨fun hmem => h.unmarked t hmem
    ((Marks.getElem?_scanned_mark hnew t).2 (Or.inr rfl)), h.nodup⟩
  unmarked r hr hmarked := by
    rcases List.mem_cons.1 hr with rfl | hr
    · cases hnew.symm.trans hmarked
    · exact h.unmarked r hr ((Marks.getElem?_scanned_mark hnew r).2 (Or.inl hmarked))
  marked r := by
    have hcounted : (marks.count t).scanned[t]? = some false := hnew
    rw [h.marked, Marks.getElem?_scanned_mark hcounted, Marks.scanned_count, List.mem_cons,
      or_assoc]
  closed u hu := by
    rw [List.flatMap_cons, List.cons_append, List.nil_append, List.mem_cons] at hu
    rcases hu with rfl | hu
    · exact (h.marked u).2 (Or.inl ((Marks.getElem?_scanned_mark hnew u).2 (Or.inr rfl)))
    · exact h.closed u hu
  reached r hr := by
    refine ⟨t, List.mem_singleton_self t, ?_⟩
    rcases List.mem_cons.1 hr with rfl | hr
    · exact .refl
    · obtain ⟨u, hu, hreached⟩ := h.reached r hr
      exact hreached.head hu
  counts u := by
    rw [h.counts, Marks.counts_mark, Marks.getElem?_counts_count, Option.map_map]
    simp only [Function.comp_def, List.flatMap_cons, List.count_append]
    congr 1
    funext n
    omega

end Adds

/-- What a scan adds. A call marks its rule and goes through the opcodes of the rule. -/
def Task.Adds (rules : Array Rule) (visited : List Nat) : Task → Marks → Marks → Prop
  | .rule r, before, after =>
    Scan.Adds (rules.map targets) (namedFrom rules r 0) visited (before.mark r) after
  | .rest r op, before, after =>
    Scan.Adds (rules.map targets) (namedFrom rules r op) visited before after

/-- A scan adds what is named on its way, and no rule is scanned twice. -/
theorem Scans.exists_adds {task : Task} {before after : Marks} (h : Scans rules task before after) :
    ∃ visited, task.Adds rules visited before after := by
  induction h with
  | rule _ _ ih => exact ih
  | done hop =>
    refine ⟨[], ?_⟩
    rw [Task.Adds, namedFrom_of_none hop]
    exact .nothing _ _
  | skip hop htarget _ ih =>
    obtain ⟨visited, hadds⟩ := ih
    refine ⟨visited, ?_⟩
    rw [Task.Adds, namedFrom_of_some hop, htarget]
    exact hadds
  | known hop hknown _ ih =>
    obtain ⟨visited, hadds⟩ := ih
    refine ⟨visited, ?_⟩
    rw [Task.Adds, namedFrom_of_some hop]
    exact (Adds.known hknown).append hadds
  | @enter r op t before inner after hop hnew _ _ ihrule ihrest =>
    obtain ⟨visited, hrule⟩ := ihrule
    obtain ⟨visited', hrest⟩ := ihrest
    rw [Task.Adds, namedFrom_zero] at hrule
    refine ⟨(t :: visited) ++ visited', ?_⟩
    rw [Task.Adds, namedFrom_of_some hop]
    exact (Adds.enter hnew hrule).append hrest

/-- A scan from a rule visits the rules that are collected from it. -/
theorem Adds.perm_closure {graph : Array (List Nat)} {r : Nat} {visited : List Nat} {after : Marks}
    (h : Adds graph (successors graph r) visited ((Marks.fresh graph.size).mark r) after)
    (hr : r < graph.size) : (r :: visited).Perm (closure graph r) := by
  have hfresh : (Marks.fresh graph.size).scanned[r]? = some false := by simp [Marks.fresh, hr]
  have hstart : ∀ t : Nat, ((Marks.fresh graph.size).mark r).scanned[t]? = some true ↔ t = r := by
    intro t
    rw [Marks.getElem?_scanned_mark hfresh]
    simp [Marks.fresh, Array.getElem?_replicate]
  have hnot : r ∉ visited := fun hmem => h.unmarked r hmem ((hstart r).2 rfl)
  have hvisited : ∀ t, t ∈ r :: visited ↔ after.scanned[t]? = some true := by
    intro t
    rw [h.marked, hstart, List.mem_cons]
  refine (List.perm_ext_iff_of_nodup (List.nodup_cons.2 ⟨hnot, h.nodup⟩)
    (nodup_collect _ List.nodup_nil)).2 fun t => ?_
  change _ ↔ t ∈ closure graph r
  rw [mem_closure_iff]
  constructor
  · intro ht
    rcases List.mem_cons.1 ht with rfl | ht
    · exact .refl
    · obtain ⟨u, hu, hreached⟩ := h.reached t ht
      exact hreached.head hu
  · intro hreached
    induction hreached with
    | refl => exact List.mem_cons_self
    | @tail u t _ hlast ih =>
      rw [hvisited]
      exact h.closed t (List.flatMap_cons ▸ List.mem_flatMap.2 ⟨u, ih, hlast⟩)

/-- A scan of a rule counts what classification counts. -/
theorem Scans.counts_eq {r : Nat} {after : Marks} (hr : r < rules.size)
    (h : Scans rules (.rule r) (.fresh rules.size) after) :
    after.counts = References.counts (rules.map targets) r := by
  obtain ⟨visited, hadds⟩ := h.exists_adds
  rw [Task.Adds, namedFrom_zero] at hadds
  have hsize : (rules.map targets).size = rules.size := Array.size_map
  rw [← hsize] at hadds hr
  have hperm := hadds.perm_closure hr
  refine Array.ext_getElem? fun t => ?_
  rw [hadds.counts, References.counts, getElem?_foldl_modify, ← List.flatMap_cons,
    (hperm.flatMap_right _).count_eq t]
  rfl

/-- What it is for scans to end: every call has less left to do, so no chain of calls goes on
forever, and a scan ends in one way only. -/
structure Descends (rules : Array Rule) : Prop where
  measure_lt : ∀ caller callee, Ready rules caller → Calls rules caller callee →
    Ready rules callee ∧ measure rules callee < measure rules caller
  wellFounded : WellFounded fun callee caller => Ready rules caller ∧ Calls rules caller callee
  ends : ∀ task marks, Ready rules (task, marks) → ∃! after, Scans rules task marks after

/-- Scans end, whatever circles the references form. -/
theorem descends (h : Ordered rules) : Descends rules where
  measure_lt _ _ hready hcall := ⟨hcall.ready hready, hcall.measure_lt hready⟩
  wellFounded := wellFounded_calls rules
  ends task marks hready := existsUnique_scans h (task, marks) hready

/-- Each rule that is classified has the counts of a scan that starts without marks. -/
theorem exists_scans_of_classify (h : Ordered rules) {r : Nat} {c : RuleClass}
    {classified : Analysis} (hclassify : classify rules = .ok classified)
    (hc : classified.classes[r]? = some c) :
    ∃ scanned, Scans rules (.rule r) (.fresh rules.size) ⟨scanned, c.counts⟩ := by
  rw [classify_eq_ok h.inRange] at hclassify
  cases hclassify
  obtain ⟨hr, rfl⟩ := classOf_of_getElem? hc
  have hready : Ready rules (.rule r, .fresh rules.size) := by simp [Ready, Marks.fresh, hr]
  obtain ⟨after, hscans, -⟩ := existsUnique_scans h _ hready
  refine ⟨after.scanned, ?_⟩
  rw [classOf, ← hscans.counts_eq hr]
  exact hscans

end Scan

end Abnf
