import Abnf.Analysis
import Abnf.Proofs.Analysis.Classes
import Abnf.Proofs.Analysis.Phrases

/-!
# Left recursion is found

A rule that can come back to itself before it has consumed anything, look-ahead aside, is found to
recur first. The walk from the rule may pass every way back that enters no rule twice, and if there
is a way back at all there is one of these.

* `Recursion.propagate_spec`: the pass ends, and finds left recursion.
* `Analysis.analyze_spec`: analysis ends, and finds left recursion.
-/

namespace Abnf

namespace Expr

mutual

/-- The rules that an expression can enter before it has consumed anything, other than in the
operands of look-ahead. -/
def openLeads (nullable : Nat → Bool) : Expr Opcode → List Nat
  | atom op =>
    match op with
    | .rnm rule => [rule]
    | _ => []
  | alt es => openLeadsOfAny nullable es
  | cat es => openLeadsInTurn nullable es
  | under op e =>
    match op with
    | .rep .. => openLeads nullable e
    | _ => []

/-- The rules that one of several alternatives can enter, other than in operands of look-ahead. -/
def openLeadsOfAny (nullable : Nat → Bool) : List (Expr Opcode) → List Nat
  | [] => []
  | e :: es => openLeads nullable e ++ openLeadsOfAny nullable es

/-- The rules that a sequence can enter, other than in operands of look-ahead. -/
def openLeadsInTurn (nullable : Nat → Bool) : List (Expr Opcode) → List Nat
  | [] => []
  | e :: es =>
    openLeads nullable e ++ if isNullable nullable e then openLeadsInTurn nullable es else []

end

theorem mem_openLeadsOfAny {nullable : Nat → Bool} {rule : Nat} {es : List (Expr Opcode)} :
    rule ∈ openLeadsOfAny nullable es ↔ ∃ e ∈ es, rule ∈ e.openLeads nullable := by
  induction es with
  | nil => simp [openLeadsOfAny]
  | cons e es ih => simp [openLeadsOfAny, ih]

theorem mem_of_mem_openLeadsInTurn {nullable : Nat → Bool} {rule : Nat} {es : List (Expr Opcode)}
    (h : rule ∈ openLeadsInTurn nullable es) : ∃ e ∈ es, rule ∈ e.openLeads nullable := by
  induction es with
  | nil => simp [openLeadsInTurn] at h
  | cons e es ih =>
    rcases List.mem_append.1 h with h | h
    · exact ⟨e, by simp, h⟩
    · split at h
      · obtain ⟨e', he', h⟩ := ih h
        exact ⟨e', by simp [he'], h⟩
      · simp at h

/-- An expression leads only to rules that it refers to. -/
theorem mem_atoms_of_mem_openLeads {nullable : Nat → Bool} {rule : Nat} {e : Expr Opcode}
    (h : rule ∈ e.openLeads nullable) : .rnm rule ∈ e.atoms := by
  induction e using Expr.induction with
  | atom op =>
    cases op with
    | rnm r =>
      simp only [openLeads, List.mem_singleton] at h
      simp [atoms, h]
    | _ => simp [openLeads] at h
  | alt es ih =>
    obtain ⟨e, he, h⟩ := mem_openLeadsOfAny.1 h
    exact mem_atomsAll.2 ⟨e, he, ih e he h⟩
  | cat es ih =>
    obtain ⟨e, he, h⟩ := mem_of_mem_openLeadsInTurn h
    exact mem_atomsAll.2 ⟨e, he, ih e he h⟩
  | under op e ih =>
    cases op with
    | rep => simp [atoms, ih h]
    | _ => simp [openLeads] at h

end Expr

namespace Walk

/-- If an expression can enter a rule first, and the rule is found to recur first, then the
expression is. -/
theorem left_of_mem_openLeads {P : Nat → Attributes → Prop} {nullable : Nat → Bool}
    (hP : ∀ rule a, P rule a → nullable rule = true → a.empty = true) {rule : Nat}
    (hrule : ∀ a, P rule a → a.left = true) {e : Expr Opcode} {a : Attributes} (he : Readable e)
    (h : HasAttributes P e.outline a) (hlead : rule ∈ e.openLeads nullable) : a.left = true := by
  induction e using Expr.induction generalizing a with
  | atom op =>
    cases op with
    | rnm r =>
      simp only [Expr.openLeads, List.mem_singleton] at hlead
      subst hlead
      exact hrule a h
    | _ => simp [Expr.openLeads] at hlead
  | alt es ih =>
    obtain ⟨parts, hparts, rfl⟩ := h
    obtain ⟨e, hmem, hlead⟩ := Expr.mem_openLeadsOfAny.1 hlead
    obtain ⟨b, hb, hpart⟩ := hparts.exists_attributes hmem
    rw [Attributes.left_alternation, List.any_eq_true]
    exact ⟨b, hb, ih e hmem (Readable.of_mem (Or.inl he) e hmem) hpart hlead⟩
  | cat es ih =>
    obtain ⟨parts, hparts, rfl⟩ := h
    have hreadable := Readable.of_mem (Or.inr he)
    replace hlead : rule ∈ Expr.openLeadsInTurn nullable es := hlead
    show Attributes.leadsWith Attributes.left parts = true
    clear he
    -- Either the first part leads to the rule, or the first part can be empty and the others do.
    induction es generalizing parts with
    | nil => simp [Expr.openLeadsInTurn] at hlead
    | cons e es ihes =>
      obtain ⟨b, rest, rfl, hb, hrest⟩ := hparts
      simp only [Attributes.leadsWith, Bool.or_eq_true, Bool.and_eq_true]
      rcases List.mem_append.1 hlead with hlead | hlead
      · exact Or.inl (ih e (by simp) (hreadable e (by simp)) hb hlead)
      · split at hlead
        · rename_i hnull
          refine Or.inr ⟨empty_of_isNullable hP (hreadable e (by simp)) hb hnull, ?_⟩
          exact ihes (fun e' he' => ih e' (by simp [he'])) rest hrest
            (fun e' he' => hreadable e' (by simp [he'])) hlead
        · simp at hlead
  | under op e ih =>
    cases op with
    | rep min max =>
      obtain ⟨b, hb, rfl⟩ := h
      simp only [Readable, Expr.isValid, Bool.and_eq_true, Expr.atoms, List.mem_cons, not_or] at he
      have hleft := ih ⟨he.1.2, he.2.2⟩ hb hlead
      unfold Attributes.repeated
      split
      · exact hleft
      · exact hleft
    | _ => simp [Expr.openLeads] at hlead

end Walk

namespace Recursion

open Walk

/-! ## Ways back -/

/-- There is a way from a rule back to `origin` that enters none of the rules in `path`, and no
rule twice, before it gets there. -/
inductive Back (lead : Nat → Nat → Prop) (origin : Nat) : List Nat → Nat → Prop
  | arrived {path : List Nat} : origin ∈ path → Back lead origin path origin
  | step {path : List Nat} {r t : Nat} :
    r ∉ path → lead r t → Back lead origin (r :: path) t → Back lead origin path r

variable {lead : Nat → Nat → Prop} {origin : Nat} {path : List Nat} {r : Nat}

/-- An open rule other than the origin is on no way back. -/
theorem Back.eq_of_mem (h : Back lead origin path r) (hmem : r ∈ path) : r = origin := by
  cases h with
  | arrived => rfl
  | step hnot => exact absurd hmem hnot

theorem Back.transGen (h : Back lead origin path r) (hnot : r ∉ path) :
    Relation.TransGen lead r origin := by
  induction h with
  | arrived hmem => exact absurd hmem hnot
  | @step path r t _ hlead hback ih =>
    by_cases ht : t ∈ r :: path
    · rw [← hback.eq_of_mem ht]
      exact .single hlead
    · exact .head hlead (ih ht)

theorem Back.anti {path' : List Nat} (h : Back lead origin path' r) (hsub : path ⊆ path')
    (horigin : origin ∈ path) : Back lead origin path r := by
  induction h generalizing path with
  | arrived => exact .arrived horigin
  | step hnot hlead _ ih =>
    refine .step (fun hmem => hnot (hsub hmem)) hlead ?_
    exact ih (List.cons_subset_cons _ hsub) (List.mem_cons_of_mem _ horigin)

/-- A way back avoids a rule, or else there is a way back from that rule. -/
theorem Back.avoid {a : Nat} (h : Back lead origin path r) (horigin : origin ∈ path)
    (ha : a ∉ path) : Back lead origin (a :: path) r ∨ Back lead origin path a := by
  induction h with
  | arrived hmem => exact Or.inl (.arrived (List.mem_cons_of_mem _ hmem))
  | @step path r t hnot hlead hback ih =>
    by_cases hra : r = a
    · subst hra
      exact Or.inr (.step hnot hlead hback)
    · rcases ih (List.mem_cons_of_mem _ horigin) (by simp [Ne.symm hra, ha]) with h | h
      · refine Or.inl (.step (by simp [hra, hnot]) hlead ?_)
        exact h.anti (List.Perm.swap _ _ _).subset (by simp [horigin])
      · exact Or.inr (h.anti (List.subset_cons_self _ _) horigin)

/-- If there is a way back from the origin at all, there is one that enters no rule twice. -/
theorem back_of_transGen (h : Relation.TransGen lead origin origin) :
    Back lead origin [] origin := by
  have hback : ∀ t, Relation.ReflTransGen lead t origin → Back lead origin [origin] t := by
    intro t ht
    induction ht using Relation.ReflTransGen.head_induction_on with
    | refl => exact .arrived (by simp)
    | @head a c hlead _ ih =>
      by_cases ha : a ∈ [origin]
      · rw [List.mem_singleton.1 ha]
        exact .arrived (by simp)
      · rcases ih.avoid (by simp) ha with h | h
        · exact .step ha hlead h
        · exact h
  obtain ⟨t, hlead, ht⟩ := Relation.TransGen.head'_iff.1 h
  exact .step (by simp) hlead (hback t ht)

/-! ## The plan -/

/-- The walk that looks for ways back to `origin` knows a rule for its phrases only: the rule is
open, and not the origin, or it does not lead to the origin. -/
def IsCut (analysis : Analysis) (origin : Nat) (path : List Nat) (rule : Nat) : Prop :=
  if rule ∈ path then rule ≠ origin
  else ¬ (analysis.classes[rule]?.any (·.reaches origin)) = true

theorem IsCut.not_back {analysis : Analysis} {rule : Nat} (h : IsCut analysis origin path rule)
    (hreaches : Relation.TransGen lead rule origin →
      (analysis.classes[rule]?.any (·.reaches origin)) = true) :
    ¬ Back lead origin path rule := by
  intro hback
  unfold IsCut at h
  split at h
  · exact h (hback.eq_of_mem ‹_›)
  · exact h (hreaches (hback.transGen ‹_›))

/-- The plan is right about what it finds if it is right about the rules that it knows, and right
about a rule when it is right about the rules in its expression. -/
theorem respects_of {rules : Array Rule} {shapes : Nat → Expr Opcode} {analysis : Analysis}
    {Post : List Nat → Nat → Attributes → Prop} (hsize : analysis.attributes.size = rules.size)
    (harrived : ∀ path recorded, analysis.attributes[origin]? = some recorded → origin ∈ path →
      Post path origin recorded)
    (hcut : ∀ path rule recorded, analysis.attributes[rule]? = some recorded →
      IsCut analysis origin path rule → Post path rule recorded.phrasePart)
    (hbody : ∀ path rule a, rule < rules.size → rule ∉ path →
      HasAttributes (Post (rule :: path)) (shapes rule) a → Post path rule a) :
    Respects (plan analysis origin) rules.size shapes
      (fun memo => ∀ rule path a, memo[rule :: path]? = some a → Post path rule a) Post := by
  refine ⟨?_, hbody, ?_⟩
  · intro path rule memo hrule hmemo
    obtain ⟨recorded, hrecorded⟩ : ∃ recorded, analysis.attributes[rule]? = some recorded :=
      ⟨_, Array.getElem?_eq_getElem (by rw [hsize]; exact hrule)⟩
    simp only [plan, fetch_eq_ok.2 hrecorded, bind, Except.bind]
    split
    · rename_i horigin
      simp only [Bool.and_eq_true, beq_iff_eq, List.contains_iff_mem] at horigin
      obtain ⟨rfl, hopen⟩ := horigin
      refine ⟨_, rfl, by simp, ?_⟩
      rintro a h
      cases h
      exact harrived path recorded hrecorded hopen
    · rename_i horigin
      simp only [Bool.and_eq_true, beq_iff_eq, List.contains_iff_mem, not_and] at horigin
      split
      · rename_i hknown
        refine ⟨_, rfl, by simp, ?_⟩
        rintro a h
        cases h
        apply hcut path rule recorded hrecorded
        unfold IsCut
        split
        · exact fun heq => horigin heq ‹_›
        · simpa [‹rule ∉ path›] using hknown
      · rename_i hknown
        exact ⟨_, rfl, fun hmem => absurd (by simp [hmem]) hknown, hmemo rule path⟩
  · intro path rule a memo _ hmemo ha
    exact forall_insert (P := fun rule path b => Post path rule b) hmemo ha

/-! ## The pass -/

/-- Rule `r` can enter rule `t` before it has consumed anything, other than in the operand of a
look-ahead. -/
def OpenLead (count : Nat) (bodies : Nat → Expr Opcode) (nullable : Nat → Bool) (r t : Nat) :
    Prop :=
  r < count ∧ t ∈ (bodies r).openLeads nullable

/-- What is known of rules before and after every walk: the classes miss no way to a rule, rules
that can be empty are known to be, and so are rules that can recur first. -/
structure Knows (count : Nat) (bodies : Nat → Expr Opcode) (nullable : Nat → Bool)
    (analysis : Analysis) : Prop where
  size : analysis.attributes.size = count
  reaches : ∀ r t, Relation.TransGen (OpenLead count bodies nullable) r t →
    ∃ c, analysis.classes[r]? = some c ∧ c.reaches t = true
  empty : ∀ (r : Nat) a, analysis.attributes[r]? = some a → nullable r = true → a.empty = true
  left : ∀ (r : Nat) a, analysis.attributes[r]? = some a →
    Relation.TransGen (OpenLead count bodies nullable) r r → a.left = true

variable {rules : Array Rule} {bodies : Nat → Expr Opcode} {nullable : Nat → Bool}
  {analysis : Analysis}

/-- What a walk from `origin` finds of a rule. -/
def Finds (count : Nat) (bodies : Nat → Expr Opcode) (nullable : Nat → Bool) (origin : Nat)
    (path : List Nat) (rule : Nat) (a : Attributes) : Prop :=
  (nullable rule = true → a.empty = true) ∧
    (Relation.TransGen (OpenLead count bodies nullable) origin origin →
      Back (OpenLead count bodies nullable) origin path rule → a.left = true)

/-- Along a walk, a rule with a way back to the origin is found to recur first. -/
theorem respects (origin : Nat) (hbodies : ∀ r < rules.size, Readable (bodies r))
    (hsupported : Phrases.Supported bodies nullable)
    (hknows : Knows rules.size bodies nullable analysis) :
    Respects (plan analysis origin) rules.size (fun r => (bodies r).outline)
      (fun memo => ∀ rule path a, memo[rule :: path]? = some a →
        Finds rules.size bodies nullable origin path rule a)
      (Finds rules.size bodies nullable origin) := by
  refine respects_of hknows.size ?_ ?_ ?_
  · intro path recorded hrecorded _
    exact ⟨hknows.empty origin recorded hrecorded,
      fun hcircle _ => hknows.left origin recorded hrecorded hcircle⟩
  · intro path rule recorded hrecorded hcut
    refine ⟨hknows.empty rule recorded hrecorded, fun _ hback => absurd hback ?_⟩
    refine hcut.not_back fun hlead => ?_
    obtain ⟨c, hc, hreaches⟩ := hknows.reaches rule origin hlead
    rw [hc]
    exact hreaches
  · intro path rule a hrule hnot hbody
    refine ⟨fun hnull => ?_, fun hcircle hback => ?_⟩
    · exact empty_of_isNullable (fun _ _ h => h.1) (hbodies rule hrule) hbody
        (hsupported rule hnull)
    · cases hback with
      | arrived hmem => exact absurd hmem hnot
      | step _ hlead hback =>
        exact left_of_mem_openLeads (fun _ _ h => h.1) (fun _ h => h.2 hcircle hback)
          (hbodies rule hrule) hbody hlead.2

theorem walkRule_spec (hrules : Shaped rules fun r => (bodies r).outline)
    (hbodies : ∀ r < rules.size, Readable (bodies r))
    (hsupported : Phrases.Supported bodies nullable) {rule : Nat} (hrule : rule < rules.size)
    (analysis : Analysis) (hknows : Knows rules.size bodies nullable analysis) :
    ∃ analysis', walkRule rules analysis rule = .ok analysis' ∧
      Knows rules.size bodies nullable analysis' := by
  obtain ⟨found, memo, heq, -, hfound⟩ :=
    start_spec hrules (respects rule hbodies hsupported hknows) hrule {} (by simp)
  refine ⟨{ analysis with attributes := analysis.attributes.modify rule fun recorded =>
    recorded.withRecursion found }, ?_, ?_, hknows.reaches, ?_, ?_⟩
  · simp only [walkRule, heq, bind, Except.bind]
    rfl
  · simpa using hknows.size
  · intro r a ha hnull
    obtain ⟨recorded, hrecorded, ⟨-, rfl⟩ | ⟨-, rfl⟩⟩ := getElem?_modify_eq_some ha
    · exact hknows.empty r recorded hrecorded hnull
    · exact hknows.empty r a hrecorded hnull
  · intro r a ha hcircle
    obtain ⟨recorded, hrecorded, ⟨rfl, rfl⟩ | ⟨-, rfl⟩⟩ := getElem?_modify_eq_some ha
    · exact hfound.2 hcircle (back_of_transGen hcircle)
    · exact hknows.left r a hrecorded hcircle

/-- The pass ends, and finds the rules that recur first. -/
theorem propagate_spec (hrules : Shaped rules fun r => (bodies r).outline)
    (hbodies : ∀ r < rules.size, Readable (bodies r))
    (hsupported : Phrases.Supported bodies nullable)
    (hknows : Knows rules.size bodies nullable analysis)
    (hclasses : analysis.classes.size = rules.size) :
    ∃ analysis', propagate rules analysis = .ok analysis' ∧
      Knows rules.size bodies nullable analysis' := by
  refine foldlM_spec (fun r hr analysis' hknows' => ?_) analysis hknows
  refine walkRule_spec hrules hbodies hsupported ?_ analysis' hknows'
  rw [← hclasses]
  exact List.mem_range.1 (List.mem_filter.1 hr).1

end Recursion

/-! ## Analysis -/

namespace Analysis

/-- The rules of a table are the layouts of readable expressions, and refer to rules of the table
only. -/
structure Tabulates (rules : Array Rule) (bodies : Nat → Expr Opcode) : Prop where
  layout : ∀ (r : Nat) rule, rules[r]? = some rule → rule.opcodes = (bodies r).layout
  readable : ∀ r < rules.size, Walk.Readable (bodies r)
  inRange : ∀ r < rules.size, ∀ t, .rnm t ∈ (bodies r).atoms → t < rules.size

variable {rules : Array Rule} {bodies : Nat → Expr Opcode} {nullable : Nat → Bool}

theorem Tabulates.shaped (h : Tabulates rules bodies) :
    Walk.Shaped rules fun r => (bodies r).outline := by
  intro r hr
  have hrule : rules[r]? = some rules[r] := Array.getElem?_eq_getElem hr
  refine ⟨⟨rules[r], hrule, ?_⟩, fun t ht => h.inRange r hr t (Expr.mem_atoms_outline ht)⟩
  rw [Walk.shape, h.layout r _ hrule]
  exact Walk.shapeAt_of_stands (Expr.stands_layout (h.readable r hr).1) (by simp)

theorem Tabulates.refersTo_iff (h : Tabulates rules bodies) {r t : Nat} :
    RefersTo rules r t ↔ r < rules.size ∧ .rnm t ∈ (bodies r).atoms := by
  constructor
  · rintro ⟨rule, hrule, ht⟩
    have hr := (Array.getElem?_eq_some_iff.1 hrule).1
    rw [h.layout r rule hrule] at ht
    refine ⟨hr, ?_⟩
    rcases Expr.mem_layoutFrom (h.readable r hr).1 (List.mem_toArray.1 ht) with ht | ht
    · exact ht.1
    · cases ht.1
  · rintro ⟨hr, ht⟩
    have hrule : rules[r]? = some rules[r] := Array.getElem?_eq_getElem hr
    refine ⟨rules[r], hrule, ?_⟩
    rw [h.layout r _ hrule]
    exact List.mem_toArray.2 (Expr.mem_layoutFrom_of_mem_atoms ht 0)

/-- Analysis ends. It finds the rules that can recur before they have consumed anything, other
than in the operand of a look-ahead. -/
theorem analyze_spec (h : Tabulates rules bodies) (hsupported : Phrases.Supported bodies nullable) :
    ∃ analysis, analyze rules = .ok analysis ∧
      Recursion.Knows rules.size bodies nullable analysis := by
  have hinRange : ∀ rule ∈ rules, ∀ t, .rnm t ∈ rule.opcodes → t < rules.size := by
    intro rule hrule t ht
    obtain ⟨r, hr⟩ := Array.getElem?_of_mem hrule
    obtain ⟨hlt, hatom⟩ := h.refersTo_iff.1 ⟨rule, hr, ht⟩
    exact h.inRange r hlt t hatom
  have hrefers : ∀ r t, Recursion.OpenLead rules.size bodies nullable r t →
      RefersTo rules r t :=
    fun r t hlead => h.refersTo_iff.2 ⟨hlead.1, Expr.mem_atoms_of_mem_openLeads hlead.2⟩
  obtain ⟨classified, hclassify, hclasses, hsize, hgroups, hempty, hreaches, hrecursive⟩ :=
    classify_spec hinRange
  obtain ⟨attributes, hphrases, hsize', hleft, hempty'⟩ :=
    Phrases.propagate_spec h.shaped h.readable hsupported hclasses hsize hgroups hempty
  have hknows : Recursion.Knows rules.size bodies nullable
      { classified with attributes := attributes } := by
    refine ⟨hsize', ?_, hempty', ?_⟩
    · intro r t hlead
      exact hreaches r t (hlead.lift id hrefers)
    · intro r a ha hcircle
      obtain ⟨_, b, _, _, hb, hbleft⟩ := hrecursive r (hcircle.lift id hrefers)
      have hsame := hleft r
      rw [ha, hb, Option.map_some, Option.map_some, hbleft] at hsame
      exact Option.some.inj hsame
  obtain ⟨analysis, hrecursion, hknows⟩ :=
    Recursion.propagate_spec h.shaped h.readable hsupported hknows hclasses
  refine ⟨analysis, ?_, hknows⟩
  simp only [analyze, hclassify, hphrases, hrecursion, bind, Except.bind]

end Analysis

end Abnf
