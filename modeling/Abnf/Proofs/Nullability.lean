import Mathlib.Data.Fintype.Pigeonhole
import Abnf.Proofs.Analysis.Edges
import Abnf.Proofs.Safety

/-!
# Rules that can be empty

Analysis takes a rule to be able to be empty unless something speaks against it: it finds the
greatest solution of the equations. In a compiled grammar this is no more than what can be derived.
A rule that is said to be able to be empty without a derivation has such a rule at its left edge,
and so on, until one comes up again; but then that rule recurs first, and is objected to.

* `Phrases.CanBeEmpty`: the rules and opcodes that can be derived to be empty.
* `analysis_solves_equations`: what analysis says of phrases.
-/

namespace Abnf

namespace Phrases

open Analysis Recursion

/-- The opcode at a position of a rule can be empty. -/
inductive CanBeEmpty (rules : Array Rule) : (r i : Nat) → Prop
  | leaf {r i : Nat} {rule : Rule} {op : Opcode} : rules[r]? = some rule →
    rule.opcodes[i]? = some op → (Attributes.ofLeaf op).empty = true → CanBeEmpty rules r i
  | ref {r i t : Nat} {rule : Rule} : rules[r]? = some rule →
    rule.opcodes[i]? = some (.rnm t) → CanBeEmpty rules t 0 → CanBeEmpty rules r i
  | alt {r i c : Nat} {rule : Rule} {cs : List Nat} : rules[r]? = some rule →
    rule.opcodes[i]? = some (.alt cs) → c ∈ cs → CanBeEmpty rules r c → CanBeEmpty rules r i
  | cat {r i : Nat} {rule : Rule} {cs : List Nat} : rules[r]? = some rule →
    rule.opcodes[i]? = some (.cat cs) → (∀ c ∈ cs, CanBeEmpty rules r c) → CanBeEmpty rules r i
  | repNone {r i : Nat} {rule : Rule} {max : Option UInt32} : rules[r]? = some rule →
    rule.opcodes[i]? = some (.rep 0 max) → CanBeEmpty rules r i
  | rep {r i : Nat} {rule : Rule} {min : UInt32} {max : Option UInt32} :
    rules[r]? = some rule → rule.opcodes[i]? = some (.rep min max) →
    CanBeEmpty rules r (i + 1) → CanBeEmpty rules r i

variable {rules : Array Rule}

/-- What can be derived holds, if `v` has the rules that are derived on the way. -/
theorem CanBeEmpty.holds {v : Nat → Prop}
    (hv : ∀ t, CanBeEmpty rules t 0 → Equation .empty rules v t → v t) {r i : Nat}
    (h : CanBeEmpty rules r i) :
    ∃ rule, rules[r]? = some rule ∧ Holds .empty rule.opcodes v i := by
  have hsame : ∀ {r i : Nat} {rule : Rule}, rules[r]? = some rule →
      (∃ rule, rules[r]? = some rule ∧ Holds .empty rule.opcodes v i) →
        Holds .empty rule.opcodes v i := by
    rintro r i rule hrule ⟨rule', hrule', hholds⟩
    cases hrule.symm.trans hrule'
    exact hholds
  induction h with
  | leaf hrule hop hempty => exact ⟨_, hrule, .leaf hop hempty⟩
  | ref hrule hop ht ih => exact ⟨_, hrule, .ref hop (hv _ ht ih)⟩
  | alt hrule hop hc _ ih => exact ⟨_, hrule, .alt hop hc (hsame hrule ih)⟩
  | cat hrule hop _ ih => exact ⟨_, hrule, .catAll hop (by simp) fun c hc => hsame hrule (ih c hc)⟩
  | repNone hrule hop => exact ⟨_, hrule, .repNone hop (by simp)⟩
  | rep hrule hop _ ih => exact ⟨_, hrule, .rep hop (hsame hrule ih)⟩

theorem Holds.canBeEmpty {r i : Nat} {rule : Rule} (hrule : rules[r]? = some rule)
    (h : Holds .empty rule.opcodes (CanBeEmpty rules · 0) i) : CanBeEmpty rules r i := by
  induction h with
  | leaf hop hempty => exact .leaf hrule hop hempty
  | ref hop ht => exact .ref hrule hop ht
  | alt hop hc _ ih => exact .alt hrule hop hc ih
  | catAll hop _ _ ih => exact .cat hrule hop ih
  | catSome _ haspect => cases haspect
  | repNone hop => exact .repNone hrule hop
  | rep hop _ ih => exact .rep hrule hop ih

/-- What can be derived to be empty is the least solution. -/
theorem isLeast_canBeEmpty (rules : Array Rule) :
    IsLeast (Solutions .empty rules) {r | CanBeEmpty rules r 0} := by
  have hlt : ∀ {r v}, Equation .empty rules v r → r < rules.size := by
    rintro r v ⟨rule, hrule, -⟩
    exact (Array.getElem?_eq_some_iff.1 hrule).1
  have hself : ∀ {r}, CanBeEmpty rules r 0 → Equation .empty rules (CanBeEmpty rules · 0) r :=
    fun hr => hr.holds fun _ ht _ => ht
  refine ⟨⟨fun r hr => hlt (hself hr), fun r _ => ⟨hself, ?_⟩⟩, fun v hv r hr => ?_⟩
  · rintro ⟨rule, hrule, hholds⟩
    exact hholds.canBeEmpty hrule
  · have hclosed : ∀ t, Equation .empty rules (· ∈ v) t → t ∈ v :=
      fun t ht => (hv.2 t (hlt ht)).2 ht
    exact hclosed r (CanBeEmpty.holds (fun t _ => hclosed t) hr)

/-! ## Solutions apart -/

/-- An opcode of which two solutions differ has a rule of which they differ at its left edge. -/
theorem exists_edgeAt {opcodes : Array Opcode} {v w : Nat → Prop} {i : Nat}
    (h : Holds .empty opcodes v i) (hnot : ¬ Holds .empty opcodes w i) :
    ∃ t, EdgeAt .left opcodes v t i ∧ v t ∧ ¬ w t := by
  induction h with
  | leaf hop hempty => exact absurd (.leaf hop hempty) hnot
  | ref hop ht => exact ⟨_, .ref hop, ht, fun hw => hnot (.ref hop hw)⟩
  | alt hop hc _ ih =>
    obtain ⟨t, hedge, ht⟩ := ih fun hw => hnot (.alt hop hc hw)
    exact ⟨t, .alt hop hc hedge, ht⟩
  | catAll hop _ hall ih =>
    -- All parts can be empty, so every one of them is at the edge.
    obtain ⟨c, hc, hcnot⟩ : ∃ c ∈ _, ¬ Holds .empty opcodes w c := by
      by_contra hnone
      push Not at hnone
      exact hnot (.catAll hop (by simp) hnone)
    obtain ⟨before, after, rfl⟩ := List.append_of_mem hc
    obtain ⟨t, hedge, ht⟩ := ih c hc hcnot
    exact ⟨t, .cat hop (fun b hb => hall b (List.mem_append_left _ hb)) hedge, ht⟩
  | catSome _ haspect => cases haspect
  | repNone hop => exact absurd (.repNone hop (by simp)) hnot
  | rep hop _ ih =>
    obtain ⟨t, hedge, ht⟩ := ih fun hw => hnot (.rep hop hw)
    exact ⟨t, .rep hop hedge, ht⟩

/-- Going on and on within finitely many numbers leads in a circle. -/
theorem exists_circle {R : Nat → Nat → Prop} {D : Nat → Prop} {bound r : Nat} (hr : D r)
    (hbound : ∀ r, D r → r < bound) (hstep : ∀ r, D r → ∃ t, R r t ∧ D t) :
    ∃ s, Relation.TransGen R s s := by
  choose! next hnext using hstep
  have hD : ∀ n, D (next^[n] r) := by
    intro n
    induction n with
    | zero => exact hr
    | succ n ih =>
      rw [Function.iterate_succ_apply']
      exact (hnext _ ih).2
  have hlead : ∀ n, R (next^[n] r) (next^[n + 1] r) := by
    intro n
    rw [Function.iterate_succ_apply']
    exact (hnext _ (hD n)).1
  have hchain : ∀ m n, Relation.TransGen R (next^[m] r) (next^[m + n + 1] r) := by
    intro m n
    induction n with
    | zero => exact .single (hlead m)
    | succ n ih => exact ih.tail (hlead (m + n + 1))
  obtain ⟨m, n, hne, heq⟩ := Finite.exists_ne_map_eq_of_infinite
    fun n => (⟨next^[n] r, hbound _ (hD n)⟩ : Fin bound)
  have heq := Fin.mk.inj heq
  rcases Nat.lt_or_gt_of_ne hne with hlt | hlt <;>
  obtain ⟨k, rfl⟩ := Nat.exists_eq_add_of_lt hlt
  · have hcircle := hchain m k
    rw [← heq] at hcircle
    exact ⟨_, hcircle⟩
  · have hcircle := hchain n k
    rw [heq] at hcircle
    exact ⟨_, hcircle⟩

/-- Where no rule recurs first, there is one solution only. -/
theorem solution_subset {v w : Set Nat} (hv : v ∈ Solutions .empty rules)
    (hw : w ∈ Solutions .empty rules)
    (hleft : ∀ r, ¬ Relation.TransGen (EdgeRef .left rules (· ∈ v)) r r) : v ⊆ w := by
  have hstep : ∀ r, r ∈ v ∧ r ∉ w → ∃ t, EdgeRef .left rules (· ∈ v) r t ∧ t ∈ v ∧ t ∉ w := by
    rintro r ⟨hr, hnot⟩
    obtain ⟨rule, hrule, hholds⟩ := (hv.2 r (hv.1 r hr)).1 hr
    obtain ⟨t, hedge, ht⟩ := exists_edgeAt hholds fun h =>
      hnot ((hw.2 r (hv.1 r hr)).2 ⟨rule, hrule, h⟩)
    exact ⟨t, ⟨rule, hrule, hedge⟩, ht⟩
  intro r hr
  by_contra hnot
  obtain ⟨s, hs⟩ := exists_circle ⟨hr, hnot⟩ (fun r hr => hv.1 r hr.1) hstep
  exact hleft s hs

end Phrases

/-! ## Compiled grammars -/

open Phrases

theorem Tabled.ordered {rules : Array Rule} {udts : Array Udt} (h : Tabled rules udts) :
    Analysis.Ordered rules := by
  have hformed := h.wellFormed
  exact ⟨fun rule hrule => (hformed.wired rule hrule).ordered,
    fun rule hrule t ht => hformed.fits rule hrule _ ht⟩

/-- What a compiled grammar says of the empty phrase can be derived. -/
theorem Grammar.Checked.said_empty {grammar : Grammar} (h : grammar.Checked) :
    said grammar.analysis .empty = {r | CanBeEmpty grammar.rules r 0} := by
  obtain ⟨analysis, hanalyze, hsize, -, -, hempty, hedges⟩ :=
    Analysis.analyze_exact h.tabled.ordered
  cases h.analyzed.symm.trans hanalyze
  have hleast := isLeast_canBeEmpty grammar.rules
  refine Set.Subset.antisymm (solution_subset hempty.1 hleast.1 fun r hcircle => ?_)
    (hleast.2 hempty.1)
  obtain ⟨_, ⟨_, hrule, -⟩, -⟩ := Relation.TransGen.head'_iff.1 hcircle
  have hr := (Array.getElem?_eq_some_iff.1 hrule).1
  have ha := Array.getElem?_eq_getElem (hsize ▸ hr : r < grammar.analysis.attributes.size)
  have hleft := (hedges r _ .left ha).2 hcircle
  rw [Attributes.recursAt, h.left_eq_false hr ha] at hleft
  cases hleft

/-- What analysis says of phrases solves the equations of the rules: what can be finite and what can
be non-empty is the least solution, and what can be empty the greatest. In a compiled grammar what
can be empty is also the least solution, and what can be derived to be. -/
theorem analysis_solves_equations :
    (∀ rules : Array Rule, Analysis.Ordered rules →
      ∃ classified found, Analysis.classify rules = .ok classified ∧
        Phrases.propagate rules classified = .ok found ∧ found.attributes.size = rules.size ∧
        IsLeast (Solutions .finite rules) (said found .finite) ∧
        IsLeast (Solutions .notEmpty rules) (said found .notEmpty) ∧
        IsGreatest (Solutions .empty rules) (said found .empty)) ∧
    ∀ (strict : Bool) (sources : List String) (grammar : Grammar),
      compile strict sources = .ok (.ok grammar) →
        IsLeast (Solutions .empty grammar.rules) (said grammar.analysis .empty) ∧
        ∀ r, r ∈ said grammar.analysis .empty ↔ CanBeEmpty grammar.rules r 0 := by
  refine ⟨fun rules hordered => ?_, fun strict sources grammar hcompile => ?_⟩
  · obtain ⟨classified, found, hclassify, -, hphrases, -, hsize, -, hsolutions⟩ :=
      propagate_solutions hordered
    exact ⟨classified, found, hclassify, hphrases, hsize, hsolutions⟩
  · rw [(checked_of_compile hcompile).said_empty]
    exact ⟨isLeast_canBeEmpty grammar.rules, fun r => Iff.rfl⟩

/-- The grammar of a sequence whose parts can all be empty. -/
theorem exists_compile_optional :
    ∃ grammar, compile false ["S = *A A\nA = [\"a\"]\n"] = .ok (.ok grammar) ∧
      grammar.rules = #[⟨"S", 0, #[.cat [1, 3], .rep 0 none, .rnm 1, .rnm 1]⟩,
        ⟨"A", 1, #[.rep 0 (some 1), .tls [97]]⟩] := by
  have hrules : (grammar? false "S = *A A\nA = [\"a\"]\n").map Grammar.rules =
      some #[⟨"S", 0, #[.cat [1, 3], .rep 0 none, .rnm 1, .rnm 1]⟩,
        ⟨"A", 1, #[.rep 0 (some 1), .tls [97]]⟩] := by
    decide +kernel
  obtain ⟨grammar, hgrammar, hrules⟩ := Option.map_eq_some_iff.1 hrules
  exact ⟨grammar, compile_of_grammar? hgrammar, hrules⟩

/-- The equations of two rules that start with each other, and those of a rule that can be empty
because the two parts of it can. -/
theorem analysis_solves_equations_optional :
    (∃ classified found, Analysis.classify Analysis.hiddenCircle = .ok classified ∧
      Phrases.propagate Analysis.hiddenCircle classified = .ok found ∧
      IsGreatest (Solutions .empty Analysis.hiddenCircle) (said found .empty)) ∧
    ∃ grammar, compile false ["S = *A A\nA = [\"a\"]\n"] = .ok (.ok grammar) ∧
      0 ∈ said grammar.analysis .empty := by
  constructor
  · obtain ⟨classified, found, hclassify, hphrases, -, -, -, hempty⟩ :=
      analysis_solves_equations.1 Analysis.hiddenCircle (by decide)
    exact ⟨classified, found, hclassify, hphrases, hempty⟩
  · obtain ⟨grammar, hcompile, hrules⟩ := exists_compile_optional
    refine ⟨grammar, hcompile, ((analysis_solves_equations.2 _ _ _ hcompile).2 0).2 ?_⟩
    rw [hrules]
    refine .cat rfl rfl ?_
    simp only [List.forall_mem_cons, List.not_mem_nil, false_implies, implies_true, and_true]
    exact ⟨.repNone rfl rfl, .ref rfl rfl (.repNone rfl rfl)⟩

end Abnf
