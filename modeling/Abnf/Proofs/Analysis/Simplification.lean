import Abnf.Proofs.Analysis.Equations
import Abnf.Proofs.Engine.Simplification

/-!
# Analysis of reduced tables

A node that stands for its only operand has the attributes of that operand, so a walk finds the
same of an expression and of the simpler one, and leaves the same behind. The references of a rule
stay as they are, one by one. Analysis of a reduced table is therefore the analysis of the table.

* `Walk.attributesOf_simplify`: the walk through the simpler expression.
* `analyze_reduce`: the analysis of the reduced tables of a text.
-/

namespace Abnf

/-! ## Nodes with one operand -/

namespace Attributes

@[simp] theorem alternation_singleton (a : Attributes) : alternation [a] = a := by
  cases a
  simp [alternation, either]

@[simp] theorem isNested_singleton (a : Attributes) : isNested [a] = a.nested := by
  have hbetween : betweenPhrases [a] = false := by
    cases h : a.notEmpty <;> simp [betweenPhrases, h]
  simp [isNested, thenPhrase, hbetween]

@[simp] theorem concatenation_singleton (a : Attributes) : concatenation [a] = a := by
  cases a
  simp [concatenation, leadsWith]

theorem repeated_of_isRedundant {min : UInt32} {max : Option UInt32}
    (h : (Opcode.rep min max).isRedundant = true) (a : Attributes) : a.repeated min = a := by
  obtain ⟨rfl, rfl⟩ : min = 1 ∧ max = some 1 := by simpa [Opcode.isRedundant] using h
  rfl

end Attributes

namespace Walk

open Abnf.Expr

variable {σ : Type} {visit : Nat → σ → Except Fault (Attributes × σ)}

theorem attributesOf_alt_singleton (e : Expr Opcode) (state : σ) :
    attributesOf visit (.alt [e]) state = attributesOf visit e state := by
  simp only [attributesOf, attributesOfAll, bind, Except.bind, pure, Except.pure]
  cases attributesOf visit e state with
  | error => rfl
  | ok found => simp

theorem attributesOf_cat_singleton (e : Expr Opcode) (state : σ) :
    attributesOf visit (.cat [e]) state = attributesOf visit e state := by
  simp only [attributesOf, attributesOfAll, bind, Except.bind, pure, Except.pure]
  cases attributesOf visit e state with
  | error => rfl
  | ok found => simp

theorem attributesOf_redundant {min : UInt32} {max : Option UInt32}
    (h : (Opcode.rep min max).isRedundant = true) (e : Expr Opcode) (state : σ) :
    attributesOf visit (.under (.rep min max) e) state = attributesOf visit e state := by
  simp only [attributesOf, bind, Except.bind, pure, Except.pure]
  cases attributesOf visit e state with
  | error => rfl
  | ok found => simp [Attributes.repeated_of_isRedundant h]

theorem attributesOfAll_congr {f g : Expr Opcode → Expr Opcode} {es : List (Expr Opcode)}
    (h : ∀ e ∈ es, ∀ state, attributesOf visit (f e) state = attributesOf visit (g e) state)
    (state : σ) :
    attributesOfAll visit (es.map f) state = attributesOfAll visit (es.map g) state := by
  induction es generalizing state with
  | nil => rfl
  | cons e es ih =>
    have htail := ih fun e' he' => h e' (List.mem_cons_of_mem _ he')
    simp only [List.map_cons, attributesOfAll, h e List.mem_cons_self, htail]

/-- A walk finds the same of the simpler expression, and leaves the same state. -/
theorem attributesOf_simplify {e : Expr Opcode} (hv : e.isValid = true) (state : σ) :
    attributesOf visit e.simplify.outline state = attributesOf visit e.outline state := by
  induction e using Expr.induction generalizing state with
  | atom op => rfl
  | alt es ih =>
    simp only [isValid, Bool.and_eq_true, allValid_iff] at hv
    obtain ⟨e, rfl, heq, -⟩ | ⟨-, heq, -⟩ := simplify_branch es
    · have hmem : e ∈ [e] := List.mem_cons_self
      rw [heq, ih e hmem (hv.2 e hmem), outline, outlineAll_eq_map]
      exact (attributesOf_alt_singleton _ state).symm
    · rw [heq, outline, outline, outlineAll_eq_map, outlineAll_eq_map, List.map_map]
      have hall := attributesOfAll_congr (f := outline ∘ simplify)
        (fun e he => ih e he (hv.2 e he)) state
      simp only [attributesOf, hall]
  | cat es ih =>
    simp only [isValid, Bool.and_eq_true, allValid_iff] at hv
    obtain ⟨e, rfl, -, heq⟩ | ⟨-, -, heq⟩ := simplify_branch es
    · have hmem : e ∈ [e] := List.mem_cons_self
      rw [heq, ih e hmem (hv.2 e hmem), outline, outlineAll_eq_map]
      exact (attributesOf_cat_singleton _ state).symm
    · rw [heq, outline, outline, outlineAll_eq_map, outlineAll_eq_map, List.map_map]
      have hall := attributesOfAll_congr (f := outline ∘ simplify)
        (fun e he => ih e he (hv.2 e he)) state
      simp only [attributesOf, hall]
  | under op e ih =>
    simp only [isValid, Bool.and_eq_true] at hv
    rw [simplify]
    split
    · rename_i hredundant
      obtain ⟨hgoverns, hv⟩ := hv
      cases op with
      | rep min max =>
        rw [ih hv state, outline]
        exact (attributesOf_redundant hredundant _ state).symm
      | alt | cat => cases hgoverns
      | _ => cases hredundant
    · cases op with
      | rep min max => simp only [outline, attributesOf, ih hv.2 state]
      | _ => rfl

/-! ## Walks through tables -/

/-- Two tables have rules at the same positions, and a walk finds the same in the expressions of
two rules at one position. -/
structure Alike (rules rules' : Array Rule) : Prop where
  size : rules'.size = rules.size
  shapes : ∀ {r : Nat} {rule rule' : Rule}, rules[r]? = some rule → rules'[r]? = some rule' →
    ∃ e e', shape rule = .ok e ∧ shape rule' = .ok e' ∧
      ∀ {σ : Type} (visit : Nat → σ → Except Fault (Attributes × σ)) (state : σ),
        attributesOf visit e' state = attributesOf visit e state

variable {rules rules' : Array Rule}

theorem Alike.visitRule (h : Alike rules rules') (plan : Plan σ) (depth : Nat) (path : List Nat)
    (rule : Nat) (state : σ) :
    Walk.visitRule rules' plan depth path rule state =
      Walk.visitRule rules plan depth path rule state := by
  induction depth generalizing path rule state with
  | zero => rfl
  | succ depth ih =>
    have hvisit : Walk.visitRule rules' plan depth (rule :: path) =
        Walk.visitRule rules plan depth (rule :: path) := by
      funext target state
      exact ih (rule :: path) target state
    simp only [Walk.visitRule, hvisit, bind, Except.bind]
    split
    · rfl
    split
    · rfl
    -- The rule is entered: it is in both tables or in neither.
    by_cases hr : rule < rules.size
    · have hrule := Array.getElem?_eq_getElem hr
      have hrule' := Array.getElem?_eq_getElem (h.size ▸ hr : rule < rules'.size)
      obtain ⟨e, e', hshape, hshape', hsame⟩ := h.shapes hrule hrule'
      simp only [fetch_eq_ok.2 hrule, fetch_eq_ok.2 hrule', hshape, hshape', hsame]
    · have hnone : rules[rule]? = none := Array.getElem?_eq_none (by omega)
      have hnone' : rules'[rule]? = none := Array.getElem?_eq_none (by rw [h.size]; omega)
      simp only [fetch, hnone, hnone']

theorem Alike.start (h : Alike rules rules') (plan : Plan σ) (rule : Nat) (state : σ) :
    Walk.start rules' plan rule state = Walk.start rules plan rule state := by
  rw [Walk.start, Walk.start, h.size, h.visitRule]

/-- The phrases pass finds the same in both tables. -/
theorem Alike.propagate_phrases (h : Alike rules rules') (analysis : Analysis) :
    Phrases.propagate rules' analysis = Phrases.propagate rules analysis := by
  have hrule : Phrases.walkRule rules' = Phrases.walkRule rules := by
    funext state rule
    rw [Phrases.walkRule, Phrases.walkRule, h.start]
  have hmember : Phrases.walkMember rules' = Phrases.walkMember rules := by
    funext state rule
    rw [Phrases.walkMember, Phrases.walkMember, hrule]
  rw [Phrases.propagate, Phrases.propagate, hrule, hmember]

/-- The recursion pass finds the same in both tables. -/
theorem Alike.propagate_recursion (h : Alike rules rules') (analysis : Analysis) :
    Recursion.propagate rules' analysis = Recursion.propagate rules analysis := by
  have hrule : Recursion.walkRule rules' = Recursion.walkRule rules := by
    funext analysis rule
    rw [Recursion.walkRule, Recursion.walkRule, h.start]
  rw [Recursion.propagate, Recursion.propagate, hrule]

/-- Analysis of two tables finds the same, if their rules also refer to the same rules. -/
theorem Alike.analyze (h : Alike rules rules')
    (hgraph : References.graph rules' = References.graph rules) :
    Analysis.analyze rules' = Analysis.analyze rules := by
  have hclassify : Analysis.classify rules' = Analysis.classify rules := by
    rw [Analysis.classify, Analysis.classify, hgraph]
  have hphrases : Phrases.propagate rules' = Phrases.propagate rules := funext h.propagate_phrases
  have hrecursion : Recursion.propagate rules' = Recursion.propagate rules :=
    funext h.propagate_recursion
  rw [Analysis.analyze, Analysis.analyze, hclassify, hphrases, hrecursion]

end Walk

/-! ## References -/

namespace Expr

/-- The rules that an expression refers to, one entry per reference. -/
def references (e : Expr Opcode) : List Nat :=
  e.atoms.filterMap Opcode.target?

theorem filterMap_atomsAll (es : List (Expr Opcode)) :
    (atomsAll es).filterMap Opcode.target? = es.flatMap references := by
  induction es with
  | nil => rfl
  | cons e es ih => rw [atomsAll, List.filterMap_append, ih, List.flatMap_cons, references]

theorem references_simplify {e : Expr Opcode} (hv : e.isValid = true) :
    e.simplify.references = e.references := by
  have hall : ∀ es : List (Expr Opcode), (∀ e ∈ es, e.simplify.references = e.references) →
      (es.map simplify).flatMap references = es.flatMap references := by
    intro es h
    rw [List.flatMap_map]
    exact List.flatMap_congr fun e he => h e he
  induction e using Expr.induction with
  | atom op => rfl
  | alt es ih =>
    simp only [isValid, Bool.and_eq_true, allValid_iff] at hv
    have hparts := hall es fun e he => ih e he (hv.2 e he)
    obtain ⟨e, rfl, heq, -⟩ | ⟨-, heq, -⟩ := simplify_branch es
    · rw [heq, ih e List.mem_cons_self (hv.2 e List.mem_cons_self)]
      simp [references, atoms, atomsAll]
    · rw [heq, references, atoms, filterMap_atomsAll, hparts, references, atoms,
        filterMap_atomsAll]
  | cat es ih =>
    simp only [isValid, Bool.and_eq_true, allValid_iff] at hv
    have hparts := hall es fun e he => ih e he (hv.2 e he)
    obtain ⟨e, rfl, -, heq⟩ | ⟨-, -, heq⟩ := simplify_branch es
    · rw [heq, ih e List.mem_cons_self (hv.2 e List.mem_cons_self)]
      simp [references, atoms, atomsAll]
    · rw [heq, references, atoms, filterMap_atomsAll, hparts, references, atoms,
        filterMap_atomsAll]
  | under op e ih =>
    simp only [isValid, Bool.and_eq_true] at hv
    have hnone : op.target? = none := by
      have hgoverns := hv.1
      cases op <;> first | rfl | cases hgoverns
    rw [simplify]
    split
    · rw [ih hv.2, references, references, atoms, List.filterMap_cons_none hnone]
    · have ih := ih hv.2
      rw [references] at ih ⊢
      rw [references, atoms, atoms, List.filterMap_cons_none hnone, List.filterMap_cons_none hnone,
        ih, references]

theorem filterMap_layoutFrom (e : Expr Opcode) (start : Nat) :
    (layoutFrom start e).filterMap Opcode.target? = e.references := by
  have hall : ∀ es : List (Expr Opcode),
      (∀ e ∈ es, ∀ start, (layoutFrom start e).filterMap Opcode.target? = e.references) →
      ∀ start, (layoutAllFrom start es).filterMap Opcode.target? = es.flatMap references := by
    intro es
    induction es with
    | nil => exact fun _ _ => rfl
    | cons e es ih =>
      intro h start
      rw [layoutAllFrom, List.filterMap_append, h e List.mem_cons_self,
        ih (fun e' he' => h e' (List.mem_cons_of_mem _ he')), List.flatMap_cons]
  induction e using Expr.induction generalizing start with
  | atom op => rfl
  | alt es ih | cat es ih =>
    rw [layoutFrom, List.filterMap_cons_none rfl, hall es ih, references, atoms,
      filterMap_atomsAll]
  | under op e ih =>
    rw [layoutFrom, List.filterMap_cons, ih, references, references, atoms, List.filterMap_cons]

end Expr

namespace References

theorem targets_of_layout {rule : Rule} {e : Expr Opcode} (h : rule.opcodes = e.layout) :
    targets rule = e.references := by
  rw [← e.filterMap_layoutFrom 0, targets, h]
  rfl

/-- What tables refer to depends on what their rules refer to only. -/
theorem graph_congr {rules rules' : Array Rule} (h : rules'.map targets = rules.map targets) :
    graph rules' = graph rules := by
  have hsize : rules'.size = rules.size := by simpa using congrArg Array.size h
  have hall : (rules'.all fun rule => (targets rule).all fun target => target < rules'.size) =
      rules.all fun rule => (targets rule).all fun target => target < rules.size := by
    have hmap := congrArg (Array.all · fun refs => refs.all fun target => target < rules.size) h
    simpa only [Array.all_map, Function.comp_def, hsize] using hmap
  rw [graph, graph, hall, h]

end References

/-! ## Reduced tables -/

namespace Analysis

variable {rules reduced : Array Rule} {bodies : Nat → Expr Opcode}

/-- A walk finds the same in a table and in the table of the simpler expressions. -/
theorem Tabulates.alike (h : Tabulates rules bodies)
    (h' : Tabulates reduced fun r => (bodies r).simplify) (hsize : reduced.size = rules.size) :
    Walk.Alike rules reduced := by
  have hshape : ∀ {rules : Array Rule} {bodies : Nat → Expr Opcode} {r : Nat} {rule : Rule},
      Tabulates rules bodies → rules[r]? = some rule →
        Walk.shape rule = .ok (bodies r).outline := by
    intro rules bodies r rule h hrule
    obtain ⟨⟨found, hfound, hshape⟩, -⟩ := h.shaped r (Array.getElem?_eq_some_iff.1 hrule).1
    cases hrule.symm.trans hfound
    exact hshape
  refine ⟨hsize, fun {r rule rule'} hrule hrule' => ?_⟩
  have hvalid := (h.readable r (Array.getElem?_eq_some_iff.1 hrule).1).1
  exact ⟨_, _, hshape h hrule, hshape h' hrule', fun visit state =>
    Walk.attributesOf_simplify hvalid state⟩

theorem Tabulates.map_targets (h : Tabulates rules bodies)
    (h' : Tabulates reduced fun r => (bodies r).simplify) (hsize : reduced.size = rules.size) :
    reduced.map References.targets = rules.map References.targets := by
  refine Array.ext (by simpa using hsize) fun r hr hr' => ?_
  have hr : r < reduced.size := by simpa using hr
  have hr' : r < rules.size := by simpa using hr'
  rw [Array.getElem_map, Array.getElem_map,
    References.targets_of_layout (h'.layout r _ (Array.getElem?_eq_getElem hr)),
    References.targets_of_layout (h.layout r _ (Array.getElem?_eq_getElem hr')),
    Expr.references_simplify (h.readable r hr').1]

/-- The faults of rules name rules by name and index, which reduction keeps. -/
theorem faultyRules_reduce (hreduce : Reduction.reduce rules = .ok reduced) (analysis : Analysis) :
    analysis.faultyRules reduced = analysis.faultyRules rules := by
  have hkept := Reduction.reduce_eq_ok_iff.1 hreduce
  unfold faultyRules
  generalize rules.toList = olds, reduced.toList = news at hkept ⊢
  generalize analysis.attributes.toList = attributes
  induction hkept generalizing attributes with
  | nil => rfl
  | cons hhead _ ih =>
    obtain ⟨hsame, hindex, -⟩ := hhead
    cases attributes with
    | nil => rfl
    | cons a attributes =>
      simp only [List.zip_cons_cons, List.flatMap_cons, ih, hsame, hindex]

end Analysis

/-- Reduction does not change what analysis finds. The tables of a text without flaws of meaning and
the reduced tables have the same analysis: the same kinds, groups and counts, and the same
attributes of every rule. The same rules are faulty. -/
theorem analyze_reduce {source : Source} {strict : Bool} {recognition : Metagrammar.Recognition}
    (hrecognize : Metagrammar.recognize source strict = .ok recognition)
    (hflaws : (Tables.ofRecognition source recognition).flaws = []) :
    ∃ reduced analysis,
      Reduction.reduce (Tables.ofRecognition source recognition).rules = .ok reduced ∧
      Analysis.analyze (Tables.ofRecognition source recognition).rules = .ok analysis ∧
      Analysis.analyze reduced = .ok analysis ∧
      analysis.faultyRules reduced =
        analysis.faultyRules (Tables.ofRecognition source recognition).rules := by
  have htabled := tabled_ofRecognition hrecognize hflaws
  obtain ⟨bodies, hbodies, -⟩ := htabled.exists_tabulates
  obtain ⟨reduced, hreduce, hsize, hreduced⟩ := hbodies.reduce
  obtain ⟨analysis, hanalyze⟩ := htabled.exists_analysis
  have hgraph := References.graph_congr (hbodies.map_targets hreduced hsize)
  refine ⟨reduced, analysis, hreduce, hanalyze, ?_, ?_⟩
  · rw [(hbodies.alike hreduced hsize).analyze hgraph, hanalyze]
  · exact Analysis.faultyRules_reduce hreduce analysis

/-- Of the opcodes of `S=[S]` four are dropped, and the analysis stays. -/
theorem analyze_reduce_nested :
    ∃ recognition reduced analysis,
      Metagrammar.recognize (.ofString "S=[S]\n") false = .ok recognition ∧
      (Tables.ofRecognition (.ofString "S=[S]\n") recognition).flaws = [] ∧
      Reduction.reduce (Tables.ofRecognition (.ofString "S=[S]\n") recognition).rules =
        .ok reduced ∧
      opcodeCount reduced <
        opcodeCount (Tables.ofRecognition (.ofString "S=[S]\n") recognition).rules ∧
      Analysis.analyze (Tables.ofRecognition (.ofString "S=[S]\n") recognition).rules =
        .ok analysis ∧
      Analysis.analyze reduced = .ok analysis := by
  have hstages : ((Metagrammar.read? (.ofString "S=[S]\n") false).map fun found =>
      let tables := Tables.ofDefinitions (Definition.ofForest (.ofString "S=[S]\n") found.2)
      (found.1, tables.flaws, opcodeCount tables.rules,
        (tables.rules.toList.mapM Reduction.reduceRule).toOption.map fun reduced =>
          opcodeCount reduced.toArray)) =
      some ([], [], 6, some 2) := by
    decide +kernel
  generalize Source.ofString "S=[S]\n" = source at hstages ⊢
  obtain ⟨⟨flaws, nodes⟩, hread, hstages⟩ := Option.map_eq_some_iff.1 hstages
  simp only [Prod.mk.injEq] at hstages
  obtain ⟨rfl, hflaws, hcount, hreduced⟩ := hstages
  obtain ⟨recognition, hrecognize, -, htables⟩ := Metagrammar.ofRecognition_of_read? hread
  rw [← htables] at hflaws hcount hreduced
  obtain ⟨reduced, analysis, hreduce, hanalyze, hsame, -⟩ := analyze_reduce hrecognize hflaws
  refine ⟨recognition, reduced, analysis, hrecognize, hflaws, hreduce, ?_, hanalyze, hsame⟩
  obtain ⟨found, hfound, hreduced⟩ := Option.map_eq_some_iff.1 hreduced
  rw [Reduction.reduce, Array.mapM_eq_mapM_toList, eq_ok_of_toOption hfound] at hreduce
  cases hreduce
  omega

end Abnf
