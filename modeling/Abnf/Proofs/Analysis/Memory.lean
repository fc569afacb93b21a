import Abnf.Proofs.Analysis.Passes

/-!
# Memory is transparent

A walk does not enter a rule again that it has entered along the same path: it takes what it found
then. Over phrases this loses nothing because both walks find the least solutions, whatever had been
recorded in between. Over recursion nothing is recorded during a walk, so that what is found of a
rule depends on the path alone, and what is remembered of a path is what another walk would find.

* `Recursion.walkRuleThrough_eq`: what a walk over recursion finds, however much it sees of its
  memory.
* `Analysis.memory_transparent`: what passes find that never take anything from their memories.
-/

namespace Abnf

/-- Attributes are known when it is known what they say of phrases and of recursion. -/
theorem Attributes.eq_of_parts {a b : Attributes} (hrecursion : a.withPhrases {} = b.withPhrases {})
    (hphrases : a.phrasePart = b.phrasePart) : a = b := by
  cases a
  cases b
  simp_all [withPhrases, phrasePart, ofPhrases]

namespace Walk

/-! ## Attributes of expressions -/

variable {σ : Type} {P Q : Nat → Attributes → Prop}

theorem haveAttributes_of_attributesOfAll {visit : Nat → σ → Except Fault (Attributes × σ)}
    {es : List (Expr Opcode)} {parts : List Attributes} {state state' : σ}
    (hparts : ∀ e ∈ es, ∀ a state state', attributesOf visit e state = .ok (a, state') →
      HasAttributes P e a)
    (h : attributesOfAll visit es state = .ok (parts, state')) : HaveAttributes P es parts := by
  induction es generalizing parts state with
  | nil =>
    cases h
    rfl
  | cons e es ih =>
    obtain ⟨⟨a, inner⟩, ha, h⟩ := exists_of_bind_eq_ok h
    obtain ⟨⟨rest, last⟩, hrest, h⟩ := exists_of_bind_eq_ok h
    cases h
    exact ⟨a, rest, rfl, hparts e (by simp) a _ _ ha, ih (fun e' he' => hparts e' (by simp [he']))
      hrest⟩

/-- The attributes of an expression come from those that were found of the rules in it. -/
theorem hasAttributes_of_attributesOf {visit : Nat → σ → Except Fault (Attributes × σ)}
    {e : Expr Opcode} {a : Attributes} {state state' : σ}
    (h : attributesOf visit e state = .ok (a, state')) :
    HasAttributes (fun t b => ∃ before after, visit t before = .ok (b, after)) e a := by
  induction e using Expr.induction generalizing a state state' with
  | atom op =>
    cases op with
    | rnm t => exact ⟨state, state', h⟩
    | _ =>
      cases h
      rfl
  | alt es ih | cat es ih =>
    obtain ⟨⟨parts, inner⟩, hparts, h⟩ := exists_of_bind_eq_ok h
    cases h
    exact ⟨parts, haveAttributes_of_attributesOfAll (fun e he a _ _ => ih e he) hparts, rfl⟩
  | under op e ih =>
    obtain ⟨⟨b, inner⟩, hb, h⟩ := exists_of_bind_eq_ok h
    cases op with
    | rep min max =>
      cases h
      exact ⟨b, ih hb, rfl⟩
    | _ =>
      cases h
      rfl

theorem HaveAttributes.eq {es : List (Expr Opcode)} {parts parts' : List Attributes}
    (h : ∀ e ∈ es, ∀ a b, HasAttributes P e a → HasAttributes Q e b → a = b)
    (hparts : HaveAttributes P es parts) (hparts' : HaveAttributes Q es parts') :
    parts = parts' := by
  induction es generalizing parts parts' with
  | nil => exact hparts.trans hparts'.symm
  | cons e es ih =>
    obtain ⟨a, rest, rfl, ha, hrest⟩ := hparts
    obtain ⟨b, rest', rfl, hb, hrest'⟩ := hparts'
    rw [h e (by simp) a b ha hb, ih (fun e' he' => h e' (by simp [he'])) hrest hrest']

/-- If no two attributes of a rule differ, then no two attributes of an expression do. -/
theorem HasAttributes.eq {e : Expr Opcode} {a b : Attributes}
    (h : ∀ t a b, P t a → Q t b → a = b) (ha : HasAttributes P e a) (hb : HasAttributes Q e b) :
    a = b := by
  induction e using Expr.induction generalizing a b with
  | atom op =>
    cases op with
    | rnm t => exact h t a b ha hb
    | _ => exact ha.trans hb.symm
  | alt es ih | cat es ih =>
    obtain ⟨parts, hparts, rfl⟩ := ha
    obtain ⟨parts', hparts', rfl⟩ := hb
    rw [hparts.eq (fun e he a b => ih e he) hparts']
  | under op e ih =>
    cases op with
    | rep min max =>
      obtain ⟨a, ha, rfl⟩ := ha
      obtain ⟨b, hb, rfl⟩ := hb
      rw [ih ha hb]
    | _ => exact ha.trans hb.symm

end Walk

namespace Recursion

open Walk Analysis

/-! ## Walks over recursion -/

/-- The view in which nothing is remembered. -/
def forget (_ : Memo) : Memo := {}

theorem isPart_forget (memory : Memo) : IsPart (forget memory) memory := by
  simp [IsPart, forget]

variable {rules : Array Rule} {shapes : Nat → Expr Opcode} {analysis : Analysis} {origin : Nat}
  {view : Memo → Memo}

/-- What a walk knows of a rule without entering it is known whatever is remembered, or is what is
remembered. -/
theorem known?_cases (origin : Nat) (path : List Nat) {rule : Nat} {recorded : Attributes}
    (hrecorded : analysis.attributes[rule]? = some recorded) :
    (∃ a, ∀ memory, (plan analysis origin).known? path rule memory = .ok (some a)) ∨
      rule ∉ path ∧
        ∀ memory, (plan analysis origin).known? path rule memory = .ok memory[rule :: path]? := by
  simp only [plan, fetch_eq_ok.2 hrecorded, bind, Except.bind]
  split
  · exact Or.inl ⟨recorded, fun _ => rfl⟩
  · split
    · exact Or.inl ⟨recorded.phrasePart, fun _ => rfl⟩
    · rename_i hclosed
      simp only [Bool.or_eq_true, List.contains_iff_mem, not_or] at hclosed
      exact Or.inr ⟨hclosed.1, fun _ => rfl⟩

/-- Walks that remember nothing find of a rule, if anything, the attributes `a`. -/
def FindsAlone (rules : Array Rule) (analysis : Analysis) (origin : Nat) (path : List Nat)
    (rule : Nat) (a : Attributes) : Prop :=
  ∀ depth before b after, visitRule rules ((plan analysis origin).through forget) depth path rule
    before = .ok (b, after) → b = a

/-- A walk that remembers what walks that remember nothing find, finds no more itself. -/
theorem guides_through (h : Outlined rules shapes) (hview : ∀ memory, IsPart (view memory) memory)
    (hsize : analysis.attributes.size = rules.size) :
    Guides ((plan analysis origin).through view) rules.size shapes (fun _ _ => True)
      (fun path rule => (plan analysis origin).known? path rule {} = .ok none)
      (fun memory => ∀ (rule : Nat) path a, memory[rule :: path]? = some a →
        FindsAlone rules analysis origin path rule a)
      (FindsAlone rules analysis origin) := by
  refine ⟨?_, fun _ _ _ _ _ => trivial, ?_, ?_⟩
  · intro path rule memory hrule _ hmemory
    have hrecorded := Array.getElem?_eq_getElem (hsize ▸ hrule : rule < analysis.attributes.size)
    -- What the plan knows without memory it knows with any; the rest comes from the part of memory
    -- that the view shows, or from the body.
    rcases known?_cases origin path hrecorded with ⟨a, hknown⟩ | ⟨hnot, hknown⟩
    · refine ⟨some a, hknown _, by simp, by simp, ?_⟩
      rintro a' heq depth before b after hvisit
      cases heq
      cases depth with
      | zero => cases hvisit
      | succ depth =>
        obtain ⟨_, hfound, hvisit⟩ := exists_of_bind_eq_ok hvisit
        cases (hknown _).symm.trans hfound
        cases hvisit
        rfl
    · refine ⟨_, hknown _, fun hmem => absurd hmem hnot, fun _ => ?_, fun a ha => ?_⟩
      · rw [hknown]
        simp
      · exact hmemory rule path a (hview memory _ a ha)
  · intro path rule a hrule _ hknown hbody depth before b after hvisit
    have hget := Array.getElem?_eq_getElem hrule
    cases depth with
    | zero => cases hvisit
    | succ depth =>
      simp only [visitRule, Plan.through, forget, hknown, fetch_eq_ok.2 hget, h.shape rule _ hget,
        bind, Except.bind] at hvisit
      obtain ⟨⟨b, inner⟩, hfound, hvisit⟩ := exists_of_bind_eq_ok hvisit
      cases hvisit
      refine (hasAttributes_of_attributesOf hfound).eq ?_ hbody
      rintro t c c' ⟨before, after, hvisit⟩ hc'
      exact hc' depth before c after hvisit
  · intro path rule a memory _ _ hmemory ha
    exact forall_insert (P := fun rule path b => FindsAlone rules analysis origin path rule b)
      hmemory ha

/-- A walk over recursion finds the same however much it sees of its memory. -/
theorem walkRuleThrough_eq (h : Outlined rules shapes)
    (hview : ∀ memory, IsPart (view memory) memory)
    (hsize : analysis.attributes.size = rules.size) {rule : Nat} (hrule : rule < rules.size) :
    walkRuleThrough view rules analysis rule = walkRule rules analysis rule := by
  have hstart : ∀ view : Memo → Memo, (∀ memory, IsPart (view memory) memory) → ∃ a memory,
      start rules ((plan analysis rule).through view) rule {} = .ok (a, memory) ∧
        FindsAlone rules analysis rule [] rule a := by
    intro view hview
    obtain ⟨a, memory, heq, -, ha, -⟩ :=
      (guides_through h hview hsize).start h.shaped hrule trivial {} (by simp)
    exact ⟨a, memory, heq, ha⟩
  obtain ⟨alone, _, halone, -⟩ := hstart forget isPart_forget
  obtain ⟨a, _, heq, ha⟩ := hstart view hview
  obtain ⟨b, _, heq', hb⟩ := hstart id fun _ _ _ h => h
  have hab : a = b := (ha _ _ _ _ halone).symm.trans (hb _ _ _ _ halone)
  change start rules (plan analysis rule) rule {} = _ at heq'
  simp only [walkRuleThrough, walkRule, heq, heq', hab, bind, Except.bind]

/-- The pass over recursion finds the same however much its walks see of their memories. -/
theorem propagateThrough_eq (h : Outlined rules shapes)
    (hview : ∀ memory, IsPart (view memory) memory)
    (hsize : analysis.attributes.size = rules.size)
    (hclasses : analysis.classes.size = rules.size) :
    propagateThrough view rules analysis = propagate rules analysis := by
  refine foldlM_eq_of_forall (fun analysis => analysis.attributes.size = rules.size)
    (fun r hr before hbefore => ?_) hsize
  refine ⟨walkRuleThrough_eq h hview hbefore ?_, fun after hwalk => ?_⟩
  · exact hclasses ▸ List.mem_range.1 (List.mem_filter.1 hr).1
  · obtain ⟨_, -, hwalk⟩ := exists_of_bind_eq_ok hwalk
    cases hwalk
    simpa using hbefore

end Recursion

namespace Analysis

/-! ## Walks over phrases -/

variable {rules : Array Rule} {shapes : Nat → Expr Opcode} {greatest : Set Nat}
  {classified analysis : Analysis} {past : List Pass}

/-- The pass over phrases finds the same however much its walks see of their memories. -/
theorem Progress.propagateThrough_eq (hshapes : Walk.Outlined rules shapes)
    (hclasses : Classifies rules classified) {view : Phrases.State → Phrases.State}
    (hview : Phrases.Restricts view)
    (h : Progress rules shapes greatest classified past analysis) :
    Phrases.propagateThrough view rules analysis = Phrases.propagate rules analysis := by
  obtain ⟨attributes, heq, hsize, hkept, hexact⟩ := h.propagateThrough hshapes hclasses hview
  obtain ⟨attributes', heq', hsize', hkept', hexact'⟩ :=
    h.propagateThrough hshapes hclasses Phrases.restricts_id
  have hsame : attributes = attributes' := by
    refine Array.ext (hsize.trans hsize'.symm) fun r hr hr' => ?_
    have ha := Array.getElem?_eq_getElem hr
    have hb := Array.getElem?_eq_getElem hr'
    refine Attributes.eq_of_parts ?_ (phrasePart_eq_of_exact hshapes hexact hexact' ha hb)
    have hrecursion := (hkept r).trans (hkept' r).symm
    rwa [ha, hb, Option.map_some, Option.map_some, Option.some_inj] at hrecursion
  rw [heq, hsame, ← heq', Phrases.propagateThrough_id]

/-! ## Passes -/

/-- Runs a pass whose walks never take anything from their memories. -/
def Pass.runForgetting (rules : Array Rule) (analysis : Analysis) : Pass → Except Fault Analysis
  | .phrases => Phrases.propagateThrough Phrases.forget rules analysis
  | .recursion => Recursion.propagateThrough Recursion.forget rules analysis

/-- After any passes, the next one finds the same if it never takes anything from its memory. -/
theorem Progress.runForgetting_eq (hshapes : Walk.Outlined rules shapes)
    (hclasses : Classifies rules classified)
    (h : Progress rules shapes greatest classified past analysis) (pass : Pass) :
    pass.runForgetting rules analysis = pass.run rules analysis := by
  cases pass with
  | phrases => exact h.propagateThrough_eq hshapes hclasses Phrases.restricts_forget
  | recursion =>
    exact Recursion.propagateThrough_eq hshapes Recursion.isPart_forget h.covers.size
      (by rw [h.covers.classes, hclasses.size])

/-- Memory is transparent. Whatever passes are run after classification, they end, and if their
walks never take anything from their memories, all attributes of all rules come out the same. -/
theorem memory_transparent {rules : Array Rule} (h : Ordered rules) :
    ∃ classified analyzed, classify rules = .ok classified ∧ analyze rules = .ok analyzed ∧
      analyzed.attributes.size = rules.size ∧
      [.phrases, .recursion].foldlM (Pass.runForgetting rules) classified = .ok analyzed ∧
      ∀ passes, ∃ found, runPasses rules passes classified = .ok found ∧
        found.attributes.size = rules.size ∧
        passes.foldlM (Pass.runForgetting rules) classified = .ok found := by
  obtain ⟨shapes, classified, greatest, hclassify, hshapes, hclasses, hgreatest, hstart⟩ :=
    exists_progress h
  have hrun : ∀ passes, ∃ found, runPasses rules passes classified = .ok found ∧
      found.attributes.size = rules.size ∧
      passes.foldlM (Pass.runForgetting rules) classified = .ok found := by
    intro passes
    obtain ⟨found, hfound, hprogress⟩ := hstart.run hshapes hclasses hgreatest h passes
    refine ⟨found, hfound, hprogress.covers.size, ?_⟩
    rw [← hfound, runPasses]
    -- Where passes come to, something is known that makes the next pass work without its memory.
    refine foldlM_eq_of_forall (fun analysis =>
      ∃ past, Progress rules shapes greatest classified past analysis) ?_ ⟨[], hstart⟩
    rintro pass - before ⟨past, hbefore⟩
    refine ⟨hbefore.runForgetting_eq hshapes hclasses pass, fun after hpass => ?_⟩
    obtain ⟨after', hrun, hafter⟩ := hbefore.run hshapes hclasses hgreatest h [pass]
    rw [runPasses, List.foldlM_cons, hpass] at hrun
    cases hrun
    exact ⟨_, hafter⟩
  obtain ⟨analyzed, hanalyzed, hsize, hforgetting⟩ := hrun [.phrases, .recursion]
  refine ⟨classified, analyzed, hclassify, ?_, hsize, hforgetting, hrun⟩
  rw [analyze_eq_runPasses, hclassify]
  exact hanalyzed

/-- Three rules, all in one group, that are reached again and again along the same paths. -/
def tangle : Array Rule :=
  #[⟨"a", 0, #[.cat [1, 2, 3], .rnm 1, .rnm 2, .rnm 1]⟩,
    ⟨"b", 1, #[.alt [1, 2, 3], .rnm 2, .tls [120], .rnm 2]⟩,
    ⟨"c", 2, #[.alt [1, 2, 3, 4], .rnm 0, .rnm 1, .tls [], .rnm 0]⟩]

/-- Walks into a tangle may do without their memories. -/
theorem memory_transparent_tangle : Ordered tangle ∧
    ∃ classified analyzed, classify tangle = .ok classified ∧ analyze tangle = .ok analyzed ∧
      [.phrases, .recursion].foldlM (Pass.runForgetting tangle) classified = .ok analyzed := by
  have hordered : Ordered tangle := by decide
  obtain ⟨classified, analyzed, hclassify, hanalyze, -, hforgetting, -⟩ :=
    memory_transparent hordered
  exact ⟨hordered, classified, analyzed, hclassify, hanalyze, hforgetting⟩

end Analysis

end Abnf
