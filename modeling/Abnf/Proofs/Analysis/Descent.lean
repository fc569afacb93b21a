import Abnf.Proofs.Analysis.Flags
import Abnf.Proofs.Analysis.Memory

/-!
# Analysis ends on every pattern of recursion

The passes keep their open rules in a path that they pass down, and bound the depth of their walks
by the size of the table. Their walks are the walks by open flags of two walkers: a walk by paths
that finds something is a walk by flags where the flags of the rules on the path are up. So the
bound is never what ends a walk.

* `Walk.Corresponds.walks`: what a walk by paths finds, the walk by flags finds.
* `Analysis.passes_descend`: the scans of classification and the walks of both passes go down a
  measure, and leave the flags and the path as they were.
-/

namespace Abnf

namespace Walk

open Analysis

/-! ## Walks by paths -/

variable {σ : Type} {rules : Array Rule} {plan : Plan σ} {walker : Walker} {r : Nat}
  {controls : List Nat → σ → Controls}

/-- What a plan and a walker have to do with each other. `controls path state` are the controls when
the rules on `path` are open and the walk by paths has come to `state`. -/
structure Corresponds (rules : Array Rule) (plan : Plan σ) (walker : Walker)
    (controls : List Nat → σ → Controls) : Prop where
  known? : ∀ path r state, r < rules.size → plan.known? path r state =
    (·.or ((controls path state).walked? r)) <$> walker.known? (controls path state) r
  isOpen : ∀ path state, (controls path state).isOpen = flagsOf rules.size path
  attributes : ∀ path state, (controls path state).attributes = (controls [] state).attributes
  entered : ∀ path r state,
    ((controls path state).push r).setOpen r true = controls (r :: path) state
  left : ∀ path r a state, r ∉ path →
    (walker.record ((controls (r :: path) state).setOpen r false) r a).leave a =
      controls path (plan.leave path r a state)

theorem walksAll_of_attributesOfAll {visit : Nat → σ → Except Fault (Attributes × σ)}
    {controls : σ → Controls} {cs : List Nat} {es : List (Expr Opcode)}
    (h : List.Forall₂ (fun c e => ∀ a state state', attributesOf visit e state = .ok (a, state') →
      Walks rules walker (.opcode r c) (controls state) a (controls state')) cs es)
    {state state' : σ} {parts : List Attributes}
    (hfound : attributesOfAll visit es state = .ok (parts, state')) :
    WalksAll rules walker r cs (controls state) parts (controls state') := by
  induction h generalizing state parts with
  | nil =>
    cases hfound
    exact .nil
  | cons hhead _ ih =>
    obtain ⟨⟨a, inner⟩, ha, hfound⟩ := exists_of_bind_eq_ok hfound
    obtain ⟨⟨rest, last⟩, hrest, hfound⟩ := exists_of_bind_eq_ok hfound
    cases hfound
    exact .cons (hhead a _ _ ha) (ih hrest)

/-- The attributes of an expression are found by walking through its opcodes. -/
theorem walks_of_attributesOf {visit : Nat → σ → Except Fault (Attributes × σ)}
    {controls : σ → Controls} {rule : Rule} (hrule : rules[r]? = some rule)
    (hvisit : ∀ t, .rnm t ∈ rule.opcodes → ∀ a state state', visit t state = .ok (a, state') →
      Walks rules walker (.rule t) (controls state) a (controls state'))
    {depth op : Nat} {e : Expr Opcode} (hshape : shapeAt rule.opcodes depth op = .ok e)
    {a : Attributes} {state state' : σ} (hfound : attributesOf visit e state = .ok (a, state')) :
    Walks rules walker (.opcode r op) (controls state) a (controls state') := by
  induction depth generalizing op e a state state' with
  | zero => cases hshape
  | succ depth ih =>
    obtain ⟨found, hfetch, hshape⟩ := exists_of_bind_eq_ok hshape
    have hget := fetch_eq_ok.1 hfetch
    have hop : opcodeAt? rules r op = some found := opcodeAt?_eq_some.2 ⟨rule, hrule, hget⟩
    have hparts : ∀ {cs es}, cs.mapM (shapeAt rule.opcodes depth) = .ok es →
        ∀ {parts state state'}, attributesOfAll visit es state = .ok (parts, state') →
        WalksAll rules walker r cs (controls state) parts (controls state') := fun hes =>
      walksAll_of_attributesOfAll <| (mapM_eq_ok_iff.1 hes).imp fun _ _ hshape _ _ _ => ih hshape
    cases found with
    | alt cs =>
      obtain ⟨es, hes, rfl⟩ := exists_of_map_eq_ok hshape
      obtain ⟨⟨parts, inner⟩, hall, hfound⟩ := exists_of_bind_eq_ok hfound
      cases hfound
      exact .alt hop (hparts hes hall)
    | cat cs =>
      obtain ⟨es, hes, rfl⟩ := exists_of_map_eq_ok hshape
      obtain ⟨⟨parts, inner⟩, hall, hfound⟩ := exists_of_bind_eq_ok hfound
      cases hfound
      exact .cat hop (hparts hes hall)
    | rep min max =>
      obtain ⟨e, he, rfl⟩ := exists_of_map_eq_ok hshape
      obtain ⟨⟨b, inner⟩, hb, hfound⟩ := exists_of_bind_eq_ok hfound
      cases hfound
      exact .rep hop (ih he hb)
    | rnm t =>
      cases hshape
      exact .reference hop (hvisit t (Array.mem_of_getElem? hget) a state state' hfound)
    | _ =>
      cases hshape
      cases hfound
      exact .leaf hop rfl

theorem Corresponds.not_mem (h : Corresponds rules plan walker controls) {path : List Nat} {r : Nat}
    (hr : r < rules.size) {state : σ} (hknown : walker.known? (controls path state) r = .ok none) :
    r ∉ path := by
  have hclosed := walker.closed _ r hknown
  rw [h.isOpen, getElem?_flagsOf, if_pos hr] at hclosed
  simpa using hclosed

/-- What a walk by paths finds, the walk by flags finds, and the state that the one comes to is the
state that the other comes to. -/
theorem Corresponds.walks (h : Corresponds rules plan walker controls) (hordered : Ordered rules)
    {depth r : Nat} {path : List Nat} (hr : r < rules.size) {a : Attributes} {state state' : σ}
    (hvisit : visitRule rules plan depth path r state = .ok (a, state')) :
    Walks rules walker (.rule r) (controls path state) a (controls path state') := by
  induction depth generalizing path r a state state' with
  | zero => cases hvisit
  | succ depth ih =>
    obtain ⟨found, hfound, hvisit⟩ := exists_of_bind_eq_ok hvisit
    rw [h.known? path r state hr] at hfound
    obtain ⟨known, hknown, rfl⟩ := exists_of_map_eq_ok hfound
    cases known with
    | some b =>
      cases hvisit
      exact .known hknown
    | none =>
      have henter := (controls path state).enter_eq r
      simp only [Option.none_or] at hvisit
      cases hwalked : (controls path state).walked? r with
      | some b =>
        rw [hwalked] at hvisit henter
        cases hvisit
        exact .remembered hknown henter
      | none =>
        rw [hwalked] at hvisit henter
        obtain ⟨rule, hfetch, hvisit⟩ := exists_of_bind_eq_ok hvisit
        obtain ⟨e, hshape, hvisit⟩ := exists_of_bind_eq_ok hvisit
        obtain ⟨⟨b, last⟩, hfound, hvisit⟩ := exists_of_bind_eq_ok hvisit
        cases hvisit
        have hrule := fetch_eq_ok.1 hfetch
        have hnot := h.not_mem hr hknown
        have hbody : Walks rules walker (.opcode r 0) (controls (r :: path) state) b
            (controls (r :: path) last) := by
          refine walks_of_attributesOf hrule ?_ hshape hfound
          intro t ht c before after hvisit
          exact ih (hordered.inRange rule (Array.mem_of_getElem? hrule) t ht) hvisit
        rw [← h.left path r b last hnot]
        exact .entered hknown henter (h.entered path r state ▸ hbody)

/-- Nothing is asked of a plan that corresponds to a walker but that every rule has its record. -/
theorem Corresponds.guides (h : Corresponds rules plan walker controls) (shapes : Nat → Expr Opcode) :
    Guides plan rules.size shapes (fun _ _ => True) (fun path r => r ∉ path)
      (fun state => (controls [] state).attributes.size = rules.size) fun _ _ _ => True where
  known path r state hr _ hsize := by
    obtain ⟨known, hknown⟩ :=
      walker.answers (controls path state) r (by rw [h.attributes, hsize]; exact hr)
    have hplan := h.known? path r state hr
    rw [hknown] at hplan
    refine ⟨_, hplan, fun hmem => ?_, fun hnone => ?_, fun _ _ => trivial⟩
    · cases known with
      | none => exact absurd hmem (h.not_mem hr hknown)
      | some => rfl
    · exact h.not_mem hr (by rw [hknown, (Option.or_eq_none_iff.1 hnone).1])
  along _ _ _ _ _ := trivial
  body _ _ _ _ _ _ _ := trivial
  leave path r a state _ hnot hsize _ := by
    rw [← h.attributes path, ← h.left path r a state hnot]
    exact (walker.size_record _ r a).trans (h.attributes (r :: path) state ▸ hsize)

/-- A walk by paths ends, and is the walk by flags. -/
theorem Corresponds.exists_walks (h : Corresponds rules plan walker controls)
    (hordered : Ordered rules) {r : Nat} (hr : r < rules.size) {state : σ}
    (hsize : (controls [] state).attributes.size = rules.size) :
    ∃ a state', start rules plan r state = .ok (a, state') ∧
      Walks rules walker (.rule r) (controls [] state) a (controls [] state') := by
  obtain ⟨shapes, hshapes⟩ := exists_outlined hordered
  obtain ⟨a, state', hstart, -⟩ :=
    (h.guides shapes).start hshapes.shaped hr trivial state hsize
  exact ⟨a, state', hstart, h.walks hordered hr hstart⟩

end Walk

/-! ## The walker over phrases -/

namespace Phrases

open Walk Analysis

/-- The walker of the pass over phrases. A rule that is open or complete counts for what is recorded
of it. -/
def walker : Walker where
  known? controls r := do
    let recorded ← fetch controls.attributes r
    if controls.isOpen[r]?.getD false || controls.complete[r]?.getD false then
      return some recorded.phrasePart
    else
      return none
  record controls r a :=
    { controls with
      attributes := controls.attributes.modify r fun recorded => recorded.withPhrases a
      complete := if controls.branches.isNone then controls.complete.setIfInBounds r true
        else controls.complete }
  closed controls r h hopen := by
    obtain ⟨recorded, -, h⟩ := exists_of_bind_eq_ok h
    simp [hopen, pure, Except.pure] at h
  answers controls r hr := by
    simp only [fetch_eq_ok.2 (Array.getElem?_eq_getElem hr), bind, Except.bind]
    split
    · exact ⟨_, rfl⟩
    · exact ⟨_, rfl⟩
  isOpen_record _ _ _ := rfl
  branches_record _ _ _ := rfl
  size_record _ _ _ := Array.size_modify

/-- The controls when the rules on a path are open. -/
def controls (size : Nat) (path : List Nat) (state : State) : Controls where
  isOpen := flagsOf size path
  complete := state.complete
  attributes := state.attributes
  branches := state.memo.map (Branches.mk path)

/-- The walks of the pass are those of the walker. -/
theorem corresponds (rules : Array Rule) :
    Corresponds rules plan walker (controls rules.size) where
  known? path r state hr := by
    have hflag : (flagsOf rules.size path)[r]?.getD false = path.contains r := by
      rw [getElem?_flagsOf, if_pos hr, Option.getD_some]
    simp only [plan, walker, controls, hflag]
    cases fetch state.attributes r with
    | error => rfl
    | ok recorded =>
      simp only [bind, Except.bind]
      split
      · rfl
      · simp only [Controls.walked?, Option.bind_map]
        rfl
  isOpen _ _ := rfl
  attributes _ _ := rfl
  entered path r state := by
    simp only [controls, Controls.push, Controls.setOpen, setIfInBounds_flagsOf_true,
      Option.map_map]
    rfl
  left path r a state hnot := by
    simp only [controls, walker, Controls.setOpen, Controls.leave, plan,
      setIfInBounds_flagsOf_false hnot, Option.map_map, Option.isNone_map]
    rfl

end Phrases

/-! ## The walker over recursion -/

namespace Recursion

open Walk Analysis

/-- The walker that looks for ways back to `origin`. The origin, when it is reached again, counts
for all that is recorded of it; a rule that is open, or that does not reach the origin, counts for
its phrases. -/
def walker (classes : Array RuleClass) (origin : Nat) : Walker where
  known? controls r := do
    let recorded ← fetch controls.attributes r
    let isOpen := controls.isOpen[r]?.getD false
    if r == origin && isOpen then
      return some recorded
    else if isOpen || !classes[r]?.any (·.reaches origin) then
      return some recorded.phrasePart
    else
      return none
  record controls _ _ := controls
  closed controls r h hopen := by
    obtain ⟨recorded, -, h⟩ := exists_of_bind_eq_ok h
    simp only [hopen, Option.getD_some, Bool.and_true, Bool.true_or, if_true] at h
    split at h <;> cases h
  answers controls r hr := by
    simp only [fetch_eq_ok.2 (Array.getElem?_eq_getElem hr), bind, Except.bind]
    split
    · exact ⟨_, rfl⟩
    · split
      · exact ⟨_, rfl⟩
      · exact ⟨_, rfl⟩
  isOpen_record _ _ _ := rfl
  branches_record _ _ _ := rfl
  size_record _ _ _ := rfl

/-- The controls when the rules on a path are open. No walk looks at the completion flags. -/
def controls (size : Nat) (attributes : Array Attributes) (complete : Array Bool)
    (path : List Nat) (memo : Memo) : Controls where
  isOpen := flagsOf size path
  complete := complete
  attributes := attributes
  branches := some ⟨path, memo⟩

/-- The walks of the pass are those of the walker. -/
theorem corresponds (rules : Array Rule) (analysis : Analysis) (origin : Nat)
    (complete : Array Bool) :
    Corresponds rules (plan analysis origin) (walker analysis.classes origin)
      (controls rules.size analysis.attributes complete) where
  known? path r memo hr := by
    have hflag : (flagsOf rules.size path)[r]?.getD false = path.contains r := by
      rw [getElem?_flagsOf, if_pos hr, Option.getD_some]
    simp only [plan, walker, controls, hflag]
    cases fetch analysis.attributes r with
    | error => rfl
    | ok recorded =>
      simp only [bind, Except.bind]
      split
      · rfl
      · split
        · rfl
        · rfl
  isOpen _ _ := rfl
  attributes _ _ := rfl
  entered path r memo := by
    simp only [controls, Controls.push, Controls.setOpen, setIfInBounds_flagsOf_true]
    rfl
  left path r a memo hnot := by
    simp only [controls, walker, Controls.setOpen, Controls.leave, plan,
      setIfInBounds_flagsOf_false hnot]
    rfl

end Recursion

/-! ## Analysis -/

namespace Analysis

open Walk

/-- Analysis ends on every pattern of recursion. The calls of a scan have ever fewer rules to scan,
or as many and fewer opcodes to look at. The calls of the walks of both passes, whichever flags are
up and whatever is remembered, have ever fewer rules to open, or as many and fewer opcodes to look
at, and every walk leaves the open flags and the path as they were. The counts of classification are
those of such scans, and what the passes start, from whatever is known by then, are such walks. -/
theorem passes_descend {rules : Array Rule} (h : Ordered rules) :
    Scan.Descends rules ∧ Walk.Descends rules Phrases.walker ∧
      (∀ classes origin, Walk.Descends rules (Recursion.walker classes origin)) ∧
      (∃ classified analyzed, classify rules = .ok classified ∧ analyze rules = .ok analyzed ∧
        ∀ (r : Nat) c, classified.classes[r]? = some c →
          ∃ scanned, Scan.Scans rules (.rule r) (.fresh rules.size) ⟨scanned, c.counts⟩) ∧
      ∀ r < rules.size,
        (∀ state : Phrases.State, state.attributes.size = rules.size →
          ∃ a state', start rules Phrases.plan r state = .ok (a, state') ∧
            Walks rules Phrases.walker (.rule r) (Phrases.controls rules.size [] state) a
              (Phrases.controls rules.size [] state')) ∧
        ∀ analysis : Analysis, analysis.attributes.size = rules.size → ∀ origin complete memo,
          ∃ a memo', start rules (Recursion.plan analysis origin) r memo = .ok (a, memo') ∧
            Walks rules (Recursion.walker analysis.classes origin) (.rule r)
              (Recursion.controls rules.size analysis.attributes complete [] memo) a
              (Recursion.controls rules.size analysis.attributes complete [] memo') := by
  refine ⟨Scan.descends h, Walk.descends h _, fun _ _ => Walk.descends h _, ?_, fun r hr => ?_⟩
  · obtain ⟨shapes, classified, greatest, hclassify, hshapes, hclasses, hgreatest, hstart⟩ :=
      exists_progress h
    obtain ⟨analyzed, hanalyzed, -⟩ :=
      hstart.run hshapes hclasses hgreatest h [.phrases, .recursion]
    refine ⟨classified, analyzed, hclassify, ?_, fun r c hc => ?_⟩
    · rw [analyze_eq_runPasses, hclassify]
      exact hanalyzed
    · exact Scan.exists_scans_of_classify h hclassify hc
  · exact ⟨fun state hsize => (Phrases.corresponds rules).exists_walks h hr hsize,
      fun analysis hsize origin complete memo =>
        (Recursion.corresponds rules analysis origin complete).exists_walks h hr hsize⟩

/-- Three rules that all reach each other: a scan of the first names them eight times in all and
scans each of them once, and a walk into it comes back. -/
theorem passes_descend_tangle : Ordered tangle ∧
    (∃ scanned, Scan.Scans tangle (.rule 0) (.fresh 3) ⟨scanned, #[2, 3, 3]⟩) ∧
    ∃ a state, Walks tangle Phrases.walker (.rule 0)
      (Phrases.controls 3 [] ⟨#[{}, {}, {}], #[false, false, false], some {}⟩) a
      (Phrases.controls 3 [] state) := by
  have hordered : Ordered tangle := by decide
  obtain ⟨-, -, -, ⟨classified, -, hclassify, -, hscans⟩, hwalks⟩ := passes_descend hordered
  refine ⟨hordered, ?_, ?_⟩
  · have hcounts : (classify tangle).toOption.bind (fun c => c.classes[0]?.map RuleClass.counts) =
        some #[2, 3, 3] := by decide +kernel
    rw [hclassify] at hcounts
    obtain ⟨c, hc, hcounts⟩ := Option.map_eq_some_iff.1 hcounts
    exact hcounts ▸ hscans 0 c hc
  · obtain ⟨a, state, -, hwalk⟩ := (hwalks 0 (by decide)).1
      ⟨#[{}, {}, {}], #[false, false, false], some {}⟩ rfl
    exact ⟨a, state, hwalk⟩

end Analysis

end Abnf
