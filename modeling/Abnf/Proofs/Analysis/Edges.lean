import Abnf.Proofs.Analysis.Fixpoint
import Abnf.Proofs.Analysis.Recursion

/-!
# Where rules recur

A rule stands at an edge of an expression if all that comes before it, or all that comes after it,
can be empty. A rule recurs first, or last, just when a chain of rules, each at that edge of the
one before, leads back to it. The walk from a rule looks for chains that pass no rule twice, and
these are enough.

* `Recursion.EdgeAt`, `Recursion.EdgeRef`: rules at the edges of expressions and of rules.
* `Analysis.analyze_exact`: what analysis says of every rule.
-/

namespace Abnf

/-! ## Edges of expressions -/

/-- An end of a phrase. -/
inductive Side where
  | left
  | right
  deriving Repr, DecidableEq

/-- What stands outside of an element in a sequence, on one side of it. -/
def Side.outside {α : Type} (before after : List α) : Side → List α
  | left => before
  | right => after

/-- Whether attributes say that a rule recurs at an end of its phrase. -/
def Attributes.recursAt (a : Attributes) : Side → Bool
  | .left => a.left
  | .right => a.right

namespace Recursion

/-- Rule `t` stands at an edge of the expression at a position, outside of the operands of
look-around operators, where `v` are the rules that can be empty. -/
inductive EdgeAt (side : Side) (opcodes : Array Opcode) (v : Nat → Prop) (t : Nat) : Nat → Prop
  | ref {i : Nat} : opcodes[i]? = some (.rnm t) → EdgeAt side opcodes v t i
  | alt {i c : Nat} {cs : List Nat} : opcodes[i]? = some (.alt cs) → c ∈ cs →
    EdgeAt side opcodes v t c → EdgeAt side opcodes v t i
  | cat {i c : Nat} {before after : List Nat} :
    opcodes[i]? = some (.cat (before ++ c :: after)) →
    (∀ b ∈ side.outside before after, Phrases.Holds .empty opcodes v b) →
    EdgeAt side opcodes v t c → EdgeAt side opcodes v t i
  | rep {i : Nat} {min : UInt32} {max : Option UInt32} : opcodes[i]? = some (.rep min max) →
    EdgeAt side opcodes v t (i + 1) → EdgeAt side opcodes v t i

/-- Rule `t` stands at an edge of rule `r`. -/
def EdgeRef (side : Side) (rules : Array Rule) (v : Nat → Prop) (r t : Nat) : Prop :=
  ∃ rule, rules[r]? = some rule ∧ EdgeAt side rule.opcodes v t 0

variable {side : Side} {opcodes : Array Opcode} {v : Nat → Prop} {t i : Nat}

theorem EdgeAt.mem (h : EdgeAt side opcodes v t i) : .rnm t ∈ opcodes := by
  induction h with
  | ref h => exact Array.mem_of_getElem? h
  | alt _ _ _ ih | cat _ _ _ ih | rep _ _ ih => exact ih

theorem EdgeRef.refersTo {rules : Array Rule} {r : Nat} (h : EdgeRef side rules v r t) :
    Analysis.RefersTo rules r t := by
  obtain ⟨rule, hrule, hedge⟩ := h
  exact ⟨rule, hrule, hedge.mem⟩

/-! ### One equation for each kind of opcode -/

theorem not_edgeAt_of_isPlain {op : Opcode} (h : opcodes[i]? = some op)
    (hplain : op.isPlain = true) :
    ¬ EdgeAt side opcodes v t i := by
  intro hedge
  cases hedge with
  | ref h' | alt h' | cat h' | rep h' =>
    cases h.symm.trans h'
    cases hplain

theorem edgeAt_ref_iff {target : Nat} (h : opcodes[i]? = some (.rnm target)) :
    EdgeAt side opcodes v t i ↔ t = target := by
  constructor
  · intro hedge
    cases hedge with
    | ref h' =>
      cases h.symm.trans h'
      rfl
    | alt h' | cat h' | rep h' => cases h.symm.trans h'
  · rintro rfl
    exact .ref h

theorem edgeAt_alt_iff {cs : List Nat} (h : opcodes[i]? = some (.alt cs)) :
    EdgeAt side opcodes v t i ↔ ∃ c ∈ cs, EdgeAt side opcodes v t c := by
  refine ⟨fun hedge => ?_, fun ⟨c, hc, hedge⟩ => .alt h hc hedge⟩
  cases hedge with
  | alt h' hc hedge =>
    cases h.symm.trans h'
    exact ⟨_, hc, hedge⟩
  | ref h' | cat h' | rep h' => cases h.symm.trans h'

theorem edgeAt_cat_iff {cs : List Nat} (h : opcodes[i]? = some (.cat cs)) :
    EdgeAt side opcodes v t i ↔ ∃ before c after, cs = before ++ c :: after ∧
      (∀ b ∈ side.outside before after, Phrases.Holds .empty opcodes v b) ∧
        EdgeAt side opcodes v t c := by
  constructor
  · intro hedge
    cases hedge with
    | cat h' hempty hedge =>
      cases h.symm.trans h'
      exact ⟨_, _, _, rfl, hempty, hedge⟩
    | ref h' | alt h' | rep h' => cases h.symm.trans h'
  · rintro ⟨before, c, after, rfl, hempty, hedge⟩
    exact .cat h hempty hedge

/-- Nothing that stands behind a part that cannot be empty is at the left edge of a sequence. -/
theorem not_edgeAt_cat {front after : List Nat} {c : Nat}
    (h : opcodes[i]? = some (.cat (front ++ c :: after)))
    (hnone : ∀ d ∈ front ++ [c], ¬ EdgeAt .left opcodes v t d)
    (hnot : ¬ Phrases.Holds .empty opcodes v c) : ¬ EdgeAt .left opcodes v t i := by
  rw [edgeAt_cat_iff h]
  rintro ⟨before, d, behind, heq, hempty, hedge⟩
  rcases List.append_eq_append_iff.1 heq with ⟨gap, rfl, htail⟩ | ⟨gap, rfl, htail⟩
  · cases gap with
    | nil =>
      cases htail
      exact hnone c (by simp) hedge
    | cons b gap =>
      cases htail
      exact hnot (hempty c (by simp [Side.outside]))
  · cases gap with
    | nil =>
      cases htail
      exact hnone c (by simp) hedge
    | cons b gap =>
      cases htail
      exact hnone d (by simp) hedge

theorem not_holds_empty_literal {b : UInt32} {bs : List UInt32}
    (h : opcodes[i]? = some (.tls (b :: bs))) : ¬ Phrases.Holds .empty opcodes v i := by
  rw [Phrases.holds_plain_iff h rfl]
  nofun

/-- A sequence that starts with a literal has no rule at its left edge. -/
theorem not_edgeAt_literal {c : Nat} {cs : List Nat} {b : UInt32} {bs : List UInt32}
    (h : opcodes[i]? = some (.cat (c :: cs))) (hc : opcodes[c]? = some (.tls (b :: bs))) :
    ¬ EdgeAt .left opcodes v t i := by
  have hstart : opcodes[i]? = some (.cat ([] ++ c :: cs)) := h
  exact not_edgeAt_cat hstart (List.forall_mem_singleton.2 (not_edgeAt_of_isPlain hc rfl))
    (not_holds_empty_literal hc)

theorem edgeAt_rep_iff {min : UInt32} {max : Option UInt32}
    (h : opcodes[i]? = some (.rep min max)) :
    EdgeAt side opcodes v t i ↔ EdgeAt side opcodes v t (i + 1) := by
  refine ⟨fun hedge => ?_, .rep h⟩
  cases hedge with
  | rep h' hedge =>
    cases h.symm.trans h'
    exact hedge
  | ref h' | alt h' | cat h' => cases h.symm.trans h'

end Recursion

/-! ## Attributes at edges -/

namespace Attributes

theorem recursAt_ofLeaf (op : Opcode) (side : Side) : (ofLeaf op).recursAt side = false := by
  cases op <;> cases side <;> rfl

theorem recursAt_phrasePart (a : Attributes) (side : Side) :
    a.phrasePart.recursAt side = false := by
  cases side <;> rfl

theorem recursAt_withRecursion (a b : Attributes) (side : Side) :
    (a.withRecursion b).recursAt side = b.recursAt side := by
  cases side <;> rfl

theorem recursAt_alternation (parts : List Attributes) (side : Side) :
    (alternation parts).recursAt side = parts.any (·.recursAt side) := by
  refine apply_alternation (f := (·.recursAt side)) (fun a b => ?_) ?_ parts <;> cases side <;> rfl

theorem recursAt_repeated (min : UInt32) (a : Attributes) (side : Side) :
    (a.repeated min).recursAt side = a.recursAt side := by
  unfold repeated
  split
  · cases side <;> rfl
  · rfl

/-- A part leads if all the parts before it can be empty. -/
theorem leadsWith_iff {α : Type} {flag : Attributes → Bool} {Q R : α → Prop} {cs : List α}
    {parts : List Attributes} (h : List.Forall₂ (fun c b =>
      (b.has .empty = true ↔ Q c) ∧ (flag b = true ↔ R c)) cs parts) :
    leadsWith flag parts = true ↔
      ∃ before c after, cs = before ++ c :: after ∧ (∀ b ∈ before, Q b) ∧ R c := by
  induction h with
  | nil => simp [leadsWith]
  | @cons c b cs parts hhead _ ih =>
    simp only [leadsWith, Bool.or_eq_true, Bool.and_eq_true, hhead.2, ih]
    constructor
    · rintro (hR | ⟨hempty, before, c', after, rfl, hbefore, hR⟩)
      · exact ⟨[], c, cs, rfl, by simp, hR⟩
      · exact ⟨c :: before, c', after, rfl,
          List.forall_mem_cons.2 ⟨hhead.1.1 hempty, hbefore⟩, hR⟩
    · rintro ⟨before, c', after, heq, hbefore, hR⟩
      cases before with
      | nil =>
        cases heq
        exact Or.inl hR
      | cons b' before =>
        cases heq
        obtain ⟨hQ, hbefore⟩ := List.forall_mem_cons.1 hbefore
        exact Or.inr ⟨hhead.1.2 hQ, before, c', after, rfl, hbefore, hR⟩

/-- A sequence recurs at an end if one of its parts does, and the parts outside of it can be
empty. -/
theorem recursAt_concatenation {α : Type} {side : Side} {Q R : α → Prop} {cs : List α}
    {parts : List Attributes} (h : List.Forall₂ (fun c b =>
      (b.has .empty = true ↔ Q c) ∧ (b.recursAt side = true ↔ R c)) cs parts) :
    (concatenation parts).recursAt side = true ↔ ∃ before c after, cs = before ++ c :: after ∧
      (∀ b ∈ side.outside before after, Q b) ∧ R c := by
  cases side with
  | left => exact leadsWith_iff h
  | right =>
    change leadsWith (·.recursAt .right) parts.reverse = true ↔ _
    rw [leadsWith_iff (List.rel_reverse h)]
    constructor
    · rintro ⟨before, c, after, heq, hbefore, hR⟩
      refine ⟨after.reverse, c, before.reverse, ?_, by simpa [Side.outside] using hbefore, hR⟩
      simpa using congrArg List.reverse heq
    · rintro ⟨before, c, after, rfl, hafter, hR⟩
      exact ⟨after.reverse, c, before.reverse, by simp, by simpa [Side.outside] using hafter, hR⟩

end Attributes

namespace Walk

open Recursion

/-- What a walk finds at an edge of an expression is what stands there. -/
theorem AttributesAt.recursAt_iff {P : Nat → Attributes → Prop} {opcodes : Array Opcode}
    {depth i : Nat} {a : Attributes} {side : Side} {v B : Nat → Prop}
    (h : AttributesAt P opcodes depth i a)
    (hP : ∀ t b, P t b → (b.has .empty = true ↔ v t) ∧ (b.recursAt side = true ↔ B t)) :
    a.recursAt side = true ↔ ∃ t, EdgeAt side opcodes v t i ∧ B t := by
  have hempty : ∀ {depth i a}, AttributesAt P opcodes depth i a →
      (a.has .empty = true ↔ Phrases.Holds .empty opcodes v i) :=
    fun h => ⟨h.holds fun t b hb => (hP t b hb).1.1, h.has fun t b hb => (hP t b hb).1.2⟩
  -- In a sequence, what stands outside a part has to be able to be empty, so the walk has to be
  -- right about emptiness too.
  induction h using AttributesAt.induction with
  | leaf hop hplain => simp [Attributes.recursAt_ofLeaf, not_edgeAt_of_isPlain hop hplain]
  | ref hop ht => simp [edgeAt_ref_iff hop, (hP _ _ ht).2]
  | alt hop hparts =>
    rw [Attributes.recursAt_alternation]
    simp only [edgeAt_alt_iff hop]
    constructor
    · intro hany
      obtain ⟨c, hc, t, hedge, ht⟩ := exists_mem_of_any (hparts.imp fun _ _ ⟨_, ih⟩ => ih.1) hany
      exact ⟨t, ⟨c, hc, hedge⟩, ht⟩
    · rintro ⟨t, ⟨c, hc, hedge⟩, ht⟩
      exact any_of_exists_mem (hparts.imp fun _ _ ⟨_, ih⟩ => ih.2) ⟨c, hc, t, hedge, ht⟩
  | cat hop hparts =>
    rw [Attributes.recursAt_concatenation (hparts.imp fun _ _ ⟨h, ih⟩ => ⟨hempty h, ih⟩)]
    simp only [edgeAt_cat_iff hop]
    constructor
    · rintro ⟨before, c, after, heq, houtside, t, hedge, ht⟩
      exact ⟨t, ⟨before, c, after, heq, houtside, hedge⟩, ht⟩
    · rintro ⟨t, ⟨before, c, after, heq, houtside, hedge⟩, ht⟩
      exact ⟨before, c, after, heq, houtside, t, hedge, ht⟩
  | rep hop ih =>
    obtain ⟨_, ih⟩ := ih
    simp only [Attributes.recursAt_repeated, edgeAt_rep_iff hop]
    exact ih

end Walk

/-- What is said of phrases depends on what is recorded of them. -/
theorem Phrases.said_congr {analysis found : Analysis} {aspect : Aspect}
    (h : ∀ r : Nat, analysis.attributes[r]?.map Attributes.phrasePart =
      found.attributes[r]?.map Attributes.phrasePart) :
    said analysis aspect = said found aspect := by
  have hsaid : ∀ (analysis : Analysis) (r : Nat), r ∈ said analysis aspect ↔
      ∃ a, analysis.attributes[r]?.map Attributes.phrasePart = some a ∧ a.has aspect = true := by
    intro analysis r
    simp only [said, Set.mem_ofPred_eq, Option.map_eq_some_iff]
    constructor
    · rintro ⟨a, ha, hhas⟩
      exact ⟨_, ⟨a, ha, rfl⟩, by simpa using hhas⟩
    · rintro ⟨_, ⟨a, ha, rfl⟩, hhas⟩
      exact ⟨a, ha, by simpa using hhas⟩
  ext r
  rw [hsaid, hsaid, h r]

/-! ## The pass -/

namespace Recursion

open Walk Analysis Phrases

/-- What a walk from `origin` finds of a rule: whether it can be empty, and the ways back to the
origin along each edge, if the origin is taken to recur there. -/
structure Exact (rules : Array Rule) (v : Nat → Prop) (assumed : Attributes) (origin : Nat)
    (path : List Nat) (rule : Nat) (a : Attributes) : Prop where
  empty : a.has .empty = true ↔ v rule
  edges : ∀ side, a.recursAt side = true ↔
    assumed.recursAt side = true ∧ Back (EdgeRef side rules v) origin path rule

/-- What is recorded while the pass runs, beside what `found` says of phrases: all recursion at
edges, and nothing else for the rules in `done`. -/
structure Reports (rules : Array Rule) (found : Analysis) (done : Nat → Prop)
    (analysis : Analysis) : Prop where
  classes : analysis.classes = found.classes
  size : analysis.attributes.size = rules.size
  phrases : ∀ r : Nat, analysis.attributes[r]?.map Attributes.phrasePart =
    found.attributes[r]?.map Attributes.phrasePart
  complete : ∀ (r : Nat) a side, analysis.attributes[r]? = some a →
    Relation.TransGen (EdgeRef side rules (· ∈ Phrases.said found .empty)) r r →
      a.recursAt side = true
  sound : ∀ (r : Nat) a side, done r → analysis.attributes[r]? = some a →
    a.recursAt side = true →
      Relation.TransGen (EdgeRef side rules (· ∈ Phrases.said found .empty)) r r

variable {rules : Array Rule} {shapes : Nat → Expr Opcode} {v : Nat → Prop}
  {analysis : Analysis} {origin : Nat} {assumed : Attributes}

theorem back_iff {lead : Nat → Nat → Prop} {path : List Nat} {rule : Nat} (hnot : rule ∉ path) :
    Back lead origin path rule ↔ ∃ t, lead rule t ∧ Back lead origin (rule :: path) t := by
  refine ⟨fun h => ?_, fun ⟨t, hlead, h⟩ => .step hnot hlead h⟩
  cases h with
  | arrived hmem => exact absurd hmem hnot
  | step _ hlead h => exact ⟨_, hlead, h⟩

theorem Exact.arrived {path : List Nat} (hempty : assumed.has .empty = true ↔ v origin)
    (hopen : origin ∈ path) : Exact rules v assumed origin path origin assumed :=
  ⟨hempty, fun side => by simp [Back.arrived hopen]⟩

theorem Exact.cut {path : List Nat} {rule : Nat} {recorded : Attributes}
    (hempty : recorded.has .empty = true ↔ v rule) (hcut : IsCut analysis origin path rule)
    (hreaches : Relation.TransGen (RefersTo rules) rule origin →
      (analysis.classes[rule]?.any (·.reaches origin)) = true) :
    Exact rules v assumed origin path rule recorded.phrasePart := by
  refine ⟨by simpa using hempty, fun side => ?_⟩
  have hnone : ¬ Back (EdgeRef side rules v) origin path rule :=
    hcut.not_back fun hlead => hreaches (hlead.lift id fun _ _ hedge => hedge.refersTo)
  simp [Attributes.recursAt_phrasePart, hnone]

/-- What is found of the body of a rule is found of the rule. -/
theorem Exact.of_body {path : List Nat} {r depth : Nat} {rule : Rule} {a : Attributes}
    (hrule : rules[r]? = some rule) (hnot : r ∉ path) (hsolution : v r ↔ Equation .empty rules v r)
    (hat : AttributesAt (Exact rules v assumed origin (r :: path)) rule.opcodes depth 0 a) :
    Exact rules v assumed origin path r a := by
  refine ⟨?_, fun side => ?_⟩
  · rw [hsolution]
    refine ⟨fun ha => ⟨rule, hrule, hat.holds (fun t b hb => hb.empty.1) ha⟩, ?_⟩
    rintro ⟨rule', hrule', hholds⟩
    cases hrule.symm.trans hrule'
    exact hat.has (fun t b hb => hb.empty.2) hholds
  · rw [hat.recursAt_iff fun t b hb => ⟨hb.empty, hb.edges side⟩, back_iff hnot]
    constructor
    · rintro ⟨t, hedge, hassumed, hback⟩
      exact ⟨hassumed, t, ⟨rule, hrule, hedge⟩, hback⟩
    · rintro ⟨hassumed, t, ⟨rule', hrule', hedge⟩, hback⟩
      cases hrule.symm.trans hrule'
      exact ⟨t, hedge, hassumed, hback⟩

/-- A walk from a rule finds the ways back to it, and nothing else. -/
theorem respects_exact (h : Outlined rules shapes)
    (hsize : analysis.attributes.size = rules.size)
    (hempty : ∀ (r : Nat) a, analysis.attributes[r]? = some a → (a.has .empty = true ↔ v r))
    (hsolution : ∀ r < rules.size, v r ↔ Phrases.Equation .empty rules v r)
    (hreaches : ∀ r, Relation.TransGen (RefersTo rules) r origin →
      (analysis.classes[r]?.any (·.reaches origin)) = true)
    (hassumed : analysis.attributes[origin]? = some assumed) :
    Respects (plan analysis origin) rules.size shapes
      (fun memo => ∀ rule path a, memo[rule :: path]? = some a →
        Exact rules v assumed origin path rule a)
      (Exact rules v assumed origin) := by
  refine respects_of hsize ?_ ?_ ?_
  · intro path recorded hrecorded hopen
    cases hassumed.symm.trans hrecorded
    exact .arrived (hempty origin _ hrecorded) hopen
  · exact fun path rule recorded hrecorded hcut =>
      .cut (hempty rule recorded hrecorded) hcut (hreaches rule)
  · intro path rule a hrule hnot hbody
    have hget := Array.getElem?_eq_getElem hrule
    exact .of_body hget hnot (hsolution rule hrule) ⟨shapes rule, h.shape rule _ hget, hbody⟩

variable {classified found : Analysis} {done : Nat → Prop}

theorem Reports.of_done {done' : Nat → Prop} (hle : ∀ r, done' r → done r)
    (h : Reports rules found done analysis) : Reports rules found done' analysis :=
  ⟨h.classes, h.size, h.phrases, h.complete, fun r a side hr => h.sound r a side (hle r hr)⟩

/-- The pass says the same of phrases as before. -/
theorem Reports.said_eq (h : Reports rules found done analysis) (aspect : Aspect) :
    Phrases.said analysis aspect = Phrases.said found aspect :=
  Phrases.said_congr h.phrases

/-- Walking a rule leaves nothing but its recursion at edges. -/
theorem walkRule_exact (h : Outlined rules shapes) (hclasses : Classifies rules classified)
    (hsame : found.classes = classified.classes)
    (hsolution : Phrases.said found .empty ∈ Phrases.Solutions .empty rules) {rule : Nat}
    (hrule : rule < rules.size) (hreports : Reports rules found done analysis) :
    ∃ analysis', walkRule rules analysis rule = .ok analysis' ∧
      Reports rules found (fun r => r = rule ∨ done r) analysis' := by
  have hrecorded :=
    Array.getElem?_eq_getElem (hreports.size ▸ hrule : rule < analysis.attributes.size)
  have hempty : ∀ (r : Nat) a, analysis.attributes[r]? = some a →
      (a.has .empty = true ↔ r ∈ Phrases.said found .empty) := by
    intro r a ha
    rw [← hreports.said_eq]
    simp [Phrases.said, ha]
  obtain ⟨a, memo, heq, -, ha⟩ := start_spec h.shaped (respects_exact h hreports.size hempty
    hsolution.2 (fun r => hclasses.any_reaches (hreports.classes.trans hsame)) hrecorded) hrule {}
    (by simp)
  -- The walk finds that its start recurs if a way leads back to it and it was taken to recur; where
  -- there is a circle, it was.
  have hexact : ∀ side, a.recursAt side = true ↔ Relation.TransGen
      (EdgeRef side rules (· ∈ Phrases.said found .empty)) rule rule := by
    intro side
    rw [ha.edges side]
    refine ⟨fun hback => hback.2.transGen (by simp), fun hcircle => ⟨?_, back_of_transGen hcircle⟩⟩
    exact hreports.complete rule _ side hrecorded hcircle
  have hget : ∀ (r : Nat) b,
      (analysis.attributes.modify rule fun recorded => recorded.withRecursion a)[r]? = some b →
        (r = rule ∧ ∀ side, b.recursAt side = a.recursAt side) ∨
          (r ≠ rule ∧ analysis.attributes[r]? = some b) := by
    intro r b hb
    obtain ⟨recorded, hrecorded, ⟨rfl, rfl⟩ | ⟨hne, rfl⟩⟩ := getElem?_modify_eq_some hb
    · exact Or.inl ⟨rfl, Attributes.recursAt_withRecursion _ _⟩
    · exact Or.inr ⟨hne, hrecorded⟩
  refine ⟨{ analysis with attributes := analysis.attributes.modify rule fun recorded =>
    recorded.withRecursion a }, ?_, hreports.classes, ?_, fun r => ?_, ?_, ?_⟩
  · simp only [walkRule, heq, bind, Except.bind]
    rfl
  · simpa using hreports.size
  · exact (map_getElem?_modify (fun _ => by rfl) rule r).trans (hreports.phrases r)
  · intro r b side hb hcircle
    rcases hget r b hb with ⟨rfl, hsame⟩ | ⟨-, hb⟩
    · rw [hsame side, hexact side]
      exact hcircle
    · exact hreports.complete r b side hb hcircle
  · intro r b side hr hb hrecurs
    rcases hget r b hb with ⟨rfl, hsame⟩ | ⟨hne, hb⟩
    · rwa [hsame side, hexact side] at hrecurs
    · exact hreports.sound r b side (hr.resolve_left hne) hb hrecurs

/-- The rules that the pass walks. -/
def recursiveRules (analysis : Analysis) : List Nat :=
  (List.range analysis.classes.size).filter fun rule =>
    analysis.classes[rule]?.any fun c => c.kind.isRecursive

theorem mem_recursiveRules_iff (hclasses : Classifies rules classified)
    (hsame : found.classes = classified.classes) {r : Nat} :
    r ∈ recursiveRules found ↔ Relation.TransGen (RefersTo rules) r r := by
  rw [recursiveRules, hsame, List.mem_filter, List.mem_range]
  constructor
  · rintro ⟨-, hr⟩
    obtain ⟨c, hc, hrecursive⟩ := (Option.any_eq_true _ _).1 hr
    exact (hclasses.recursive hc).1 hrecursive
  · intro hcircle
    have hr := hclasses.size ▸ lt_of_reaches hcircle
    have hc := Array.getElem?_eq_getElem hr
    exact ⟨hr, (Option.any_eq_true _ _).2 ⟨_, hc, (hclasses.recursive hc).2 hcircle⟩⟩

/-- The pass ends, and leaves nothing but recursion at edges, if all of it was said before, and none
of the rules that are not recursive. -/
theorem propagate_exact (h : Outlined rules shapes) (hclasses : Classifies rules classified)
    (hsame : found.classes = classified.classes) (hsize : found.attributes.size = rules.size)
    (hsolution : Phrases.said found .empty ∈ Phrases.Solutions .empty rules)
    (hcomplete : ∀ (r : Nat) a side, found.attributes[r]? = some a →
      Relation.TransGen (EdgeRef side rules (· ∈ Phrases.said found .empty)) r r →
        a.recursAt side = true)
    (hrecursive : ∀ (r : Nat) a side, found.attributes[r]? = some a → a.recursAt side = true →
      Relation.TransGen (RefersTo rules) r r) :
    ∃ analysis, propagate rules found = .ok analysis ∧
      Reports rules found (fun _ => True) analysis := by
  have hstart : Reports rules found (fun r => ¬ Relation.TransGen (RefersTo rules) r r) found :=
    ⟨rfl, hsize, fun _ => rfl, hcomplete,
      fun r a side hr ha hrecurs => absurd (hrecursive r a side ha hrecurs) hr⟩
  have hwalk : ∀ r ∈ recursiveRules found, ∀ done analysis,
      (∀ t, ¬ Relation.TransGen (RefersTo rules) t t → done t) →
      Reports rules found done analysis → ∃ analysis', walkRule rules analysis r = .ok analysis' ∧
        Reports rules found (fun t => t = r ∨ done t) analysis' := by
    intro r hr done analysis _ hreports
    have hlt := lt_of_reaches ((mem_recursiveRules_iff hclasses hsame).1 hr)
    exact walkRule_exact h hclasses hsame hsolution hlt hreports
  obtain ⟨analysis, heq, hreports⟩ :=
    foldlM_done (Reports rules found) (fun hle h => h.of_done hle) hwalk hstart
  refine ⟨analysis, heq, hreports.of_done fun r _ => ?_⟩
  rw [mem_recursiveRules_iff hclasses hsame]
  exact Classical.em _

end Recursion

namespace Analysis

open Recursion

/-- Analysis ends. What it says of phrases are solutions of the equations, and it says that a rule
recurs at an edge just when rules at that edge lead back to it. -/
theorem analyze_exact {rules : Array Rule} (h : Ordered rules) :
    ∃ analysis, analyze rules = .ok analysis ∧ analysis.attributes.size = rules.size ∧
      IsLeast (Phrases.Solutions .finite rules) (Phrases.said analysis .finite) ∧
      IsLeast (Phrases.Solutions .notEmpty rules) (Phrases.said analysis .notEmpty) ∧
      IsGreatest (Phrases.Solutions .empty rules) (Phrases.said analysis .empty) ∧
      ∀ (r : Nat) a side, analysis.attributes[r]? = some a → (a.recursAt side = true ↔
        Relation.TransGen (EdgeRef side rules (· ∈ Phrases.said analysis .empty)) r r) := by
  obtain ⟨shapes, hshapes⟩ := Walk.exists_outlined h
  obtain ⟨classified, found, hclassify, hclasses, hphrases, hsame, hsize, hkept, hfinite,
    hnotEmpty, hempty⟩ := Phrases.propagate_solutions h
  have hinitial : ∀ (r : Nat) a side, found.attributes[r]? = some a →
      (a.recursAt side = true ↔ Relation.TransGen (RefersTo rules) r r) := by
    intro r a side ha
    obtain ⟨c, hc⟩ : ∃ c, classified.classes[r]? = some c := ⟨_, Array.getElem?_eq_getElem
      (hclasses.size ▸ hsize ▸ (Array.getElem?_eq_some_iff.1 ha).1)⟩
    have hkept := hkept r
    rw [ha, hclasses.attributes, Array.getElem?_map, hc, Option.map_some, Option.map_some,
      Option.map_some, Option.some_inj] at hkept
    rw [← hclasses.recursive hc]
    cases side with
    | left => exact iff_of_eq (congrArg (·.left = true) hkept)
    | right => exact iff_of_eq (congrArg (·.right = true) hkept)
  obtain ⟨analysis, hrecursion, hreports⟩ :=
    propagate_exact hshapes hclasses hsame hsize hempty.1
      (fun r a side ha hcircle => (hinitial r a side ha).2
        (hcircle.lift id fun _ _ hedge => hedge.refersTo))
      fun r a side ha => (hinitial r a side ha).1
  refine ⟨analysis, ?_, hreports.size, ?_, ?_, ?_, fun r a side ha => ?_⟩
  · simp only [analyze, hclassify, hphrases, hrecursion, bind, Except.bind]
  · rwa [hreports.said_eq]
  · rwa [hreports.said_eq]
  · rwa [hreports.said_eq]
  · rw [hreports.said_eq]
    exact ⟨hreports.sound r a side trivial ha, hreports.complete r a side ha⟩

/-- Analysis is exact about recursion at the ends: a rule is said to recur first, or last, just
when a chain of rules leads back to it in which each stands first, or last, in the one before, up
to parts that are said to be able to be empty. -/
theorem left_right_of_analyze {rules : Array Rule} (h : Ordered rules) :
    ∃ analysis, analyze rules = .ok analysis ∧ analysis.attributes.size = rules.size ∧
      ∀ (r : Nat) a, analysis.attributes[r]? = some a →
        (a.left = true ↔ Relation.TransGen
          (EdgeRef .left rules (· ∈ Phrases.said analysis .empty)) r r) ∧
        (a.right = true ↔ Relation.TransGen
          (EdgeRef .right rules (· ∈ Phrases.said analysis .empty)) r r) := by
  obtain ⟨analysis, hanalyze, hsize, -, -, -, hedges⟩ := analyze_exact h
  exact ⟨analysis, hanalyze, hsize, fun r a ha => ⟨hedges r a .left ha, hedges r a .right ha⟩⟩

/-- Two rules that recur through each other: the first starts with the second, and the second with
the first, behind a part that can be empty. -/
def hiddenCircle : Array Rule :=
  #[⟨"a", 0, #[.alt [1, 4], .cat [2, 3], .rnm 1, .tls [120], .tls [121]]⟩,
    ⟨"b", 1, #[.cat [1, 3], .rep 0 none, .tls [122], .rnm 0]⟩]

/-- The circle is found, though neither rule starts with a reference to itself. -/
theorem left_of_hiddenCircle : Ordered hiddenCircle ∧
    ∃ analysis, analyze hiddenCircle = .ok analysis ∧
      ∃ a, analysis.attributes[0]? = some a ∧ a.left = true := by
  have hordered : Ordered hiddenCircle := by decide
  refine ⟨hordered, ?_⟩
  obtain ⟨analysis, hanalyze, hsize, hexact⟩ := left_right_of_analyze hordered
  obtain ⟨a, ha⟩ : ∃ a, analysis.attributes[0]? = some a :=
    ⟨_, Array.getElem?_eq_getElem (by rw [hsize]; decide)⟩
  refine ⟨analysis, hanalyze, a, ha, ((hexact 0 a ha).1).2 ?_⟩
  have hto : EdgeRef .left hiddenCircle (· ∈ Phrases.said analysis .empty) 0 1 := by
    refine ⟨_, rfl, (edgeAt_alt_iff rfl).2 ⟨1, by simp, (edgeAt_cat_iff rfl).2 ?_⟩⟩
    exact ⟨[], 2, [3], rfl, by simp [Side.outside], .ref rfl⟩
  have hback : EdgeRef .left hiddenCircle (· ∈ Phrases.said analysis .empty) 1 0 := by
    refine ⟨_, rfl, (edgeAt_cat_iff rfl).2 ⟨[1], 3, [], rfl, ?_, .ref rfl⟩⟩
    simpa [Side.outside] using Phrases.Holds.repNone rfl (by simp)
  exact .head hto (.single hback)

end Analysis

end Abnf
