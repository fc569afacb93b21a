import Abnf.Proofs.Analysis.Cycles
import Abnf.Proofs.Reordering

/-!
# Sequences of passes

The two passes may be run in any order and as often as one likes. Each of them reads what the passes
before it have left, and takes it for granted of the rules that are open. What is left never misses
anything that is true of a rule: before the phrases are known too many rules are taken to be empty,
and so too much recursion is found, but none is lost. Cycles are the same whichever rules can be
empty.

* `Analysis.Covers`: what a pass over recursion keeps.
* `Analysis.Progress`: what is known after some passes.
* `Analysis.passes_stabilise`: what any sequence of passes ends in.
-/

namespace Abnf

/-! ## What attributes say of recursion -/

namespace Attributes

/-- The attributes that say where a rule recurs, but for nested recursion. -/
def recursionPart (a : Attributes) : Attributes :=
  { left := a.left, right := a.right, cyclic := a.cyclic }

@[simp] theorem recursionPart_withPhrases (a b : Attributes) :
    (a.withPhrases b).recursionPart = a.recursionPart := rfl

theorem recursionPart_eq_iff {a b : Attributes} : a.recursionPart = b.recursionPart ↔
    a.left = b.left ∧ a.right = b.right ∧ a.cyclic = b.cyclic := by
  simp [recursionPart]

theorem recursAt_eq_of_recursionPart {a b : Attributes} (h : a.recursionPart = b.recursionPart)
    (side : Side) : a.recursAt side = b.recursAt side := by
  obtain ⟨hleft, hright, -⟩ := recursionPart_eq_iff.1 h
  cases side with
  | left => exact hleft
  | right => exact hright

/-- Faults do not show nested recursion, nor what else phrases are than finite. -/
theorem faults_eq {a b : Attributes} (hphrases : a.phrasePart = b.phrasePart)
    (hrecursion : a.recursionPart = b.recursionPart) : a.faults = b.faults := by
  obtain ⟨hleft, -, hcyclic⟩ := recursionPart_eq_iff.1 hrecursion
  have hfinite : a.finite = b.finite := (Attributes.mk.inj hphrases).2.2.2.2.1
  rw [faults, faults, hfinite, hleft, hcyclic]

/-- A sequence recurs at an end if a part does, and the parts outside of it can be empty. -/
theorem recursAt_concatenation_iff (side : Side) (parts : List Attributes) :
    (concatenation parts).recursAt side = true ↔ ∃ before a after, parts = before ++ a :: after ∧
      (∀ b ∈ side.outside before after, b.has .empty = true) ∧ a.recursAt side = true :=
  recursAt_concatenation (List.forall₂_same.2 fun _ _ => ⟨Iff.rfl, Iff.rfl⟩)

theorem recursAt_concatenation_of {side : Side} {a : Attributes}
    {parts before after : List Attributes} (hparts : parts = before ++ a :: after)
    (houtside : ∀ b ∈ side.outside before after, b.has .empty = true)
    (ha : a.recursAt side = true) : (concatenation parts).recursAt side = true :=
  (recursAt_concatenation_iff side parts).2 ⟨before, a, after, hparts, houtside, ha⟩

end Attributes

/-! ## Ways along an edge -/

namespace Walk

variable {P : Nat → Attributes → Prop} {opcodes : Array Opcode} {depth i t : Nat} {a : Attributes}
  {side : Side} {v B : Nat → Prop}

open Recursion

/-- An expression with a rule at its edge recurs there, if the rule does, whatever else it is that
recurs or can be empty. -/
theorem AttributesAt.recursAt_of_edge (h : AttributesAt P opcodes depth i a)
    (hempty : ∀ t b, P t b → v t → b.has .empty = true)
    (hedges : ∀ t b, P t b → B t → b.recursAt side = true)
    (hedge : EdgeAt side opcodes v t i) (ht : B t) : a.recursAt side = true := by
  induction hedge generalizing depth a with
  | ref hop => exact hedges t a (h.of_ref hop) ht
  | alt hop hc _ ih =>
    obtain ⟨d, parts, hparts, rfl⟩ := h.of_alt hop
    rw [Attributes.recursAt_alternation]
    refine any_of_exists_mem (Q := fun c => ∀ {d b}, AttributesAt P opcodes d c b →
      b.recursAt side = true) (hparts.imp fun c b hb hfound => hfound hb) ⟨_, hc, ih⟩
  | @cat i c before after hop houtside _ ih =>
    obtain ⟨d, parts, hparts, rfl⟩ := h.of_cat hop
    obtain ⟨before', b, after', heq, hbefore, hb, hafter⟩ := exists_split_of_forall₂ hparts
    refine Attributes.recursAt_concatenation_of heq ?_ (ih hb)
    have hall : ∀ {cs : List Nat} {bs : List Attributes},
        List.Forall₂ (AttributesAt P opcodes d) cs bs →
        (∀ c ∈ cs, Phrases.Holds .empty opcodes v c) → ∀ b ∈ bs, b.has .empty = true :=
      fun hbs hholds => List.all_eq_true.1
        (all_of_forall_mem (hbs.imp fun c b hb => hb.has hempty) hholds)
    cases side with
    | left => exact hall hbefore houtside
    | right => exact hall hafter houtside
  | rep hop _ ih =>
    obtain ⟨d, b, hb, rfl⟩ := h.of_rep hop
    rw [Attributes.recursAt_repeated]
    exact ih hb

end Walk

namespace Recursion

open Walk Analysis Phrases

variable {rules : Array Rule} {shapes : Nat → Expr Opcode} {v : Nat → Prop} {origin : Nat}
  {analysis : Analysis}

/-- What a walk from `origin` finds of a rule, at the least: that it can be empty, and the ways back
to the origin along each edge, if the origin does recur there. -/
structure FindsEdges (rules : Array Rule) (v : Nat → Prop) (origin : Nat) (path : List Nat)
    (rule : Nat) (a : Attributes) : Prop where
  empty : v rule → a.has .empty = true
  edges : ∀ side, Relation.TransGen (EdgeRef side rules v) origin origin →
    Back (EdgeRef side rules v) origin path rule → a.recursAt side = true

/-- A walk misses no way back, if nothing is missed of what is taken for granted. -/
theorem respects_edges (h : Outlined rules shapes)
    (hsize : analysis.attributes.size = rules.size)
    (hempty : ∀ (r : Nat) a, analysis.attributes[r]? = some a → v r → a.has .empty = true)
    (hsupported : ∀ r, v r → Equation .empty rules v r)
    (hreaches : ∀ r, Relation.TransGen (RefersTo rules) r origin →
      (analysis.classes[r]?.any (·.reaches origin)) = true)
    (hassumed : ∀ recorded side, analysis.attributes[origin]? = some recorded →
      Relation.TransGen (EdgeRef side rules v) origin origin → recorded.recursAt side = true) :
    Respects (plan analysis origin) rules.size shapes
      (fun memo => ∀ rule path a, memo[rule :: path]? = some a →
        FindsEdges rules v origin path rule a)
      (FindsEdges rules v origin) := by
  refine respects_of hsize ?_ ?_ ?_
  · intro path recorded hrecorded _
    exact ⟨hempty origin recorded hrecorded,
      fun side hcircle _ => hassumed recorded side hrecorded hcircle⟩
  · intro path rule recorded hrecorded hcut
    refine ⟨by simpa using hempty rule recorded hrecorded, fun side _ hback => absurd hback ?_⟩
    exact hcut.not_back fun hlead => hreaches rule (hlead.lift id fun _ _ hedge => hedge.refersTo)
  · intro path rule a hrule hnot hbody
    have hget := Array.getElem?_eq_getElem hrule
    have hat : AttributesAt (FindsEdges rules v origin (rule :: path)) rules[rule].opcodes
        (rules[rule].opcodes.size + 1) 0 a := ⟨shapes rule, h.shape rule _ hget, hbody⟩
    refine ⟨fun hv => ?_, fun side hcircle hback => ?_⟩
    · obtain ⟨rule', hget', hholds⟩ := hsupported rule hv
      cases hget.symm.trans hget'
      exact hat.has (fun t b hb => hb.empty) hholds
    · obtain ⟨t, ⟨rule', hget', hedge⟩, hback⟩ := (back_iff hnot).1 hback
      cases hget.symm.trans hget'
      exact hat.recursAt_of_edge (fun t b hb => hb.empty)
        (fun t b hb hback => hb.edges side hcircle hback) hedge hback

end Recursion

/-! ## Passes -/

namespace Analysis

/-- The passes that follow classification. -/
inductive Pass where
  /-- Finds which phrases the rules match. -/
  | phrases
  /-- Finds where the rules recur. -/
  | recursion
  deriving Repr, DecidableEq

/-- Runs a pass on what is known so far. -/
def Pass.run (rules : Array Rule) (analysis : Analysis) : Pass → Except Fault Analysis
  | phrases => Phrases.propagate rules analysis
  | recursion => Recursion.propagate rules analysis

/-- Runs passes one after the other. -/
def runPasses (rules : Array Rule) (passes : List Pass) (analysis : Analysis) :
    Except Fault Analysis :=
  passes.foldlM (Pass.run rules) analysis

/-- Analysis runs each pass once, phrases first. -/
theorem analyze_eq_runPasses (rules : Array Rule) :
    analyze rules = classify rules >>= runPasses rules [.phrases, .recursion] := by
  unfold analyze
  cases classify rules with
  | error => rfl
  | ok classified =>
    change Phrases.propagate rules classified >>= _ =
      Phrases.propagate rules classified >>= fun found => Recursion.propagate rules found >>= pure
    simp

/-! ## What passes keep -/

variable {rules : Array Rule} {shapes : Nat → Expr Opcode} {v : Nat → Prop}
  {classified analysis found : Analysis} {done : Nat → Prop}

/-- What is recorded whatever passes have run: what classification found, nothing less of rules that
can be empty and that recur than is true, and no recursion of the other rules. The rules in `done`
have all been walked, and nothing is left of them but the cycles that there are. -/
structure Covers (rules : Array Rule) (v : Nat → Prop) (classified : Analysis) (done : Nat → Prop)
    (analysis : Analysis) : Prop where
  classes : analysis.classes = classified.classes
  groups : analysis.groups = classified.groups
  size : analysis.attributes.size = rules.size
  empty : ∀ (r : Nat) a, analysis.attributes[r]? = some a → v r → a.has .empty = true
  edges : ∀ (r : Nat) a side, analysis.attributes[r]? = some a →
    Relation.TransGen (Recursion.EdgeRef side rules v) r r → a.recursAt side = true
  cycles : ∀ (r : Nat) a, analysis.attributes[r]? = some a →
    Recursion.FoldsTo rules r r → a.cyclic = true
  recursive : ∀ (r : Nat) a, analysis.attributes[r]? = some a →
    (∃ side, a.recursAt side = true) ∨ a.cyclic = true → Relation.TransGen (RefersTo rules) r r
  noOther : ∀ (r : Nat) a, done r → analysis.attributes[r]? = some a → a.cyclic = true →
    Recursion.FoldsTo rules r r

theorem Covers.of_done {done' : Nat → Prop} (hle : ∀ r, done' r → done r)
    (h : Covers rules v classified done analysis) : Covers rules v classified done' analysis :=
  ⟨h.classes, h.groups, h.size, h.empty, h.edges, h.cycles, h.recursive,
    fun r a hr => h.noOther r a (hle r hr)⟩

/-- What is known of recursion does not change with what is known of phrases. -/
theorem Covers.of_kept (h : Covers rules v classified done analysis)
    (hclasses : found.classes = analysis.classes) (hgroups : found.groups = analysis.groups)
    (hsize : found.attributes.size = rules.size)
    (hempty : ∀ (r : Nat) a, found.attributes[r]? = some a → v r → a.has .empty = true)
    (hkept : ∀ r : Nat, found.attributes[r]?.map Attributes.recursionPart =
      analysis.attributes[r]?.map Attributes.recursionPart) :
    Covers rules v classified done found := by
  have hbefore : ∀ (r : Nat) a, found.attributes[r]? = some a →
      ∃ b, analysis.attributes[r]? = some b ∧ a.recursionPart = b.recursionPart := by
    intro r a ha
    have hkept := hkept r
    rw [ha, Option.map_some, eq_comm, Option.map_eq_some_iff] at hkept
    obtain ⟨b, hb, hkept⟩ := hkept
    exact ⟨b, hb, hkept.symm⟩
  exact {
    classes := hclasses.trans h.classes
    groups := hgroups.trans h.groups
    size := hsize
    empty := hempty
    edges := fun r a side ha hcircle => by
      obtain ⟨b, hb, heq⟩ := hbefore r a ha
      rw [Attributes.recursAt_eq_of_recursionPart heq]
      exact h.edges r b side hb hcircle
    cycles := fun r a ha hfolds => by
      obtain ⟨b, hb, heq⟩ := hbefore r a ha
      rw [(Attributes.recursionPart_eq_iff.1 heq).2.2]
      exact h.cycles r b hb hfolds
    recursive := fun r a ha hflag => by
      obtain ⟨b, hb, heq⟩ := hbefore r a ha
      rw [(Attributes.recursionPart_eq_iff.1 heq).2.2] at hflag
      simp only [Attributes.recursAt_eq_of_recursionPart heq] at hflag
      exact h.recursive r b hb hflag
    noOther := fun r a hr ha hflag => by
      obtain ⟨b, hb, heq⟩ := hbefore r a ha
      exact h.noOther r b hr hb ((Attributes.recursionPart_eq_iff.1 heq).2.2 ▸ hflag) }

/-- Classification takes all that may recur to recur in every way. -/
theorem Covers.of_classifies (hordered : Ordered rules) (h : Classifies rules classified) :
    Covers rules v classified (fun _ => False) classified := by
  have hinitial : ∀ (r : Nat) a, classified.attributes[r]? = some a →
      ∃ c, classified.classes[r]? = some c ∧ a = initialAttributes c.kind := by
    intro r a ha
    rw [h.attributes, Array.getElem?_map] at ha
    obtain ⟨c, hc, rfl⟩ := Option.map_eq_some_iff.1 ha
    exact ⟨c, hc, rfl⟩
  exact {
    classes := rfl
    groups := rfl
    size := by rw [h.attributes, Array.size_map, h.size]
    empty := fun r a ha _ => by
      obtain ⟨c, -, rfl⟩ := hinitial r a ha
      rfl
    edges := fun r a side ha hcircle => by
      obtain ⟨c, hc, rfl⟩ := hinitial r a ha
      have hrecursive := (h.recursive hc).2 (hcircle.lift id fun _ _ hedge => hedge.refersTo)
      cases side <;> exact hrecursive
    cycles := fun r a ha hfolds => by
      obtain ⟨c, hc, rfl⟩ := hinitial r a ha
      exact (h.recursive hc).2 (hfolds.reaches hordered)
    recursive := fun r a ha hflag => by
      obtain ⟨c, hc, rfl⟩ := hinitial r a ha
      refine (h.recursive hc).1 ?_
      rcases hflag with ⟨side, hside⟩ | hcyclic
      · cases side <;> exact hside
      · exact hcyclic
    noOther := nofun }

/-- Walking a recursive rule keeps all there is, and leaves no other cycle of the rule. -/
theorem Covers.walkRule (hshapes : Walk.Outlined rules shapes) (hordered : Ordered rules)
    (hclasses : Classifies rules classified)
    (hsupported : ∀ r, v r → Phrases.Equation .empty rules v r) {rule : Nat}
    (hcircle : Relation.TransGen (RefersTo rules) rule rule)
    (h : Covers rules v classified done analysis) :
    ∃ analysis', Recursion.walkRule rules analysis rule = .ok analysis' ∧
      Covers rules v classified (fun r => r = rule ∨ done r) analysis' := by
  have hrule := lt_of_reaches hcircle
  have hreaches : ∀ r, Relation.TransGen (RefersTo rules) r rule →
      (analysis.classes[r]?.any (·.reaches rule)) = true :=
    fun r => hclasses.any_reaches h.classes
  -- One walk, seen twice: what it finds at edges, and what it finds of cycles.
  obtain ⟨a, memo, heq, -, hedges⟩ := Walk.start_spec hshapes.shaped
    (Recursion.respects_edges hshapes h.size h.empty hsupported hreaches
      fun recorded side hrecorded => h.edges rule recorded side hrecorded) hrule {} (by simp)
  obtain ⟨a', memo', heq', -, hcycles⟩ := Walk.start_spec hshapes.shaped
    (Recursion.respects_cycles hshapes hordered h.size hreaches
      fun recorded hrecorded => h.cycles rule recorded hrecorded) hrule {} (by simp)
  cases heq.symm.trans heq'
  have hcyclic : a.cyclic = true ↔ Recursion.FoldsTo rules rule rule := by
    refine ⟨fun ha => (hcycles.sound ha).resolve_left (by simp), fun hfolds => ?_⟩
    obtain ⟨n, hn⟩ := hfolds
    exact hcycles.complete ⟨n, hn⟩ (by simp) n hn (by simp)
  refine ⟨{ analysis with attributes := analysis.attributes.modify rule fun recorded =>
    recorded.withRecursion a }, ?_, ?_⟩
  · simp only [Recursion.walkRule, heq, bind, Except.bind]
    rfl
  exact {
    classes := h.classes
    groups := h.groups
    size := by simpa using h.size
    empty := fun r b hb hv => by
      obtain ⟨recorded, hrecorded, ⟨rfl, rfl⟩ | ⟨-, rfl⟩⟩ := getElem?_modify_eq_some hb
      · exact h.empty r recorded hrecorded hv
      · exact h.empty r b hrecorded hv
    edges := fun r b side hb hedge => by
      obtain ⟨recorded, hrecorded, ⟨rfl, rfl⟩ | ⟨-, rfl⟩⟩ := getElem?_modify_eq_some hb
      · rw [Attributes.recursAt_withRecursion]
        exact hedges.edges side hedge (Recursion.back_of_transGen hedge)
      · exact h.edges r b side hrecorded hedge
    cycles := fun r b hb hfolds => by
      obtain ⟨recorded, hrecorded, ⟨rfl, rfl⟩ | ⟨-, rfl⟩⟩ := getElem?_modify_eq_some hb
      · exact hcyclic.2 hfolds
      · exact h.cycles r b hrecorded hfolds
    recursive := fun r b hb hflag => by
      obtain ⟨recorded, hrecorded, ⟨rfl, rfl⟩ | ⟨-, rfl⟩⟩ := getElem?_modify_eq_some hb
      · exact hcircle
      · exact h.recursive r b hrecorded hflag
    noOther := fun r b hr hb hflag => by
      obtain ⟨recorded, hrecorded, ⟨rfl, rfl⟩ | ⟨hne, rfl⟩⟩ := getElem?_modify_eq_some hb
      · exact hcyclic.1 hflag
      · exact h.noOther r b (hr.resolve_left hne) hrecorded hflag }

/-- The pass over recursion keeps all there is, and leaves no other cycles. -/
theorem Covers.recursion (hordered : Ordered rules) (hclasses : Classifies rules classified)
    (hsupported : ∀ r, v r → Phrases.Equation .empty rules v r)
    (h : Covers rules v classified done analysis) :
    ∃ found, Recursion.propagate rules analysis = .ok found ∧
      Covers rules v classified (fun _ => True) found := by
  obtain ⟨shapes, hshapes⟩ := Walk.exists_outlined hordered
  have hstart : Covers rules v classified (fun r => ¬ Relation.TransGen (RefersTo rules) r r)
      analysis :=
    ⟨h.classes, h.groups, h.size, h.empty, h.edges, h.cycles, h.recursive,
      fun r a hr ha hflag => absurd (h.recursive r a ha (Or.inr hflag)) hr⟩
  have hmem := fun r => Recursion.mem_recursiveRules_iff hclasses h.classes (r := r)
  obtain ⟨found, heq, hcovers⟩ := foldlM_done (Covers rules v classified)
    (fun hle h => h.of_done hle)
    (fun r hr _ _ _ h => h.walkRule hshapes hordered hclasses hsupported ((hmem r).1 hr)) hstart
  refine ⟨found, heq, hcovers.of_done fun r _ => ?_⟩
  rw [hmem r]
  exact Classical.em _

/-- The pass over recursion keeps what is known of phrases. -/
theorem phrasePart_of_recursion (h : Recursion.propagate rules analysis = .ok found) (r : Nat) :
    found.attributes[r]?.map Attributes.phrasePart =
      analysis.attributes[r]?.map Attributes.phrasePart := by
  refine foldlM_keeps (P := fun found : Analysis => found.attributes[r]?.map Attributes.phrasePart =
    analysis.attributes[r]?.map Attributes.phrasePart)
    (fun before rule after hwalk hbefore => ?_) h rfl
  obtain ⟨_, -, hwalk⟩ := exists_of_bind_eq_ok hwalk
  cases hwalk
  exact (map_getElem?_modify (fun _ => by rfl) rule r).trans hbefore

/-! ## Phrases -/

/-- What is said of the phrases of rules is in the least solutions. -/
def SoundOnPhrases (rules : Array Rule) (shapes : Nat → Expr Opcode) (analysis : Analysis) : Prop :=
  ∀ bit F, Phrases.Evaluates rules shapes bit F → (∀ kind, bit (initialAttributes kind) = false) →
    ∀ (r : Nat) a, analysis.attributes[r]? = some a → bit a = true →
      Phrases.InLeast rules.size F r

/-- What is said of the phrases of rules are the least solutions. -/
def ExactOnPhrases (rules : Array Rule) (shapes : Nat → Expr Opcode) (analysis : Analysis) : Prop :=
  ∀ bit F, Phrases.Evaluates rules shapes bit F → (∀ kind, bit (initialAttributes kind) = false) →
    ∀ (r : Nat) a, analysis.attributes[r]? = some a →
      (bit a = true ↔ Phrases.InLeast rules.size F r)

theorem ExactOnPhrases.sound (h : ExactOnPhrases rules shapes analysis) :
    SoundOnPhrases rules shapes analysis :=
  fun bit F heval hinitial r a ha => (h bit F heval hinitial r a ha).1

/-- Nothing is said of phrases before the first pass. -/
theorem soundOnPhrases_of_classifies (h : Classifies rules classified) :
    SoundOnPhrases rules shapes classified := by
  intro bit F _ hinitial r a ha hbit
  rw [h.attributes, Array.getElem?_map] at ha
  obtain ⟨c, -, rfl⟩ := Option.map_eq_some_iff.1 ha
  simp [hinitial] at hbit

variable {greatest : Set Nat}

/-- What is exact on phrases is exact on what can be empty. -/
theorem ExactOnPhrases.said_empty (h : ExactOnPhrases rules shapes analysis)
    (hshapes : Walk.Outlined rules shapes) (hsize : analysis.attributes.size = rules.size)
    (hgreatest : IsGreatest (Phrases.Solutions .empty rules) greatest) :
    Phrases.said analysis .empty = greatest :=
  (Phrases.isGreatest_said hshapes hsize
    (h _ _ (Phrases.evaluates_denial hshapes) fun _ => rfl)).unique hgreatest

theorem phrasePart_eq_of_exact (hshapes : Walk.Outlined rules shapes)
    (h : ExactOnPhrases rules shapes analysis) (h' : ExactOnPhrases rules shapes found) {r : Nat}
    {a b : Attributes} (ha : analysis.attributes[r]? = some a)
    (hb : found.attributes[r]? = some b) : a.phrasePart = b.phrasePart := by
  have hbit : ∀ {bit F}, Phrases.Evaluates rules shapes bit F →
      (∀ kind, bit (initialAttributes kind) = false) → bit a = bit b := fun heval hinitial =>
    Bool.eq_iff_iff.2 ((h _ _ heval hinitial r a ha).trans (h' _ _ heval hinitial r b hb).symm)
  have hfinite := hbit (Phrases.evaluates hshapes .finite) fun _ => rfl
  have hnotEmpty := hbit (Phrases.evaluates hshapes .notEmpty) fun _ => rfl
  have hempty := hbit (Phrases.evaluates_denial hshapes) fun _ => rfl
  simp only [Attributes.has, Bool.not_eq_eq_eq_not, Bool.not_not] at hfinite hnotEmpty hempty
  simp only [Attributes.phrasePart, hfinite, hnotEmpty, hempty]

/-! ## Steps and runs -/

/-- What is known after the passes in `past`: a pass over phrases makes phrases exact, a pass over
recursion makes cycles exact, and it makes recursion at the ends exact if phrases were. -/
structure Progress (rules : Array Rule) (shapes : Nat → Expr Opcode) (greatest : Set Nat)
    (classified : Analysis) (past : List Pass) (analysis : Analysis) : Prop where
  covers : Covers rules (· ∈ greatest) classified (fun _ => .recursion ∈ past) analysis
  sound : SoundOnPhrases rules shapes analysis
  exact : .phrases ∈ past → ExactOnPhrases rules shapes analysis
  edges : [.phrases, .recursion].Sublist past → ∀ (r : Nat) a side,
    analysis.attributes[r]? = some a → a.recursAt side = true →
      Relation.TransGen (Recursion.EdgeRef side rules (· ∈ greatest)) r r

variable {past : List Pass}

theorem sublist_of_append_phrases (h : [.phrases, .recursion].Sublist (past ++ [Pass.phrases])) :
    [.phrases, .recursion].Sublist past := by
  obtain ⟨first, last, hsplit, hfirst, hlast⟩ := List.sublist_append_iff.1 h
  rcases List.sublist_cons_iff.1 hlast with hnil | ⟨rest, rfl, hnil⟩
  · rw [List.sublist_nil.1 hnil, List.append_nil] at hsplit
    rwa [hsplit]
  · rw [List.sublist_nil.1 hnil] at hsplit
    simpa using congrArg List.getLast? hsplit

theorem mem_of_append_recursion (h : [.phrases, .recursion].Sublist (past ++ [Pass.recursion])) :
    .phrases ∈ past := by
  have hmem : .phrases ∈ past ++ [Pass.recursion] := h.subset List.mem_cons_self
  simpa using hmem

section

variable (hshapes : Walk.Outlined rules shapes) (hclasses : Classifies rules classified)
  (hgreatest : IsGreatest (Phrases.Solutions .empty rules) greatest)
include hshapes hclasses

/-- A pass over phrases makes them exact, and keeps what is known of recursion, however much its
walks see of what they remember. -/
theorem Progress.propagateThrough {view : Phrases.State → Phrases.State}
    (hview : Phrases.Restricts view)
    (h : Progress rules shapes greatest classified past analysis) :
    ∃ attributes, Phrases.propagateThrough view rules analysis =
        .ok { analysis with attributes := attributes } ∧ attributes.size = rules.size ∧
      (∀ r : Nat, attributes[r]?.map (·.withPhrases {}) =
        analysis.attributes[r]?.map (·.withPhrases {})) ∧
      ExactOnPhrases rules shapes { analysis with attributes := attributes } := by
  have hsame : { classified with attributes := analysis.attributes } = analysis := by
    rw [← h.covers.classes, ← h.covers.groups]
  have hpass : ∀ {bit F}, Phrases.Evaluates rules shapes bit F →
      (∀ kind, bit (initialAttributes kind) = false) → _ := fun heval hinitial =>
    Phrases.propagateThrough_of_sound hclasses hview heval h.covers.size
      (h.sound _ _ heval hinitial)
  obtain ⟨attributes, heq, hsize, hkept, -⟩ :=
    hpass (Phrases.evaluates hshapes .finite) fun _ => rfl
  refine ⟨attributes, ?_, hsize, hkept, fun bit F heval hinitial => ?_⟩
  · rw [hsame] at heq
    rw [heq, h.covers.classes, h.covers.groups]
  · obtain ⟨attributes', heq', -, -, hexact⟩ := hpass heval hinitial
    cases heq.symm.trans heq'
    exact hexact

include hgreatest

/-- A pass over phrases makes them exact, and keeps what is known of recursion. -/
theorem Progress.phrases (h : Progress rules shapes greatest classified past analysis) :
    ∃ found, Phrases.propagate rules analysis = .ok found ∧
      Progress rules shapes greatest classified (past ++ [.phrases]) found := by
  obtain ⟨attributes, heq, hsize, hkept, hexact⟩ :=
    h.propagateThrough hshapes hclasses Phrases.restricts_id
  have hrecursion : ∀ r : Nat, attributes[r]?.map Attributes.recursionPart =
      analysis.attributes[r]?.map Attributes.recursionPart := fun r => by
    simpa [Function.comp_def] using congrArg (Option.map Attributes.recursionPart) (hkept r)
  have hempty := hexact.said_empty hshapes hsize hgreatest
  refine ⟨_, heq, ?_, hexact.sound, fun _ => hexact, fun hsub r a side ha hflag => ?_⟩
  · refine (h.covers.of_done (by simp)).of_kept rfl rfl hsize (fun r a ha hr => ?_) hrecursion
    rw [← hempty] at hr
    obtain ⟨b, hb, hhas⟩ := hr
    cases ha.symm.trans hb
    exact hhas
  · have hr := hrecursion r
    rw [ha, Option.map_some, eq_comm, Option.map_eq_some_iff] at hr
    obtain ⟨b, hb, hpart⟩ := hr
    rw [← Attributes.recursAt_eq_of_recursionPart hpart] at hflag
    exact h.edges (sublist_of_append_phrases hsub) r b side hb hflag

/-- A pass over recursion makes cycles exact, and recursion at the ends if phrases are. It keeps
what is known of phrases. -/
theorem Progress.recursion (hordered : Ordered rules)
    (h : Progress rules shapes greatest classified past analysis) :
    ∃ found, Recursion.propagate rules analysis = .ok found ∧
      Progress rules shapes greatest classified (past ++ [.recursion]) found := by
  obtain ⟨found, heq, hcovers⟩ := h.covers.recursion hordered hclasses
    fun r hr => (hgreatest.1.2 r (hgreatest.1.1 r hr)).1 hr
  have hbefore : ∀ {bit F}, Phrases.Evaluates rules shapes bit F → ∀ (r : Nat) a,
      found.attributes[r]? = some a → ∃ b, analysis.attributes[r]? = some b ∧ bit a = bit b := by
    intro bit F heval r a ha
    have hkept := phrasePart_of_recursion heq r
    rw [ha, Option.map_some, eq_comm, Option.map_eq_some_iff] at hkept
    obtain ⟨b, hb, hkept⟩ := hkept
    refine ⟨b, hb, ?_⟩
    rw [← heval.phrasePart a, ← heval.phrasePart b, hkept]
  refine ⟨found, heq, hcovers.of_done fun _ _ => trivial, ?_, fun hpast => ?_, fun hsub => ?_⟩
  · intro bit F heval hinitial r a ha hbit
    obtain ⟨b, hb, hsame⟩ := hbefore heval r a ha
    exact h.sound bit F heval hinitial r b hb (hsame ▸ hbit)
  · intro bit F heval hinitial r a ha
    obtain ⟨b, hb, hsame⟩ := hbefore heval r a ha
    rw [hsame]
    exact h.exact (by simpa using hpast) bit F heval hinitial r b hb
  · intro r a side ha hflag
    have hempty := (h.exact (mem_of_append_recursion hsub)).said_empty hshapes h.covers.size
      hgreatest
    obtain ⟨found', heq', hreports⟩ := Recursion.propagate_exact hshapes hclasses h.covers.classes
      h.covers.size (by rw [hempty]; exact hgreatest.1)
      (fun r a side ha hcircle => h.covers.edges r a side ha (by rwa [hempty] at hcircle))
      fun r a side ha hflag => h.covers.recursive r a ha (Or.inl ⟨side, hflag⟩)
    cases heq.symm.trans heq'
    have hcircle := hreports.sound r a side trivial ha hflag
    rwa [hempty] at hcircle

/-- Passes end, and add to what is known. -/
theorem Progress.run (hordered : Ordered rules) (passes : List Pass)
    (h : Progress rules shapes greatest classified past analysis) :
    ∃ found, runPasses rules passes analysis = .ok found ∧
      Progress rules shapes greatest classified (past ++ passes) found := by
  induction passes generalizing past analysis with
  | nil => exact ⟨analysis, rfl, by simpa using h⟩
  | cons pass passes ih =>
    have hstep : ∃ next, pass.run rules analysis = .ok next ∧
        Progress rules shapes greatest classified (past ++ [pass]) next := by
      cases pass with
      | phrases => exact h.phrases hshapes hclasses hgreatest
      | recursion => exact h.recursion hshapes hclasses hgreatest hordered
    obtain ⟨next, heq, hnext⟩ := hstep
    obtain ⟨found, heq', hfound⟩ := ih hnext
    refine ⟨found, ?_, by simpa using hfound⟩
    rw [runPasses, List.foldlM_cons, heq]
    exact heq'

end

/-! ## Where passes end -/

theorem map_eq_of_forall {α β : Type} {f : α → β} {as bs : Array α} (hsize : as.size = bs.size)
    (h : ∀ (r : Nat) a b, as[r]? = some a → bs[r]? = some b → f a = f b) : as.map f = bs.map f := by
  refine Array.ext (by simpa using hsize) fun r hr hr' => ?_
  rw [Array.size_map] at hr hr'
  rw [Array.getElem_map, Array.getElem_map]
  exact h r _ _ (Array.getElem?_eq_getElem hr) (Array.getElem?_eq_getElem hr')

/-- After the same kinds of passes the same is known. -/
theorem Progress.recursionPart_eq {past' : List Pass}
    (h : Progress rules shapes greatest classified past analysis)
    (h' : Progress rules shapes greatest classified past' found)
    (hpast : [.phrases, .recursion].Sublist past) (hpast' : [.phrases, .recursion].Sublist past')
    {r : Nat} {a b : Attributes} (ha : analysis.attributes[r]? = some a)
    (hb : found.attributes[r]? = some b) : a.recursionPart = b.recursionPart := by
  have hmem : ∀ {past : List Pass}, [.phrases, .recursion].Sublist past → .recursion ∈ past :=
    fun hsub => hsub.subset (by simp)
  have hside : ∀ side, a.recursAt side = b.recursAt side := fun side =>
    Bool.eq_iff_iff.2
      ⟨fun hflag => h'.covers.edges r b side hb (h.edges hpast r a side ha hflag),
        fun hflag => h.covers.edges r a side ha (h'.edges hpast' r b side hb hflag)⟩
  have hleft : a.left = b.left := hside .left
  have hright : a.right = b.right := hside .right
  have hcyclic : a.cyclic = b.cyclic := Bool.eq_iff_iff.2
    ⟨fun hflag => h'.covers.cycles r b hb (h.covers.noOther r a (hmem hpast) ha hflag),
      fun hflag => h.covers.cycles r a ha (h'.covers.noOther r b (hmem hpast') hb hflag)⟩
  exact Attributes.recursionPart_eq_iff.2 ⟨hleft, hright, hcyclic⟩

/-- Rules are equally faulty if their attributes show the same faults. -/
theorem faultyRules_congr (rules : Array Rule)
    (h : analysis.attributes.map Attributes.faults = found.attributes.map Attributes.faults) :
    analysis.faultyRules rules = found.faultyRules rules := by
  have hzip : ∀ analysis : Analysis, analysis.faultyRules rules =
      (rules.toList.zip (analysis.attributes.map Attributes.faults).toList).flatMap
        fun (rule, faults) => faults.map fun fault => ⟨rule.name, rule.index, fault⟩ := by
    intro analysis
    rw [Array.toList_map, List.zip_map_right, List.flatMap_map]
    rfl
  rw [hzip, hzip, h]

/-- The passes have something to start from: what classification found. -/
theorem exists_progress (h : Ordered rules) :
    ∃ shapes classified greatest, classify rules = .ok classified ∧
      Walk.Outlined rules shapes ∧ Classifies rules classified ∧
      IsGreatest (Phrases.Solutions .empty rules) greatest ∧
      Progress rules shapes greatest classified [] classified := by
  obtain ⟨shapes, hshapes⟩ := Walk.exists_outlined h
  obtain ⟨classified, found, hclassify, hclasses, -, -, -, -, -, -, hgreatest⟩ :=
    Phrases.propagate_solutions h
  exact ⟨shapes, classified, _, hclassify, hshapes, hclasses, hgreatest,
    (Covers.of_classifies h hclasses).of_done (by simp), soundOnPhrases_of_classifies hclasses,
    by simp, by simp⟩

/-- Any sequence of passes after classification ends, and keeps classes and groups. From the first
pass over phrases on, what is known of phrases is what analysis finds; and once a pass over
recursion has followed one, what is known of recursion, but for nested recursion, and of faulty
rules is what analysis finds, whatever passes come later. -/
theorem passes_stabilise {rules : Array Rule} (h : Ordered rules) :
    ∃ classified analyzed, classify rules = .ok classified ∧ analyze rules = .ok analyzed ∧
      ∀ passes, ∃ found, runPasses rules passes classified = .ok found ∧
        found.classes = classified.classes ∧ found.groups = classified.groups ∧
        (.phrases ∈ passes →
          found.attributes.map Attributes.phrasePart =
            analyzed.attributes.map Attributes.phrasePart) ∧
        ([.phrases, .recursion].Sublist passes →
          found.attributes.map Attributes.recursionPart =
              analyzed.attributes.map Attributes.recursionPart ∧
            found.faultyRules rules = analyzed.faultyRules rules) := by
  obtain ⟨shapes, hshapes⟩ := Walk.exists_outlined h
  obtain ⟨classified, first, hclassify, hclasses, -, -, -, -, -, -, hgreatest⟩ :=
    Phrases.propagate_solutions h
  have hstart : Progress rules shapes (Phrases.said first .empty) classified [] classified :=
    ⟨(Covers.of_classifies h hclasses).of_done (by simp), soundOnPhrases_of_classifies hclasses,
      by simp, by simp⟩
  -- Analysis is one of these sequences of passes itself, so it makes the same progress.
  have hrun := fun passes => hstart.run hshapes hclasses hgreatest h passes
  obtain ⟨analyzed, hanalyzed, hprogress⟩ := hrun [.phrases, .recursion]
  refine ⟨classified, analyzed, hclassify, ?_, fun passes => ?_⟩
  · rw [analyze_eq_runPasses, hclassify]
    exact hanalyzed
  · obtain ⟨found, hfound, hprogress'⟩ := hrun passes
    rw [List.nil_append] at hprogress hprogress'
    have hsize := hprogress'.covers.size.trans hprogress.covers.size.symm
    have hphrases : .phrases ∈ passes → ∀ (r : Nat) a b, found.attributes[r]? = some a →
        analyzed.attributes[r]? = some b → a.phrasePart = b.phrasePart := fun hpast r a b ha hb =>
      phrasePart_eq_of_exact hshapes (hprogress'.exact hpast) (hprogress.exact (by simp)) ha hb
    refine ⟨found, hfound, hprogress'.covers.classes, hprogress'.covers.groups,
      fun hpast => map_eq_of_forall hsize (hphrases hpast), fun hpast => ?_⟩
    have hrecursion : ∀ (r : Nat) a b, found.attributes[r]? = some a →
        analyzed.attributes[r]? = some b → a.recursionPart = b.recursionPart := fun r a b ha hb =>
      hprogress'.recursionPart_eq hprogress hpast (List.Sublist.refl _) ha hb
    refine ⟨map_eq_of_forall hsize hrecursion, faultyRules_congr rules ?_⟩
    refine map_eq_of_forall hsize fun r a b ha hb => ?_
    exact Attributes.faults_eq (hphrases (hpast.subset (by simp)) r a b ha hb)
      (hrecursion r a b ha hb)

/-- A pass over recursion that comes too early, when all rules are taken to be empty, is made up
for. -/
theorem passes_stabilise_hiddenCircle : Ordered hiddenCircle ∧
    ∃ classified analyzed found, classify hiddenCircle = .ok classified ∧
      analyze hiddenCircle = .ok analyzed ∧
      runPasses hiddenCircle [.recursion, .phrases, .recursion, .phrases] classified = .ok found ∧
      found.attributes.map Attributes.phrasePart = analyzed.attributes.map Attributes.phrasePart ∧
      found.faultyRules hiddenCircle = analyzed.faultyRules hiddenCircle := by
  have hordered : Ordered hiddenCircle := by decide
  obtain ⟨classified, analyzed, hclassify, hanalyze, hpasses⟩ := passes_stabilise hordered
  obtain ⟨found, hfound, -, -, hphrases, hrecursion⟩ :=
    hpasses [.recursion, .phrases, .recursion, .phrases]
  refine ⟨hordered, classified, analyzed, found, hclassify, hanalyze, hfound, ?_, ?_⟩
  · exact hphrases (by decide)
  · exact (hrecursion (by decide)).2

end Analysis

end Abnf
