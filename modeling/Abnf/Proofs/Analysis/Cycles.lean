import Abnf.Proofs.Analysis.Edges

/-!
# Rules that can stand for themselves

A rule is cyclic if it can be expanded, rule by rule and one alternative at each choice, until
nothing is left but references to the rule itself. The walk from a rule does not look into rules
that are open, and loses nothing by it: a rule that can be expanded at all can be expanded without
coming up again on the way.

* `Recursion.ExpandsTo`, `Recursion.FoldsTo`: what can be expanded to references alone.
* `Recursion.respects_cycles`: what the walks find, whatever was taken to be cyclic at first, as
  long as nothing was missed.
-/

namespace Abnf

namespace Recursion

open Walk Analysis Phrases

/-! ## Expansions -/

/-- The expression at a position can be expanded to references to rules of which `B` is said, and
nothing else. -/
inductive ExpandsTo (opcodes : Array Opcode) (B : Nat → Prop) : Nat → Prop
  | ref {i t : Nat} : opcodes[i]? = some (.rnm t) → B t → ExpandsTo opcodes B i
  | alt {i c : Nat} {cs : List Nat} : opcodes[i]? = some (.alt cs) → c ∈ cs →
    ExpandsTo opcodes B c → ExpandsTo opcodes B i
  | cat {i : Nat} {cs : List Nat} : opcodes[i]? = some (.cat cs) →
    (∀ c ∈ cs, ExpandsTo opcodes B c) → ExpandsTo opcodes B i
  | rep {i : Nat} {min : UInt32} {max : Option UInt32} : opcodes[i]? = some (.rep min max) →
    ExpandsTo opcodes B (i + 1) → ExpandsTo opcodes B i

/-- A rule can be expanded to references to `origin` and to rules of which `v` is said. -/
def Expansion (rules : Array Rule) (origin : Nat) (v : Nat → Prop) (r : Nat) : Prop :=
  ∃ rule, rules[r]? = some rule ∧ ExpandsTo rule.opcodes (fun t => t = origin ∨ v t) 0

/-- A rule can be expanded, through any rules, to references to `origin` alone. -/
def FoldsTo (rules : Array Rule) (origin r : Nat) : Prop :=
  InLeast rules.size (Expansion rules origin) r

section

variable {opcodes : Array Opcode} {B C : Nat → Prop} {i : Nat} {rules : Array Rule}
  {origin r : Nat}

theorem ExpandsTo.mono (hle : ∀ t, B t → C t) (h : ExpandsTo opcodes B i) :
    ExpandsTo opcodes C i := by
  induction h with
  | ref hop ht => exact .ref hop (hle _ ht)
  | alt hop hc _ ih => exact .alt hop hc ih
  | cat hop _ ih => exact .cat hop ih
  | rep hop _ ih => exact .rep hop ih

/-- An expansion ends in some reference, as no sequence is without parts. -/
theorem ExpandsTo.exists_ref (hordered : Opcodes.Ordered opcodes) (h : ExpandsTo opcodes B i) :
    ∃ t, .rnm t ∈ opcodes ∧ B t := by
  induction h with
  | ref hop ht => exact ⟨_, Array.mem_of_getElem? hop, ht⟩
  | alt _ _ _ ih | rep _ _ ih => exact ih
  | cat hop _ ih =>
    obtain ⟨c, hc⟩ := List.exists_mem_of_ne_nil _ (hordered.branches hop rfl)
    exact ih c hc

theorem monotone_expansion (rules : Array Rule) (origin : Nat) :
    Monotone (Expansion rules origin) := by
  rintro v w hle r ⟨rule, hrule, h⟩
  exact ⟨rule, hrule, h.mono fun t => Or.imp_right (hle t)⟩

/-- A rule that folds to the origin leads to it. -/
theorem FoldsTo.reaches (hordered : Ordered rules) (h : FoldsTo rules origin r) :
    Relation.TransGen (RefersTo rules) r origin := by
  refine h.le (w := fun r => Relation.TransGen (RefersTo rules) r origin)
    (monotone_expansion rules origin) ?_
  rintro r - ⟨rule, hrule, hexpands⟩
  obtain ⟨t, ht, horigin | hreach⟩ :=
    hexpands.exists_ref (hordered.opcodes rule (Array.mem_of_getElem? hrule))
  · exact .single ⟨rule, hrule, horigin ▸ ht⟩
  · exact .head ⟨rule, hrule, ht⟩ hreach

end

end Recursion

/-! ## Attributes -/

theorem Attributes.cyclic_alternation (parts : List Attributes) :
    (alternation parts).cyclic = parts.any cyclic :=
  apply_alternation (fun _ _ => rfl) rfl parts

theorem Attributes.cyclic_repeated (min : UInt32) (a : Attributes) :
    (a.repeated min).cyclic = a.cyclic := by
  unfold repeated
  split <;> rfl

namespace Walk.AttributesAt

open Recursion

variable {P : Nat → Attributes → Prop} {opcodes : Array Opcode} {depth i : Nat} {a : Attributes}
  {B : Nat → Prop}

/-- What a walk finds to be cyclic can be expanded, if the rules that it finds to be cyclic can. -/
theorem expandsTo (h : AttributesAt P opcodes depth i a)
    (hP : ∀ t b, P t b → b.cyclic = true → B t) (ha : a.cyclic = true) :
    ExpandsTo opcodes B i := by
  induction h using AttributesAt.induction with
  | @leaf _ _ op => cases op <;> cases ha
  | ref hop ht => exact .ref hop (hP _ _ ht ha)
  | alt hop hparts =>
    rw [Attributes.cyclic_alternation] at ha
    obtain ⟨c, hc, hexpands⟩ := exists_mem_of_any (hparts.imp fun _ _ ⟨_, ih⟩ => ih) ha
    exact .alt hop hc hexpands
  | cat hop hparts =>
    exact .cat hop (forall_mem_of_all (hparts.imp fun _ _ ⟨_, ih⟩ => ih) ha)
  | rep hop ih =>
    obtain ⟨_, ih⟩ := ih
    rw [Attributes.cyclic_repeated] at ha
    exact .rep hop (ih ha)

/-- What can be expanded is found to be cyclic, if the rules are that it is expanded to. -/
theorem cyclic (h : AttributesAt P opcodes depth i a) (hP : ∀ t b, P t b → B t → b.cyclic = true)
    (hexpands : ExpandsTo opcodes B i) : a.cyclic = true := by
  induction hexpands generalizing depth a with
  | ref hop ht => exact hP _ a (h.of_ref hop) ht
  | alt hop hc _ ih =>
    obtain ⟨d, parts, hparts, rfl⟩ := h.of_alt hop
    rw [Attributes.cyclic_alternation]
    refine any_of_exists_mem (Q := fun c => ∀ {d b}, AttributesAt P opcodes d c b →
      b.cyclic = true) (hparts.imp fun c b hb hfound => hfound hb) ⟨_, hc, ih⟩
  | cat hop _ ih =>
    obtain ⟨d, parts, hparts, rfl⟩ := h.of_cat hop
    exact all_of_forall_mem (hparts.imp fun c b hb hc => ih c hc hb) fun c hc => hc
  | rep hop _ ih =>
    obtain ⟨d, b, hb, rfl⟩ := h.of_rep hop
    rw [Attributes.cyclic_repeated]
    exact ih hb

end Walk.AttributesAt

/-! ## Walks -/

namespace Recursion

open Walk Analysis Phrases

/-- What a walk from `origin` finds of a rule: nothing is cyclic but the origin, when it is reached
again, and what folds to it. If the origin is cyclic, all is found that folds to it by rules that
fold sooner than the open ones. -/
structure FindsCycles (rules : Array Rule) (origin : Nat) (path : List Nat) (rule : Nat)
    (a : Attributes) : Prop where
  sound : a.cyclic = true → (rule = origin ∧ rule ∈ path) ∨ FoldsTo rules origin rule
  arrived : FoldsTo rules origin origin → rule = origin → rule ∈ path → a.cyclic = true
  complete : FoldsTo rules origin origin → origin ∈ rule :: path →
    ∀ n, Stage rules.size (Expansion rules origin) n rule →
      (∀ p ∈ path, p ≠ origin → ¬ Stage rules.size (Expansion rules origin) n p) → a.cyclic = true

variable {rules : Array Rule} {shapes : Nat → Expr Opcode} {origin : Nat} {analysis : Analysis}

/-- What a walk finds of the rules in an expression gives what it finds of the rule. -/
theorem findsCycles_body (h : Outlined rules shapes) {path : List Nat} {rule : Nat}
    {a : Attributes} (hrule : rule < rules.size) (hnot : rule ∉ path)
    (hbody : HasAttributes (FindsCycles rules origin (rule :: path)) (shapes rule) a) :
    FindsCycles rules origin path rule a := by
  have hget := Array.getElem?_eq_getElem hrule
  have hat : AttributesAt (FindsCycles rules origin (rule :: path)) rules[rule].opcodes
      (rules[rule].opcodes.size + 1) 0 a := ⟨shapes rule, h.shape rule _ hget, hbody⟩
  have hmono := monotone_expansion rules origin
  refine ⟨fun ha => ?_, fun _ _ hmem => absurd hmem hnot, fun hcycle horigin n hn hpath => ?_⟩
  · refine Or.inr ((inLeast_iff hmono hrule).2 ⟨_, hget, hat.expandsTo ?_ ha⟩)
    exact fun t b hb hcyclic => (hb.sound hcyclic).imp_left And.left
  · -- The rule may fold sooner than `n`: look at the round in which it first does.
    induction n with
    | zero => cases hn
    | succ n ih =>
      by_cases hearlier : Stage rules.size (Expansion rules origin) n rule
      · exact ih hearlier fun p hp hne hstage => hpath p hp hne (hstage.succ hmono)
      · obtain ⟨-, rule', hget', hexpands⟩ := hn
        cases hget.symm.trans hget'
        refine hat.cyclic (fun t b hb ht => ?_) hexpands
        by_cases heq : t = origin
        · subst heq
          exact hb.arrived hcycle rfl horigin
        · refine hb.complete hcycle (List.mem_cons_of_mem _ horigin) n
            (ht.resolve_left heq) (List.forall_mem_cons.2 ⟨fun _ => hearlier, ?_⟩)
          exact fun p hp hne hstage => hpath p hp hne (hstage.succ hmono)

/-- A walk from a rule finds what folds to it, if nothing is missed in what is taken of the rule. -/
theorem respects_cycles (h : Outlined rules shapes) (hordered : Ordered rules)
    (hsize : analysis.attributes.size = rules.size)
    (hreaches : ∀ r, Relation.TransGen (RefersTo rules) r origin →
      (analysis.classes[r]?.any (·.reaches origin)) = true)
    (hassumed : ∀ recorded, analysis.attributes[origin]? = some recorded →
      FoldsTo rules origin origin → recorded.cyclic = true) :
    Respects (plan analysis origin) rules.size shapes
      (fun memo => ∀ rule path a, memo[rule :: path]? = some a →
        FindsCycles rules origin path rule a)
      (FindsCycles rules origin) := by
  refine respects_of hsize ?_ ?_ fun path rule a hrule hnot => findsCycles_body h hrule hnot
  · intro path recorded hrecorded hopen
    have hcyclic := hassumed recorded hrecorded
    exact ⟨fun _ => Or.inl ⟨rfl, hopen⟩, fun hcycle _ _ => hcyclic hcycle,
      fun hcycle _ _ _ _ => hcyclic hcycle⟩
  · intro path rule recorded hrecorded hcut
    unfold IsCut at hcut
    refine ⟨nofun, fun _ horigin hmem => ?_, fun _ _ n hn hpath => ?_⟩
    · rw [if_pos hmem] at hcut
      exact absurd horigin hcut
    · split at hcut
      · exact absurd hn (hpath rule ‹_› hcut)
      · exact absurd (hreaches rule (FoldsTo.reaches hordered ⟨n, hn⟩)) hcut

end Recursion

end Abnf
