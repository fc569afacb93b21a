import Mathlib.Logic.Equiv.Fintype
import Abnf.Proofs.Analysis.Edges
import Abnf.Proofs.Tables

/-!
# Tables in another order

Rules are moved to other places of their table, and what refers to them is renamed. What the
equations of a table say is said of the moved rules too, so the phrases are the same. The walk that
looks for ways back to a rule takes the same steps in both tables, one by one; that the rules are
walked in another order does not show, since a walk reads no more than the phrases of the rules
that were walked before it.

* `Moved`: one table has the rules of another at other places.
* `Moved.said_least`, `Moved.said_greatest`: the phrases of moved rules.
* `Walk.Mirrors.visitRule`: two walks that take the same steps.
* `Recursion.Walked`: what the recursion pass leaves, whatever the order of its walks.
-/

namespace Abnf

/-! ## Renaming -/

/-- An opcode whose references to rules follow the rules to their places. -/
def Opcode.rename (place : Nat → Nat) : Opcode → Opcode
  | .rnm rule => .rnm (place rule)
  | .bkr rule false caseInsensitive => .bkr (place rule) false caseInsensitive
  | op => op

/-- A rule that moves to another place, in a table whose rules all move. -/
def Rule.rename (place : Nat → Nat) (rule : Rule) : Rule :=
  { rule with index := place rule.index, opcodes := rule.opcodes.map (Opcode.rename place) }

namespace Opcode

variable {place : Nat → Nat} {op : Opcode}

theorem rename_rename {back : Nat → Nat} (h : ∀ r, back (place r) = r) (op : Opcode) :
    (op.rename place).rename back = op := by
  cases op with
  | bkr index toUdt caseInsensitive => cases toUdt <;> simp [rename, h]
  | _ => simp [rename, h]

theorem rename_injective (h : Function.Injective place) :
    Function.Injective (Opcode.rename place) := by
  obtain ⟨back, hback⟩ := h.hasLeftInverse
  exact (show Function.LeftInverse (Opcode.rename back) (Opcode.rename place) from
    rename_rename hback).injective

/-- What does not look at the rule that is referred to does not change. -/
theorem apply_rename {α : Type} {f : Opcode → α} (href : ∀ r t, f (.rnm r) = f (.rnm t))
    (hback : ∀ r t caseInsensitive, f (.bkr r false caseInsensitive) =
      f (.bkr t false caseInsensitive)) : f (op.rename place) = f op := by
  cases op with
  | rnm rule => exact href _ _
  | bkr index toUdt caseInsensitive =>
    cases toUdt with
    | false => exact hback _ _ _
    | true => rfl
  | _ => rfl

@[simp] theorem children_rename : (op.rename place).children = op.children :=
  apply_rename (fun _ _ => rfl) fun _ _ _ => rfl

@[simp] theorem isBranch_rename : (op.rename place).isBranch = op.isBranch :=
  apply_rename (fun _ _ => rfl) fun _ _ _ => rfl

@[simp] theorem governsNext_rename : (op.rename place).governsNext = op.governsNext :=
  apply_rename (fun _ _ => rfl) fun _ _ _ => rfl

@[simp] theorem ofLeaf_rename : Attributes.ofLeaf (op.rename place) = Attributes.ofLeaf op :=
  apply_rename (fun _ _ => rfl) fun _ _ _ => rfl

end Opcode

theorem Opcodes.Ordered.rename {opcodes : Array Opcode} (h : Opcodes.Ordered opcodes)
    (place : Nat → Nat) : Opcodes.Ordered (opcodes.map (Opcode.rename place)) := by
  have hget : ∀ {i : Nat} {op}, (opcodes.map (Opcode.rename place))[i]? = some op →
      ∃ found, opcodes[i]? = some found ∧ found.rename place = op := by
    intro i op hop
    rw [Array.getElem?_map] at hop
    exact Option.map_eq_some_iff.1 hop
  refine ⟨by simpa using h.nonempty, fun {i op} hop hbranch => ?_, fun {i j op} hop hj => ?_,
    fun {i op} hop hgoverns => ?_⟩ <;> obtain ⟨found, hfound, rfl⟩ := hget hop
  · rw [Opcode.isBranch_rename] at hbranch
    rw [Opcode.children_rename]
    exact h.branches hfound hbranch
  · rw [Opcode.children_rename] at hj
    simpa using h.forward hfound hj
  · rw [Opcode.governsNext_rename] at hgoverns
    simpa using h.governed hfound hgoverns

theorem Phrases.Holds.rename {place : Nat → Nat} {aspect : Aspect} {opcodes : Array Opcode}
    {v w : Nat → Prop} {i : Nat} (hle : ∀ t, v t → w (place t)) (h : Holds aspect opcodes v i) :
    Holds aspect (opcodes.map (Opcode.rename place)) w i := by
  have hget : ∀ {i : Nat} {op}, opcodes[i]? = some op →
      (opcodes.map (Opcode.rename place))[i]? = some (op.rename place) := by
    intro i op hop
    rw [Array.getElem?_map, hop, Option.map_some]
  induction h with
  | leaf hop hhas => exact .leaf (hget hop) (by rwa [Opcode.ofLeaf_rename])
  | ref hop ht => exact .ref (hget hop) (hle _ ht)
  | alt hop hc _ ih => exact .alt (hget hop) hc ih
  | catAll hop haspect _ ih => exact .catAll (hget hop) haspect ih
  | catSome hop haspect hc _ ih => exact .catSome (hget hop) haspect hc ih
  | repNone hop haspect => exact .repNone (hget hop) haspect
  | rep hop _ ih => exact .rep (hget hop) ih

/-! ## Moved rules -/

/-- A table has the rules of another at other places. -/
structure Moved (place : Equiv.Perm Nat) (rules rules' : Array Rule) : Prop where
  size : rules'.size = rules.size
  rule : ∀ r : Nat, rules'[place r]? = rules[r]?.map (Rule.rename place)

namespace Moved

open Analysis

variable {place : Equiv.Perm Nat} {rules rules' : Array Rule} (h : Moved place rules rules')
include h

theorem lt_iff {r : Nat} : place r < rules'.size ↔ r < rules.size := by
  have hsome : ∀ (rules : Array Rule) (r : Nat), r < rules.size ↔ rules[r]?.isSome = true :=
    fun rules r => by simp
  rw [hsome, h.rule, Option.isSome_map, ← hsome]

theorem symm : Moved place.symm rules' rules := by
  refine ⟨h.size.symm, fun r => ?_⟩
  have hback : Rule.rename place.symm ∘ Rule.rename place = id := by
    funext rule
    have hopcodes : Opcode.rename place.symm ∘ Opcode.rename place = id :=
      funext fun op => Opcode.rename_rename place.symm_apply_apply op
    simp [Rule.rename, hopcodes]
  have hrule := h.rule (place.symm r)
  rw [place.apply_symm_apply] at hrule
  rw [hrule, Option.map_map, hback, Option.map_id]
  rfl

theorem ordered (hordered : Ordered rules) : Ordered rules' := by
  have hmem : ∀ rule' ∈ rules', ∃ rule ∈ rules, rule.rename place = rule' := by
    intro rule' hrule'
    obtain ⟨r, hr⟩ := Array.getElem?_of_mem hrule'
    have hrule := h.rule (place.symm r)
    rw [place.apply_symm_apply, hr, eq_comm] at hrule
    obtain ⟨rule, hget, heq⟩ := Option.map_eq_some_iff.1 hrule
    exact ⟨rule, Array.mem_of_getElem? hget, heq⟩
  refine ⟨fun rule' hrule' => ?_, fun rule' hrule' t ht => ?_⟩ <;>
    obtain ⟨rule, hrule, rfl⟩ := hmem rule' hrule'
  · exact (hordered.opcodes rule hrule).rename place
  · obtain ⟨op, hop, heq⟩ := Array.mem_map.1 ht
    cases op with
    | rnm target =>
      cases heq
      exact h.lt_iff.2 (hordered.inRange rule hrule target hop)
    | bkr index toUdt caseInsensitive => cases toUdt <;> cases heq
    | _ => cases heq

/-! ### References -/

theorem refersTo {r t : Nat} (href : RefersTo rules r t) : RefersTo rules' (place r) (place t) := by
  obtain ⟨rule, hrule, ht⟩ := href
  refine ⟨rule.rename place, by rw [h.rule, hrule, Option.map_some], ?_⟩
  exact Array.mem_map.2 ⟨_, ht, rfl⟩

theorem refersTo_iff {r t : Nat} : RefersTo rules' (place r) (place t) ↔ RefersTo rules r t := by
  refine ⟨fun href => ?_, h.refersTo⟩
  simpa using h.symm.refersTo href

theorem reaches_iff {r t : Nat} : Relation.TransGen (RefersTo rules') (place r) (place t) ↔
    Relation.TransGen (RefersTo rules) r t := by
  refine ⟨fun hreach => ?_, fun hreach => hreach.lift place fun _ _ => h.refersTo⟩
  have hback := hreach.lift place.symm fun _ _ => h.symm.refersTo
  rwa [Function.onFun, place.symm_apply_apply, place.symm_apply_apply] at hback

/-! ### Equations -/

theorem equation {aspect : Aspect} {v w : Nat → Prop} {r : Nat} (hle : ∀ t, v t → w (place t))
    (heq : Phrases.Equation aspect rules v r) : Phrases.Equation aspect rules' w (place r) := by
  obtain ⟨rule, hrule, hholds⟩ := heq
  exact ⟨rule.rename place, by rw [h.rule, hrule, Option.map_some], hholds.rename hle⟩

theorem mem_solutions {aspect : Aspect} {v : Set Nat} (hv : v ∈ Phrases.Solutions aspect rules) :
    place '' v ∈ Phrases.Solutions aspect rules' := by
  refine ⟨?_, fun r hr => ?_⟩
  · rintro _ ⟨r, hr, rfl⟩
    exact h.lt_iff.2 (hv.1 r hr)
  · obtain ⟨r, rfl⟩ := place.surjective r
    rw [place.injective.mem_set_image, hv.2 r (h.lt_iff.1 hr)]
    constructor
    · exact h.equation fun t ht => ⟨t, ht, rfl⟩
    · intro heq
      have hback : ∀ t ∈ place '' v, place.symm t ∈ v := by
        rintro _ ⟨t, ht, rfl⟩
        simpa using ht
      simpa using h.symm.equation hback heq

/-- The solutions of a table are those of the other, with the rules at their places. -/
theorem solutions_eq (aspect : Aspect) :
    Phrases.Solutions aspect rules' = Set.image place '' Phrases.Solutions aspect rules := by
  ext w
  constructor
  · exact fun hw => ⟨place.symm '' w, h.symm.mem_solutions hw, place.image_symm_image w⟩
  · rintro ⟨v, hv, rfl⟩
    exact h.mem_solutions hv

variable {aspect : Aspect} {found found' : Analysis}

theorem said_least (hfound : IsLeast (Phrases.Solutions aspect rules) (Phrases.said found aspect))
    (hfound' : IsLeast (Phrases.Solutions aspect rules') (Phrases.said found' aspect)) :
    Phrases.said found' aspect = place '' Phrases.said found aspect := by
  rw [h.solutions_eq aspect] at hfound'
  exact hfound'.unique (Set.monotone_image.map_isLeast hfound)

theorem said_greatest
    (hfound : IsGreatest (Phrases.Solutions aspect rules) (Phrases.said found aspect))
    (hfound' : IsGreatest (Phrases.Solutions aspect rules') (Phrases.said found' aspect)) :
    Phrases.said found' aspect = place '' Phrases.said found aspect := by
  rw [h.solutions_eq aspect] at hfound'
  exact hfound'.unique (Set.monotone_image.map_isGreatest hfound)

end Moved

/-! ## Walks that take the same steps -/

namespace Walk

open Abnf.Expr

variable {σ τ : Type} {R : σ → τ → Prop}

theorem shapeAt_rename {opcodes : Array Opcode} {place : Nat → Nat} {depth i : Nat}
    {e : Expr Opcode} (h : shapeAt opcodes depth i = .ok e) :
    shapeAt (opcodes.map (Opcode.rename place)) depth i = .ok (e.map (Opcode.rename place)) := by
  induction depth generalizing i e with
  | zero => cases h
  | succ depth ih =>
    have hchildren : ∀ {cs : List Nat} {es}, cs.mapM (shapeAt opcodes depth) = .ok es →
        cs.mapM (shapeAt (opcodes.map (Opcode.rename place)) depth) =
          .ok (mapAll (Opcode.rename place) es) := by
      intro cs es hes
      rw [mapAll_eq_map]
      exact mapM_of_forall₂ ((mapM_eq_ok_iff.1 hes).imp fun _ _ => ih)
    obtain ⟨op, hop, h⟩ := exists_of_bind_eq_ok h
    have hrenamed : fetch (opcodes.map (Opcode.rename place)) i = .ok (op.rename place) := by
      rw [fetch_eq_ok] at hop ⊢
      rw [Array.getElem?_map, hop, Option.map_some]
    simp only [shapeAt, hrenamed, bind, Except.bind]
    cases op with
    | alt cs | cat cs =>
      obtain ⟨es, hes, rfl⟩ := exists_of_map_eq_ok h
      simp only [Opcode.rename, hchildren hes, Expr.map]
      rfl
    | rep min max =>
      obtain ⟨e, he, rfl⟩ := exists_of_map_eq_ok h
      simp only [Opcode.rename, ih he, Expr.map]
      rfl
    | bkr index toUdt caseInsensitive =>
      cases h
      cases toUdt <;> rfl
    | _ =>
      cases h
      rfl

section

variable {place : Nat → Nat} {visit : Nat → σ → Except Fault (Attributes × σ)}
  {visit' : Nat → τ → Except Fault (Attributes × τ)}

theorem attributesOfAll_rename {es : List (Expr Opcode)}
    (h : ∀ e ∈ es, ∀ {s s' t a}, R s t → attributesOf visit e s = .ok (a, s') →
      ∃ t', attributesOf visit' (e.map (Opcode.rename place)) t = .ok (a, t') ∧ R s' t')
    {s s' : σ} {t : τ} {parts : List Attributes} (hR : R s t)
    (heq : attributesOfAll visit es s = .ok (parts, s')) :
    ∃ t', attributesOfAll visit' (mapAll (Opcode.rename place) es) t = .ok (parts, t') ∧
      R s' t' := by
  induction es generalizing s s' t parts with
  | nil =>
    cases heq
    exact ⟨t, rfl, hR⟩
  | cons e es ih =>
    obtain ⟨⟨a, s₁⟩, hfound, heq⟩ := exists_of_bind_eq_ok heq
    obtain ⟨⟨as, s₂⟩, hrest, heq⟩ := exists_of_bind_eq_ok heq
    cases heq
    obtain ⟨t₁, ht₁, hR₁⟩ := h e (by simp) hR hfound
    obtain ⟨t₂, ht₂, hR₂⟩ := ih (fun e' he' => h e' (by simp [he'])) hR₁ hrest
    refine ⟨t₂, ?_, hR₂⟩
    simp only [mapAll, attributesOfAll, ht₁, ht₂, bind, Except.bind]
    rfl

/-- If the visits to the rules in an expression take the same steps, the walk through the renamed
expression finds the same. -/
theorem attributesOf_rename
    (hvisit : ∀ rule {s s' t a}, R s t → visit rule s = .ok (a, s') →
      ∃ t', visit' (place rule) t = .ok (a, t') ∧ R s' t')
    {e : Expr Opcode} {s s' : σ} {t : τ} {a : Attributes} (hR : R s t)
    (heq : attributesOf visit e s = .ok (a, s')) :
    ∃ t', attributesOf visit' (e.map (Opcode.rename place)) t = .ok (a, t') ∧ R s' t' := by
  induction e using Expr.induction generalizing s s' t a with
  | atom op =>
    cases op with
    | rnm rule => exact hvisit rule hR heq
    | bkr index toUdt caseInsensitive =>
      cases heq
      cases toUdt <;> exact ⟨t, rfl, hR⟩
    | _ =>
      cases heq
      exact ⟨t, rfl, hR⟩
  | alt es ih | cat es ih =>
    obtain ⟨⟨parts, s₁⟩, hfound, heq⟩ := exists_of_bind_eq_ok heq
    cases heq
    obtain ⟨t₁, ht₁, hR₁⟩ := attributesOfAll_rename (fun e he => ih e he) hR hfound
    refine ⟨t₁, ?_, hR₁⟩
    simp only [Expr.map, attributesOf, ht₁, bind, Except.bind]
    rfl
  | under op e ih =>
    obtain ⟨⟨b, s₁⟩, hfound, heq⟩ := exists_of_bind_eq_ok heq
    obtain ⟨t₁, ht₁, hR₁⟩ := ih hR hfound
    simp only [Expr.map, attributesOf, ht₁, bind, Except.bind]
    cases op with
    | bkr index toUdt caseInsensitive =>
      cases heq
      cases toUdt <;> exact ⟨t₁, rfl, hR₁⟩
    | _ =>
      cases heq
      exact ⟨t₁, rfl, hR₁⟩

end

/-- Two plans know the same of rules and of the rules at their places, and remember the same. -/
structure Mirrors (place : Nat → Nat) (plan : Plan σ) (plan' : Plan τ) (R : σ → τ → Prop) :
    Prop where
  known : ∀ {s t}, R s t → ∀ path rule,
    plan'.known? (path.map place) (place rule) t = plan.known? path rule s
  leave : ∀ {s t}, R s t → ∀ path rule a,
    R (plan.leave path rule a s) (plan'.leave (path.map place) (place rule) a t)

variable {place : Equiv.Perm Nat} {plan : Plan σ} {plan' : Plan τ} {rules rules' : Array Rule}

/-- A walk takes the same steps in a table whose rules have moved. -/
theorem Mirrors.visitRule (h : Mirrors place plan plan' R) (hmoved : Moved place rules rules')
    {depth rule : Nat} {path : List Nat} {s s' : σ} {t : τ} {a : Attributes} (hR : R s t)
    (heq : Walk.visitRule rules plan depth path rule s = .ok (a, s')) :
    ∃ t', Walk.visitRule rules' plan' depth (path.map place) (place rule) t = .ok (a, t') ∧
      R s' t' := by
  induction depth generalizing path rule s s' t a with
  | zero => cases heq
  | succ depth ih =>
    obtain ⟨known, hknown, heq⟩ := exists_of_bind_eq_ok heq
    simp only [Walk.visitRule, h.known hR, hknown, bind, Except.bind]
    cases known with
    | some b =>
      cases heq
      exact ⟨t, rfl, hR⟩
    | none =>
      obtain ⟨found, hfound, heq⟩ := exists_of_bind_eq_ok heq
      obtain ⟨e, hshape, heq⟩ := exists_of_bind_eq_ok heq
      obtain ⟨⟨b, s₁⟩, hresult, heq⟩ := exists_of_bind_eq_ok heq
      have hfound' : fetch rules' (place rule) = .ok (found.rename place) := by
        rw [fetch_eq_ok] at hfound ⊢
        rw [hmoved.rule, hfound, Option.map_some]
      have hshape' : shape (found.rename place) = .ok (e.map (Opcode.rename place)) := by
        have hsize : (found.rename place).opcodes.size = found.opcodes.size := by
          simp [Rule.rename]
        rw [shape, hsize]
        exact shapeAt_rename hshape
      obtain ⟨t₁, ht₁, hR₁⟩ := attributesOf_rename (fun _ => ih) hR hresult
      cases heq
      refine ⟨_, ?_, h.leave hR₁ path rule a⟩
      simp only [hfound', hshape']
      rw [List.map_cons] at ht₁
      rw [ht₁]
      rfl

end Walk

/-! ## Ways back to a rule -/

namespace Recursion

open Walk

variable {rules : Array Rule} {found current next : Analysis}

/-- What the recursion pass leaves when the rules in `done` have been walked: each has what its own
walk finds, and all else is as before. -/
structure Walked (rules : Array Rule) (found : Analysis) (done : List Nat) (analysis : Analysis) :
    Prop where
  classes : analysis.classes = found.classes
  phrases : ∀ r : Nat, analysis.attributes[r]?.map Attributes.phrasePart =
    found.attributes[r]?.map Attributes.phrasePart
  pending : ∀ r : Nat, r ∉ done → analysis.attributes[r]? = found.attributes[r]?
  walked : ∀ r ∈ done, ∃ a memo, start rules (plan found r) r {} = .ok (a, memo) ∧
    analysis.attributes[r]? = found.attributes[r]?.map (·.withRecursion a)

/-- A walk reads only the phrases of rules other than its start. -/
theorem Walked.plan_eq {done : List Nat} {origin : Nat} (h : Walked rules found done current)
    (horigin : origin ∉ done) : plan current origin = plan found origin := by
  have hknown : (plan current origin).known? = (plan found origin).known? := by
    funext path rule memo
    have hphrases := h.phrases rule
    simp only [plan, fetch, bind, Except.bind, h.classes]
    by_cases heq : rule = origin
    · rw [heq, h.pending origin horigin]
    · have hne : (rule == origin) = false := by simpa using heq
      cases hc : current.attributes[rule]? with
      | none =>
        have hf : found.attributes[rule]? = none := by simpa [hc] using hphrases.symm
        simp [hf]
      | some a =>
        rw [hc, Option.map_some, eq_comm] at hphrases
        obtain ⟨b, hb, hsame⟩ := Option.map_eq_some_iff.1 hphrases
        simp [hb, hne, hsame]
  exact congrArg (fun known => Plan.mk known (plan found origin).leave) hknown

theorem Walked.walkRule {done : List Nat} {rule : Nat} (h : Walked rules found done current)
    (hrule : rule ∉ done) (heq : walkRule rules current rule = .ok next) :
    Walked rules found (rule :: done) next := by
  rw [Recursion.walkRule, h.plan_eq hrule] at heq
  obtain ⟨⟨a, memo⟩, hresult, heq⟩ := exists_of_bind_eq_ok heq
  cases heq
  have hget : ∀ r : Nat,
      (current.attributes.modify rule fun recorded => recorded.withRecursion a)[r]? =
        if rule = r then current.attributes[r]?.map (·.withRecursion a)
        else current.attributes[r]? := fun r => Array.getElem?_modify
  refine ⟨h.classes, fun r => ?_, fun r hr => ?_, fun r hr => ?_⟩
  · exact (map_getElem?_modify (fun _ => by rfl) rule r).trans (h.phrases r)
  · obtain ⟨hne, hr⟩ : r ≠ rule ∧ r ∉ done := by simpa using hr
    rw [hget, if_neg (Ne.symm hne), h.pending r hr]
  · rw [hget]
    rcases List.mem_cons.1 hr with rfl | hr
    · exact ⟨a, memo, hresult, by rw [if_pos rfl, h.pending r hrule]⟩
    · have hne : rule ≠ r := fun hsame => hrule (hsame ▸ hr)
      rw [if_neg hne]
      exact h.walked r hr

theorem Walked.foldlM {done rs : List Nat} (h : Walked rules found done current)
    (hnodup : rs.Nodup) (hrs : ∀ r ∈ rs, r ∉ done)
    (heq : rs.foldlM (Recursion.walkRule rules) current = .ok next) :
    Walked rules found (rs.reverse ++ done) next := by
  induction rs generalizing done current with
  | nil =>
    cases heq
    exact h
  | cons r rs ih =>
    obtain ⟨hr, hnodup⟩ := List.nodup_cons.1 hnodup
    obtain ⟨after, hwalk, heq⟩ := exists_of_bind_eq_ok heq
    rw [List.reverse_cons, List.append_assoc]
    refine ih (h.walkRule (hrs r (by simp)) hwalk) hnodup (fun t ht => ?_) heq
    have hne : t ≠ r := fun hsame => hr (hsame ▸ ht)
    simpa [hne] using hrs t (by simp [ht])

/-- The pass walks every recursive rule once. -/
theorem walked_of_propagate {analysis : Analysis} (h : propagate rules found = .ok analysis) :
    Walked rules found (recursiveRules found).reverse analysis := by
  have hstart : Walked rules found [] found :=
    ⟨rfl, fun _ => rfl, fun _ _ => rfl, by simp⟩
  have hnodup : (recursiveRules found).Nodup := List.nodup_range.filter _
  simpa using hstart.foldlM hnodup (by simp) h

section

variable {place : Equiv.Perm Nat} {rules' : Array Rule} {found' : Analysis}
  (hattributes : ∀ r : Nat, found'.attributes[place r]? = found.attributes[r]?)
  (hreaches : ∀ r t : Nat, (found'.classes[place r]?.any (·.reaches (place t))) =
    found.classes[r]?.any (·.reaches t))
include hattributes hreaches

/-- The walks to a rule and to the rule at its place take the same steps. -/
theorem mirrors_plan (origin : Nat) : Mirrors place (plan found origin) (plan found' (place origin))
    fun memo memo' => ∀ path : List Nat, memo'[path.map place]? = memo[path]? := by
  refine ⟨fun {memo memo'} hmemo path rule => ?_, fun {memo memo'} hmemo path rule a other => ?_⟩
  · have hopen : (path.map place).contains (place rule) = path.contains rule := by
      rw [Bool.eq_iff_iff, List.contains_iff_mem, List.contains_iff_mem,
        List.mem_map_of_injective place.injective]
    have hsame : (place rule == place origin) = (rule == origin) := by
      rw [Bool.eq_iff_iff, beq_iff_eq, beq_iff_eq, place.injective.eq_iff]
    have hmemo := hmemo (rule :: path)
    rw [List.map_cons] at hmemo
    simp only [plan, fetch, hattributes, hreaches, hopen, hsame, hmemo]
  · have hkey : (place rule :: path.map place == other.map place) = (rule :: path == other) := by
      rw [Bool.eq_iff_iff, beq_iff_eq, beq_iff_eq, ← List.map_cons,
        (List.map_injective_iff.2 place.injective).eq_iff]
    simp only [plan, Std.HashMap.getElem?_insert, hkey, hmemo other]

/-- The recursion pass finds the same of the rules at their places. -/
theorem attributes_of_moved (h : Moved place rules rules') {analysis analysis' : Analysis}
    (hpropagate : propagate rules found = .ok analysis)
    (hpropagate' : propagate rules' found' = .ok analysis')
    (hrecursive : ∀ r, place r ∈ recursiveRules found' ↔ r ∈ recursiveRules found) (r : Nat) :
    analysis'.attributes[place r]? = analysis.attributes[r]? := by
  have hwalked := walked_of_propagate hpropagate
  have hwalked' := walked_of_propagate hpropagate'
  by_cases hr : r ∈ recursiveRules found
  · have hr' := (hrecursive r).2 hr
    obtain ⟨a, memo, hstart, hget⟩ := hwalked.walked r (by simpa using hr)
    obtain ⟨a', memo', hstart', hget'⟩ := hwalked'.walked (place r) (by simpa using hr')
    obtain ⟨_, hmirror, -⟩ :=
      (mirrors_plan hattributes hreaches r).visitRule h (t := {}) (by simp) hstart
    rw [start, h.size] at hstart'
    cases hmirror.symm.trans hstart'
    rw [hget, hget', hattributes]
  · have hr' := mt (hrecursive r).1 hr
    rw [hwalked.pending r (by simpa using hr), hwalked'.pending (place r) (by simpa using hr'),
      hattributes]

end

end Recursion

end Abnf
