import Mathlib.Logic.Relation
import Abnf.Analysis.Phrases
import Abnf.Proofs.Analysis.Walk
import Abnf.Proofs.Engine.Descent

/-!
# The phrases pass

The pass ends, and does not miss that a rule can be empty: whatever rules can be empty on the
ground that each of them can be if the others can, are found to be.

* `Phrases.propagate_spec`: the pass ends, keeps what is known of recursion, and finds the rules
  that can be empty.
-/

namespace Abnf

namespace Attributes

theorem left_alternation (parts : List Attributes) :
    (alternation parts).left = parts.any left :=
  apply_alternation (fun _ _ => rfl) rfl parts

theorem empty_alternation (parts : List Attributes) :
    (alternation parts).empty = parts.any empty :=
  apply_alternation (fun _ _ => rfl) rfl parts

end Attributes

namespace Walk

/-! ## Rules that can be empty -/

/-- Whether an expression is one that a grammar text can have: it is valid, and no literal in it
that is matched exactly is empty. -/
def Readable (e : Expr Opcode) : Prop :=
  e.isValid = true ∧ .tbs [] ∉ e.atoms

theorem Readable.of_mem {es : List (Expr Opcode)} (h : Readable (.alt es) ∨ Readable (.cat es)) :
    ∀ e ∈ es, Readable e := by
  intro e he
  rcases h with h | h <;>
  · simp only [Readable, Expr.isValid, Bool.and_eq_true, Expr.allValid_iff, Expr.atoms,
      Expr.mem_atomsAll, not_exists, not_and] at h
    exact ⟨h.1.2 e he, h.2 e he⟩

/-- An expression that may match the empty phrase is found to, if the rules in it are. -/
theorem empty_of_isNullable {P : Nat → Attributes → Prop} {nullable : Nat → Bool}
    (hP : ∀ rule a, P rule a → nullable rule = true → a.empty = true) {e : Expr Opcode}
    {a : Attributes} (he : Readable e) (h : HasAttributes P e.outline a)
    (hnull : e.isNullable nullable = true) : a.empty = true := by
  induction e using Expr.induction generalizing a with
  | atom op =>
    cases op with
    | rnm rule => exact hP rule a h hnull
    | tls chars =>
      cases h
      exact hnull
    | tbs chars =>
      simp only [Expr.isNullable, List.isEmpty_iff] at hnull
      subst hnull
      exact absurd (by simp [Expr.atoms]) he.2
    | abg | aen =>
      cases h
      rfl
    | _ => cases hnull
  | alt es ih =>
    obtain ⟨parts, hparts, rfl⟩ := h
    obtain ⟨e, hmem, hnull⟩ := Expr.someNullable_iff.1 hnull
    obtain ⟨b, hb, hpart⟩ := hparts.exists_attributes hmem
    rw [Attributes.empty_alternation, List.any_eq_true]
    exact ⟨b, hb, ih e hmem (Readable.of_mem (Or.inl he) e hmem) hpart hnull⟩
  | cat es ih =>
    obtain ⟨parts, hparts, rfl⟩ := h
    have hnull := Expr.allNullable_iff.1 hnull
    refine List.all_eq_true.2 fun b hb => ?_
    obtain ⟨e, hmem, hpart⟩ := hparts.exists_part hb
    exact ih e hmem (Readable.of_mem (Or.inr he) e hmem) hpart (hnull e hmem)
  | under op e ih =>
    cases op with
    | rep min max =>
      obtain ⟨b, hb, rfl⟩ := h
      simp only [Readable, Expr.isValid, Bool.and_eq_true, Expr.atoms, List.mem_cons, not_or] at he
      simp only [Expr.isNullable, Bool.or_eq_true, beq_iff_eq] at hnull
      unfold Attributes.repeated
      split
      · rfl
      · exact ih ⟨he.1.2, he.2.2⟩ hb (hnull.resolve_left ‹_›)
    | and | not | bka | bkn =>
      cases h
      rfl
    | _ =>
      have hgoverns := he.1
      simp [Expr.isValid, Opcode.governsNext] at hgoverns

end Walk

/-! ## The pass -/

namespace Phrases

open Walk

/-- Rules that can be empty on the ground that each of them can be if the others can. -/
def Supported (bodies : Nat → Expr Opcode) (nullable : Nat → Bool) : Prop :=
  ∀ r, nullable r = true → (bodies r).isNullable nullable = true

/-- What the pass keeps: everything but phrases stays as it was, and rules that can be empty are
never found not to be. -/
structure Keeps (nullable : Nat → Bool) (initial : Array Attributes) (state : State) : Prop where
  size : state.attributes.size = initial.size
  left : ∀ r : Nat, state.attributes[r]?.map Attributes.left = initial[r]?.map Attributes.left
  empty : ∀ (r : Nat) a, state.attributes[r]? = some a → nullable r = true → a.empty = true
  memo : ∀ memo, state.memo = some memo → ∀ (r : Nat) path a, memo[r :: path]? = some a →
    nullable r = true → a.empty = true

variable {rules : Array Rule} {bodies : Nat → Expr Opcode} {nullable : Nat → Bool}
  {initial : Array Attributes}

/-- Along a walk, a rule that can be empty is found to be. -/
theorem respects (hsize : initial.size = rules.size)
    (hbodies : ∀ r < rules.size, Readable (bodies r)) (hsupported : Supported bodies nullable) :
    Respects plan rules.size (fun r => (bodies r).outline) (Keeps nullable initial)
      fun _ rule a => nullable rule = true → a.empty = true := by
  refine ⟨?_, ?_, ?_⟩
  · intro path rule state hrule hkeeps
    obtain ⟨recorded, hrecorded⟩ : ∃ recorded, state.attributes[rule]? = some recorded :=
      ⟨_, Array.getElem?_eq_getElem (by rw [hkeeps.size, hsize]; exact hrule)⟩
    simp only [plan, fetch_eq_ok.2 hrecorded, bind, Except.bind]
    split
    · refine ⟨_, rfl, by simp, ?_⟩
      rintro a h
      cases h
      exact hkeeps.empty rule recorded hrecorded
    · rename_i hopen
      refine ⟨_, rfl, fun hmem => absurd (by simp [hmem]) hopen, fun a ha => ?_⟩
      obtain ⟨memo, hmemo, ha⟩ := Option.bind_eq_some_iff.1 ha
      exact hkeeps.memo memo hmemo rule path a ha
  · intro path rule a hrule _ hbody hnull
    exact empty_of_isNullable (fun _ _ h => h) (hbodies rule hrule) hbody (hsupported rule hnull)
  · intro path rule a state hrule hkeeps ha
    exact {
      size := by simpa [plan] using hkeeps.size
      left := fun r => (map_getElem?_modify (fun _ => by rfl) rule r).trans (hkeeps.left r)
      empty := fun r b hb hnull => by
        obtain ⟨recorded, hrecorded, ⟨rfl, rfl⟩ | ⟨-, rfl⟩⟩ := getElem?_modify_eq_some hb
        · exact ha hnull
        · exact hkeeps.empty r b hrecorded hnull
      memo := fun memo hmemo => by
        obtain ⟨memo', hmemo', rfl⟩ := Option.map_eq_some_iff.1 hmemo
        exact forall_insert (P := fun r _ b => nullable r = true → b.empty = true)
          (hkeeps.memo memo' hmemo') ha }

theorem walkRule_spec (hrules : Shaped rules fun r => (bodies r).outline)
    (hsize : initial.size = rules.size) (hbodies : ∀ r < rules.size, Readable (bodies r))
    (hsupported : Supported bodies nullable) {rule : Nat} (hrule : rule < rules.size)
    (state : State) (hkeeps : Keeps nullable initial state) :
    ∃ state', walkRule rules state rule = .ok state' ∧ Keeps nullable initial state' := by
  obtain ⟨a, state', heq, hkeeps', -⟩ :=
    start_spec hrules (respects hsize hbodies hsupported) hrule state hkeeps
  refine ⟨state', ?_, hkeeps'⟩
  rw [walkRule, heq]
  rfl

theorem walkMember_spec (hrules : Shaped rules fun r => (bodies r).outline)
    (hsize : initial.size = rules.size) (hbodies : ∀ r < rules.size, Readable (bodies r))
    (hsupported : Supported bodies nullable) {rule : Nat} (hrule : rule < rules.size)
    (state : State) (hkeeps : Keeps nullable initial state) :
    ∃ state', walkMember rules state rule = .ok state' ∧ Keeps nullable initial state' := by
  have hfresh : Keeps nullable initial { state with memo := some {} } :=
    ⟨hkeeps.size, hkeeps.left, hkeeps.empty, by
      intro memo hmemo r path a ha
      cases hmemo
      simp at ha⟩
  obtain ⟨state', heq, hkeeps'⟩ := walkRule_spec hrules hsize hbodies hsupported hrule _ hfresh
  refine ⟨{ state' with complete := state'.complete.setIfInBounds rule true }, ?_,
    hkeeps'.size, hkeeps'.left, hkeeps'.empty, hkeeps'.memo⟩
  simp only [walkMember, heq, bind, Except.bind]
  rfl

/-- The pass ends. It keeps what is known of recursion, and finds that a rule can be empty. -/
theorem propagate_spec (hrules : Shaped rules fun r => (bodies r).outline)
    (hbodies : ∀ r < rules.size, Readable (bodies r)) (hsupported : Supported bodies nullable)
    {analysis : Analysis} (hclasses : analysis.classes.size = rules.size)
    (hsize : analysis.attributes.size = rules.size)
    (hgroups : ∀ group ∈ analysis.groups, ∀ r ∈ group, r < rules.size)
    (hempty : ∀ a ∈ analysis.attributes, a.empty = true) :
    ∃ attributes, propagate rules analysis = .ok { analysis with attributes := attributes } ∧
      attributes.size = rules.size ∧
      (∀ r : Nat, attributes[r]?.map Attributes.left =
        analysis.attributes[r]?.map Attributes.left) ∧
      ∀ (r : Nat) a, attributes[r]? = some a → nullable r = true → a.empty = true := by
  have hinitial : Keeps nullable analysis.attributes
      ⟨analysis.attributes, Array.replicate analysis.attributes.size false, none⟩ :=
    ⟨rfl, fun _ => rfl, fun r a ha _ => hempty a (Array.mem_of_getElem? ha), by simp⟩
  have hwalk : ∀ kinds, ∀ r ∈ rulesOfKind analysis kinds, ∀ state,
      Keeps nullable analysis.attributes state →
      ∃ state', walkRule rules state r = .ok state' ∧ Keeps nullable analysis.attributes state' := by
    intro kinds r hr
    refine walkRule_spec hrules hsize hbodies hsupported ?_
    rw [← hclasses]
    exact List.mem_range.1 (List.mem_filter.1 hr).1
  have hmembers : ∀ r ∈ analysis.groups.toList.flatten, ∀ state,
      Keeps nullable analysis.attributes state →
      ∃ state', walkMember rules state r = .ok state' ∧
        Keeps nullable analysis.attributes state' := by
    intro r hr
    obtain ⟨group, hgroup, hr⟩ := List.mem_flatten.1 hr
    exact walkMember_spec hrules hsize hbodies hsupported
      (hgroups group (Array.mem_toList_iff.1 hgroup) r hr)
  obtain ⟨state₁, heq₁, hkeeps₁⟩ := foldlM_spec (hwalk [.nonRecursive, .recursive]) _ hinitial
  obtain ⟨state₂, heq₂, hkeeps₂⟩ := foldlM_spec hmembers state₁ hkeeps₁
  have hforget : Keeps nullable analysis.attributes { state₂ with memo := none } :=
    ⟨hkeeps₂.size, hkeeps₂.left, hkeeps₂.empty, by simp⟩
  obtain ⟨state₃, heq₃, hkeeps₃⟩ :=
    foldlM_spec (hwalk [.refersToGroup, .recursiveRefersToGroup]) _ hforget
  refine ⟨state₃.attributes, ?_, hkeeps₃.size.trans hsize, hkeeps₃.left, hkeeps₃.empty⟩
  simp only [propagate, bind, Except.bind, heq₁, heq₂, heq₃]
  rfl

end Phrases

end Abnf
