import Mathlib.Data.List.Nodup
import Mathlib.Data.List.Perm.Subperm
import Abnf.Analysis.Walk
import Abnf.Proofs.Layout

/-!
# Walks end

A walk keeps its open rules apart, so it is never deeper than the table is long. What holds of the
attributes that a walk finds is shown rule by rule: the plan has to be right about the rules it
knows, and right about a rule when it is right about the rules in its expression.

* `shapeAt_of_stands`: the expression of a rule is found.
* `Guides.visitRule`: a walk ends, and finds attributes that the plan is right about.
-/

namespace Abnf

/-! ## Records

The passes record what they find of one rule at a time. -/

section

variable {α : Type} {records : Array α} {f : α → α}

/-- An entry, after one entry was changed. -/
theorem getElem?_modify_eq_some {i r : Nat} {a : α} (h : (records.modify i f)[r]? = some a) :
    ∃ recorded, records[r]? = some recorded ∧
      ((r = i ∧ a = f recorded) ∨ (r ≠ i ∧ a = recorded)) := by
  rw [Array.getElem?_modify] at h
  split at h
  · rename_i heq
    obtain ⟨recorded, hrecorded, rfl⟩ := Option.map_eq_some_iff.1 h
    exact ⟨recorded, hrecorded, .inl ⟨heq.symm, rfl⟩⟩
  · rename_i hne
    exact ⟨a, h, .inr ⟨Ne.symm hne, rfl⟩⟩

/-- What a change keeps of one entry, it keeps of all. -/
theorem map_getElem?_modify {β : Type} {part : α → β} (hpart : ∀ a, part (f a) = part a)
    (i r : Nat) : (records.modify i f)[r]?.map part = records[r]?.map part := by
  rw [Array.getElem?_modify]
  split
  · rw [Option.map_map]
    exact congrArg (Option.map · _) (funext hpart)
  · rfl

end

/-! ## Attributes of a choice -/

/-- What a choice says of a phrase or of recursion, some part of it says. -/
theorem Attributes.apply_alternation {f : Attributes → Bool}
    (hf : ∀ a b, f (either a b) = (f a || f b)) (hnone : f {} = false)
    (parts : List Attributes) : f (alternation parts) = parts.any f := by
  have hfold : ∀ a, f (parts.foldl either a) = (f a || parts.any f) := by
    induction parts with
    | nil => simp
    | cons b parts ih =>
      intro a
      rw [List.foldl_cons, ih, hf, List.any_cons, Bool.or_assoc]
  rw [alternation, hfold, hnone, Bool.false_or]

namespace Expr

/-! ## Outlines -/

mutual

/-- An expression with its look-around operators as leaves. -/
def outline : Expr Opcode → Expr Opcode
  | atom op => atom op
  | alt es => alt (outlineAll es)
  | cat es => cat (outlineAll es)
  | under op e =>
    match op with
    | .rep min max => under (.rep min max) (outline e)
    | op => atom op

/-- Several expressions with their look-around operators as leaves. -/
def outlineAll : List (Expr Opcode) → List (Expr Opcode)
  | [] => []
  | e :: es => outline e :: outlineAll es

end

theorem outlineAll_eq_map (es : List (Expr Opcode)) : outlineAll es = es.map outline := by
  induction es with
  | nil => rfl
  | cons e es ih => rw [outlineAll, ih, List.map_cons]

theorem mem_atoms_outline {op : Opcode} {e : Expr Opcode} (h : op ∈ e.outline.atoms) :
    op ∈ e.atoms := by
  induction e using Expr.induction with
  | atom a => exact h
  | alt es ih | cat es ih =>
    rw [outline, atoms, outlineAll_eq_map, mem_atomsAll] at h
    obtain ⟨e', he', h⟩ := h
    obtain ⟨e, he, rfl⟩ := List.mem_map.1 he'
    exact mem_atomsAll.2 ⟨e, he, ih e he h⟩
  | under a e ih =>
    cases a with
    | rep min max =>
      rw [outline, atoms, List.mem_cons] at h
      rw [atoms, List.mem_cons]
      exact h.imp_right ih
    | _ =>
      simp only [outline, atoms, List.mem_singleton] at h
      simp [atoms, h]

end Expr

namespace Walk

open Abnf.Expr

theorem shapeAt_of_stands {opcodes : Array Opcode} {e : Expr Opcode} {op depth : Nat}
    (h : Stands opcodes op e) (hdepth : e.size ≤ depth) :
    shapeAt opcodes depth op = .ok e.outline := by
  induction e using Expr.induction generalizing op depth with
  | atom a =>
    obtain ⟨depth, rfl⟩ : ∃ d, depth = d + 1 := ⟨depth - 1, by simp [Expr.size] at hdepth; omega⟩
    simp only [shapeAt, fetch_eq_ok.2 h.1, bind, Except.bind]
    have hleaf := h.2
    cases a <;> first | rfl | cases hleaf
  | alt es ih | cat es ih =>
    obtain ⟨depth, rfl⟩ : ∃ d, depth = d + 1 := ⟨depth - 1, by simp [Expr.size] at hdepth; omega⟩
    obtain ⟨cs, hop, hall⟩ := h
    simp only [Expr.size] at hdepth
    have hchildren := hall.forall₂ fun e he c hc =>
      ih e he hc (Nat.le_trans (size_le_sizeAll he) (Nat.le_of_succ_le_succ hdepth))
    simp only [shapeAt, fetch_eq_ok.2 hop, bind, Except.bind, mapM_of_forall₂ hchildren,
      Expr.outline, outlineAll_eq_map]
    rfl
  | under a e ih =>
    obtain ⟨depth, rfl⟩ : ∃ d, depth = d + 1 := ⟨depth - 1, by simp [Expr.size] at hdepth; omega⟩
    obtain ⟨hop, hgoverns, hoperand⟩ := h
    simp only [Expr.size] at hdepth
    simp only [shapeAt, fetch_eq_ok.2 hop, bind, Except.bind]
    cases a with
    | rep min max =>
      simp only [ih hoperand (Nat.le_of_succ_le_succ hdepth)]
      rfl
    | and | not | bka | bkn => rfl
    | _ => cases hgoverns

/-! ## Attributes of expressions -/

mutual

/-- `a` are attributes of an expression, for some attributes of the rules in it that satisfy
`P`. -/
def HasAttributes (P : Nat → Attributes → Prop) : Expr Opcode → Attributes → Prop
  | atom op, a =>
    match op with
    | .rnm rule => P rule a
    | leaf => a = .ofLeaf leaf
  | alt es, a => ∃ parts, HaveAttributes P es parts ∧ a = .alternation parts
  | cat es, a => ∃ parts, HaveAttributes P es parts ∧ a = .concatenation parts
  | under op e, a =>
    match op with
    | .rep min _ => ∃ b, HasAttributes P e b ∧ a = b.repeated min
    | leaf => a = .ofLeaf leaf

/-- `parts` are attributes of several expressions. -/
def HaveAttributes (P : Nat → Attributes → Prop) : List (Expr Opcode) → List Attributes → Prop
  | [], parts => parts = []
  | e :: es, parts => ∃ a rest, parts = a :: rest ∧ HasAttributes P e a ∧ HaveAttributes P es rest

end

/-- Every part has attributes. -/
theorem HaveAttributes.exists_attributes {P : Nat → Attributes → Prop} {es : List (Expr Opcode)}
    {parts : List Attributes} (h : HaveAttributes P (outlineAll es) parts) {e : Expr Opcode}
    (he : e ∈ es) : ∃ a ∈ parts, HasAttributes P e.outline a := by
  induction es generalizing parts with
  | nil => simp at he
  | cons e' es ih =>
    obtain ⟨a, rest, rfl, ha, hrest⟩ := h
    rcases List.mem_cons.1 he with rfl | he
    · exact ⟨a, by simp, ha⟩
    · obtain ⟨b, hb, hhas⟩ := ih hrest he
      exact ⟨b, by simp [hb], hhas⟩

/-- All attributes are those of some part. -/
theorem HaveAttributes.exists_part {P : Nat → Attributes → Prop} {es : List (Expr Opcode)}
    {parts : List Attributes} (h : HaveAttributes P (outlineAll es) parts) {a : Attributes}
    (ha : a ∈ parts) : ∃ e ∈ es, HasAttributes P e.outline a := by
  induction es generalizing parts with
  | nil =>
    rw [outlineAll, HaveAttributes] at h
    simp [h] at ha
  | cons e es ih =>
    obtain ⟨b, rest, rfl, hb, hrest⟩ := h
    rcases List.mem_cons.1 ha with rfl | ha
    · exact ⟨e, by simp, hb⟩
    · obtain ⟨e', he', hhas⟩ := ih hrest ha
      exact ⟨e', by simp [he'], hhas⟩

variable {σ : Type} {Inv : σ → Prop}

theorem attributesOfAll_spec {visit : Nat → σ → Except Fault (Attributes × σ)}
    {P : Nat → Attributes → Prop} {es : List (Expr Opcode)}
    (h : ∀ e ∈ es, ∀ state, Inv state → ∃ a state', attributesOf visit e state = .ok (a, state') ∧
      Inv state' ∧ HasAttributes P e a) (state : σ) (hinv : Inv state) :
    ∃ parts state', attributesOfAll visit es state = .ok (parts, state') ∧ Inv state' ∧
      HaveAttributes P es parts := by
  induction es generalizing state with
  | nil => exact ⟨[], state, rfl, hinv, rfl⟩
  | cons e es ih =>
    obtain ⟨a, state', heq, hinv', ha⟩ := h e (by simp) state hinv
    obtain ⟨parts, state'', heq', hinv'', hparts⟩ :=
      ih (fun e' he' => h e' (by simp [he'])) state' hinv'
    refine ⟨a :: parts, state'', ?_, hinv'', a, parts, rfl, ha, hparts⟩
    simp only [attributesOfAll, heq, heq', bind, Except.bind]
    rfl

/-- If every rule in an expression can be visited, the attributes of the expression are found. -/
theorem attributesOf_spec {visit : Nat → σ → Except Fault (Attributes × σ)}
    {P : Nat → Attributes → Prop} {e : Expr Opcode}
    (hvisit : ∀ rule, .rnm rule ∈ e.atoms → ∀ state, Inv state →
      ∃ a state', visit rule state = .ok (a, state') ∧ Inv state' ∧ P rule a)
    (state : σ) (hinv : Inv state) :
    ∃ a state', attributesOf visit e state = .ok (a, state') ∧ Inv state' ∧
      HasAttributes P e a := by
  induction e using Expr.induction generalizing state with
  | atom op =>
    cases op with
    | rnm rule => exact hvisit rule (by simp [Expr.atoms]) state hinv
    | _ => exact ⟨_, state, rfl, hinv, rfl⟩
  | alt es ih =>
    obtain ⟨parts, state', heq, hinv', hparts⟩ := attributesOfAll_spec
      (fun e he => ih e he fun rule hrule => hvisit rule (mem_atomsAll.2 ⟨e, he, hrule⟩)) state hinv
    refine ⟨.alternation parts, state', ?_, hinv', parts, hparts, rfl⟩
    simp only [attributesOf, heq, bind, Except.bind]
    rfl
  | cat es ih =>
    obtain ⟨parts, state', heq, hinv', hparts⟩ := attributesOfAll_spec
      (fun e he => ih e he fun rule hrule => hvisit rule (mem_atomsAll.2 ⟨e, he, hrule⟩)) state hinv
    refine ⟨.concatenation parts, state', ?_, hinv', parts, hparts, rfl⟩
    simp only [attributesOf, heq, bind, Except.bind]
    rfl
  | under op e ih =>
    obtain ⟨a, state', heq, hinv', ha⟩ :=
      ih (fun rule hrule => hvisit rule (by simp [Expr.atoms, hrule])) state hinv
    cases op with
    | rep min max =>
      refine ⟨a.repeated min, state', ?_, hinv', a, ha, rfl⟩
      simp only [attributesOf, heq, bind, Except.bind]
      rfl
    | _ =>
      refine ⟨_, state', ?_, hinv', rfl⟩
      simp only [attributesOf, heq, bind, Except.bind]
      rfl

/-! ## Memory -/

/-- What holds of all that is remembered still holds when one more path is remembered. -/
theorem forall_insert {P : Nat → List Nat → Attributes → Prop} {memory : Memo} {rule : Nat}
    {path : List Nat} {a : Attributes}
    (h : ∀ (rule : Nat) path a, memory[rule :: path]? = some a → P rule path a)
    (ha : P rule path a) (rule' : Nat) (path' : List Nat) (b : Attributes)
    (hb : (memory.insert (rule :: path) a)[rule' :: path']? = some b) : P rule' path' b := by
  rw [Std.HashMap.getElem?_insert] at hb
  split at hb
  · rename_i heq
    obtain ⟨rfl, rfl⟩ : rule = rule' ∧ path = path' := by simpa using heq
    cases hb
    exact ha
  · exact h rule' path' b hb

/-! ## Walks -/

/-- The rules of a table have expressions, and refer to rules of the table only. -/
def Shaped (rules : Array Rule) (shapes : Nat → Expr Opcode) : Prop :=
  ∀ r < rules.size, (∃ rule, rules[r]? = some rule ∧ shape rule = .ok (shapes r)) ∧
    ∀ target, .rnm target ∈ (shapes r).atoms → target < rules.size

/-- What a plan says of a walk. `Along path rule` is known of the rules that are reached along a
path, `Enters path rule` of those that are entered. `Post path rule a` is said of the attributes
`a` of a rule that is reached along `path`: it holds of what the plan knows, and passes from the
rules in an expression to the rule that has the expression. -/
structure Guides (plan : Plan σ) (size : Nat) (shapes : Nat → Expr Opcode)
    (Along Enters : List Nat → Nat → Prop) (Inv : σ → Prop)
    (Post : List Nat → Nat → Attributes → Prop) : Prop where
  known : ∀ path rule state, rule < size → Along path rule → Inv state →
    ∃ known, plan.known? path rule state = .ok known ∧ (rule ∈ path → known.isSome = true) ∧
      (known = none → Enters path rule) ∧ ∀ a, known = some a → Post path rule a
  along : ∀ path rule target, Enters path rule → .rnm target ∈ (shapes rule).atoms →
    Along (rule :: path) target
  body : ∀ path rule a, rule < size → rule ∉ path → Enters path rule →
    HasAttributes (Post (rule :: path)) (shapes rule) a → Post path rule a
  leave : ∀ path rule a state, rule < size → Enters path rule → Inv state → Post path rule a →
    Inv (plan.leave path rule a state)

/-- What a plan says of a walk, when nothing needs to be known of its path: `Post path rule a` holds
of what the plan knows, and passes from the rules in an expression to the rule that has the
expression. -/
structure Respects (plan : Plan σ) (size : Nat) (shapes : Nat → Expr Opcode) (Inv : σ → Prop)
    (Post : List Nat → Nat → Attributes → Prop) : Prop where
  known : ∀ path rule state, rule < size → Inv state →
    ∃ known, plan.known? path rule state = .ok known ∧ (rule ∈ path → known.isSome = true) ∧
      ∀ a, known = some a → Post path rule a
  body : ∀ path rule a, rule < size → rule ∉ path →
    HasAttributes (Post (rule :: path)) (shapes rule) a → Post path rule a
  leave : ∀ path rule a state, rule < size → Inv state → Post path rule a →
    Inv (plan.leave path rule a state)

variable {rules : Array Rule} {shapes : Nat → Expr Opcode} {plan : Plan σ}
  {Along Enters : List Nat → Nat → Prop} {Post : List Nat → Nat → Attributes → Prop}

/-- A walk ends, and the plan is right about what it finds. Either the plan knows the rule, or the
walk ends by leaving it. -/
theorem Guides.visitRule (h : Guides plan rules.size shapes Along Enters Inv Post)
    (hrules : Shaped rules shapes) {depth rule : Nat} {path : List Nat}
    (hpath : path.Nodup) (hlt : ∀ r ∈ path, r < rules.size) (hrule : rule < rules.size)
    (hdepth : rules.size < path.length + depth) (halong : Along path rule) (state : σ)
    (hinv : Inv state) :
    ∃ a state', Walk.visitRule rules plan depth path rule state = .ok (a, state') ∧ Inv state' ∧
      Post path rule a ∧ (plan.known? path rule state = .ok (some a) ∧ state' = state ∨
        ∃ inner, state' = plan.leave path rule a inner ∧ Inv inner) := by
  induction depth generalizing path rule state with
  | zero =>
    have hle : path.length ≤ (List.range rules.size).length :=
      (hpath.subperm fun r hr => List.mem_range.2 (hlt r hr)).length_le
    rw [List.length_range] at hle
    omega
  | succ depth ih =>
    obtain ⟨known, hknown, hopen, hentered, hpost⟩ := h.known path rule state hrule halong hinv
    simp only [Walk.visitRule, hknown, bind, Except.bind]
    cases known with
    | some a => exact ⟨a, state, rfl, hinv, hpost a rfl, Or.inl ⟨rfl, rfl⟩⟩
    | none =>
      have hnotin : rule ∉ path := fun hmem => by simpa using hopen hmem
      have hentered := hentered rfl
      obtain ⟨⟨found, hfound, hshape⟩, htargets⟩ := hrules rule hrule
      have hvisit : ∀ target, .rnm target ∈ (shapes rule).atoms → ∀ state, Inv state →
          ∃ a state', Walk.visitRule rules plan depth (rule :: path) target state =
            .ok (a, state') ∧ Inv state' ∧ Post (rule :: path) target a := by
        intro target htarget state hinv
        obtain ⟨a, state', heq, hinv', ha, -⟩ := ih (List.nodup_cons.2 ⟨hnotin, hpath⟩)
          (List.forall_mem_cons.2 ⟨hrule, hlt⟩) (htargets target htarget)
          (by rw [List.length_cons]; omega) (h.along path rule target hentered htarget) state hinv
        exact ⟨a, state', heq, hinv', ha⟩
      obtain ⟨a, inner, heq, hinner, ha⟩ := attributesOf_spec hvisit state hinv
      have hpost := h.body path rule a hrule hnotin hentered ha
      refine ⟨a, _, ?_, h.leave path rule a inner hrule hentered hinner hpost, hpost,
        Or.inr ⟨inner, rfl, hinner⟩⟩
      simp only [fetch_eq_ok.2 hfound, hshape, heq]
      rfl

/-- A walk from a rule ends, and the plan is right about what it finds. -/
theorem Guides.start (h : Guides plan rules.size shapes Along Enters Inv Post)
    (hrules : Shaped rules shapes) {rule : Nat} (hrule : rule < rules.size)
    (halong : Along [] rule) (state : σ) (hinv : Inv state) :
    ∃ a state', Walk.start rules plan rule state = .ok (a, state') ∧ Inv state' ∧ Post [] rule a ∧
      (plan.known? [] rule state = .ok (some a) ∧ state' = state ∨
        ∃ inner, state' = plan.leave [] rule a inner ∧ Inv inner) :=
  h.visitRule hrules List.nodup_nil (by simp) hrule (by simp) halong state hinv

theorem Respects.guides (h : Respects plan rules.size shapes Inv Post) :
    Guides plan rules.size shapes (fun _ _ => True) (fun _ _ => True) Inv Post := by
  refine ⟨?_, fun _ _ _ _ _ => trivial, ?_, ?_⟩
  · intro path rule state hrule _ hinv
    obtain ⟨known, hknown, hopen, hpost⟩ := h.known path rule state hrule hinv
    exact ⟨known, hknown, hopen, fun _ => trivial, hpost⟩
  · exact fun path rule a hrule hnotin _ => h.body path rule a hrule hnotin
  · exact fun path rule a state hrule _ => h.leave path rule a state hrule

/-- A walk from a rule ends, and the plan is right about what it finds. -/
theorem start_spec (hrules : Shaped rules shapes) (h : Respects plan rules.size shapes Inv Post)
    {rule : Nat} (hrule : rule < rules.size) (state : σ) (hinv : Inv state) :
    ∃ a state', start rules plan rule state = .ok (a, state') ∧ Inv state' ∧ Post [] rule a := by
  obtain ⟨a, state', heq, hinv', ha, -⟩ := h.guides.start hrules hrule trivial state hinv
  exact ⟨a, state', heq, hinv', ha⟩

end Walk

end Abnf
