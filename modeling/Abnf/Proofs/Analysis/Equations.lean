import Abnf.Proofs.Analysis.Classes
import Abnf.Proofs.Analysis.Walk

/-!
# The equations of a rule table

What each opcode says of the phrases it matches, in terms of its operands and of the rules it
refers to, is a system of equations with one unknown for every rule. A walk evaluates the equation
of a rule at what it finds of the other rules.

* `Analysis.Ordered`: tables whose opcodes can be walked.
* `Phrases.Holds`: the right-hand sides of the equations.
* `Walk.AttributesAt.holds`, `Walk.AttributesAt.has`: what a walk finds is what the equations say.
-/

namespace Abnf

/-- Whether an opcode is a leaf of the walk, but no reference. -/
def Opcode.isPlain : Opcode → Bool
  | .alt _ | .cat _ | .rep .. | .rnm _ => false
  | _ => true

/-- The rule that an opcode refers to. -/
def Opcode.target? : Opcode → Option Nat
  | .rnm target => some target
  | _ => none

/-! ## Tables that can be walked -/

/-- What it takes to walk through opcodes from opcode 0: there is one, and what an opcode has as a
child or governs stands behind it. Opcodes may share their children. -/
structure Opcodes.Ordered (opcodes : Array Opcode) : Prop where
  nonempty : 0 < opcodes.size
  branches : ∀ {i : Nat} {op : Opcode}, opcodes[i]? = some op → op.isBranch = true →
    op.children ≠ []
  forward : ∀ {i j : Nat} {op : Opcode}, opcodes[i]? = some op → j ∈ op.children →
    i < j ∧ j < opcodes.size
  governed : ∀ {i : Nat} {op : Opcode}, opcodes[i]? = some op → op.governsNext = true →
    i + 1 < opcodes.size

theorem Opcodes.ordered_iff (opcodes : Array Opcode) : Opcodes.Ordered opcodes ↔
    0 < opcodes.size ∧ ∀ i : Fin opcodes.size,
      (opcodes[i].isBranch = true → opcodes[i].children ≠ []) ∧
      (∀ j ∈ opcodes[i].children, i < j ∧ j < opcodes.size) ∧
      (opcodes[i].governsNext = true → i + 1 < opcodes.size) := by
  constructor
  · intro h
    refine ⟨h.nonempty, fun i => ?_⟩
    have hop : opcodes[i.1]? = some opcodes[i] := Array.getElem?_eq_getElem i.2
    exact ⟨h.branches hop, fun j => h.forward hop, h.governed hop⟩
  · rintro ⟨hsize, h⟩
    refine ⟨hsize, fun {i op} hop => ?_, fun {i j op} hop => ?_, fun {i op} hop => ?_⟩ <;>
    obtain ⟨hi, rfl⟩ := Array.getElem?_eq_some_iff.1 hop
    · exact (h ⟨i, hi⟩).1
    · exact (h ⟨i, hi⟩).2.1 j
    · exact (h ⟨i, hi⟩).2.2

instance (opcodes : Array Opcode) : Decidable (Opcodes.Ordered opcodes) :=
  decidable_of_iff' _ (Opcodes.ordered_iff opcodes)

theorem Opcodes.Wired.ordered {opcodes : Array Opcode} (h : Opcodes.Wired opcodes) :
    Opcodes.Ordered opcodes :=
  ⟨h.nonempty, h.branches, h.forward, h.governed⟩

/-- The rules of a table can be walked, and refer to rules of the table only. -/
structure Analysis.Ordered (rules : Array Rule) : Prop where
  opcodes : ∀ rule ∈ rules, Opcodes.Ordered rule.opcodes
  inRange : ∀ rule ∈ rules, ∀ t, .rnm t ∈ rule.opcodes → t < rules.size

theorem Analysis.ordered_iff (rules : Array Rule) : Analysis.Ordered rules ↔
    ∀ rule ∈ rules, Opcodes.Ordered rule.opcodes ∧
      ∀ t ∈ References.targets rule, t < rules.size := by
  constructor
  · exact fun h rule hrule => ⟨h.opcodes rule hrule,
      fun t ht => h.inRange rule hrule t (mem_targets.1 ht)⟩
  · exact fun h => ⟨fun rule hrule => (h rule hrule).1,
      fun rule hrule t ht => (h rule hrule).2 t (mem_targets.2 ht)⟩

instance (rules : Array Rule) : Decidable (Analysis.Ordered rules) :=
  decidable_of_iff' _ (Analysis.ordered_iff rules)

namespace Walk

/-- Opcodes that can be walked have expressions. -/
theorem exists_shapeAt {opcodes : Array Opcode} (h : Opcodes.Ordered opcodes) {depth i : Nat}
    (hi : i < opcodes.size) (hdepth : opcodes.size ≤ i + depth) :
    ∃ e, shapeAt opcodes depth i = .ok e ∧ ∀ op ∈ e.atoms, op ∈ opcodes := by
  -- Children stand behind their parents, so a depth that covers the opcodes from `i` on suffices.
  induction depth generalizing i with
  | zero => omega
  | succ depth ih =>
    have hget : opcodes[i]? = some opcodes[i] := Array.getElem?_eq_getElem hi
    have hmem : opcodes[i] ∈ opcodes := Array.getElem_mem hi
    simp only [shapeAt, fetch_eq_ok.2 hget, bind, Except.bind]
    have hchildren : ∀ cs : List Nat, opcodes[i].children = cs →
        ∃ es, cs.mapM (shapeAt opcodes depth) = .ok es ∧ ∀ op ∈ Expr.atomsAll es, op ∈ opcodes := by
      intro cs hcs
      have hall : ∀ c ∈ cs, ∃ e, shapeAt opcodes depth c = .ok e ∧
          ∀ op ∈ e.atoms, op ∈ opcodes := by
        intro c hc
        have hlt := h.forward hget (hcs ▸ hc)
        exact ih hlt.2 (by omega)
      choose! shapes hshapes hatoms using hall
      refine ⟨cs.map shapes, mapM_eq_ok hshapes, fun op hop => ?_⟩
      obtain ⟨e, he, hop⟩ := Expr.mem_atomsAll.1 hop
      obtain ⟨c, hc, rfl⟩ := List.mem_map.1 he
      exact hatoms c hc op hop
    cases hop : opcodes[i] with
    | alt cs | cat cs =>
      obtain ⟨es, hes, hatoms⟩ := hchildren cs (by rw [hop]; rfl)
      refine ⟨_, by simp only [hes]; rfl, ?_⟩
      exact hatoms
    | rep min max =>
      rw [hop] at hget hmem
      obtain ⟨e, he, hatoms⟩ := ih (h.governed hget rfl) (by omega)
      refine ⟨_, by simp only [he]; rfl, ?_⟩
      exact List.forall_mem_cons.2 ⟨hmem, hatoms⟩
    | _ =>
      rw [hop] at hmem
      exact ⟨_, rfl, by simpa [Expr.atoms] using hmem⟩

/-- The expressions of the rules of a table. -/
structure Outlined (rules : Array Rule) (shapes : Nat → Expr Opcode) : Prop where
  shape : ∀ (r : Nat) rule, rules[r]? = some rule → Walk.shape rule = .ok (shapes r)
  refers : ∀ r < rules.size, ∀ t, .rnm t ∈ (shapes r).atoms → Analysis.RefersTo rules r t
  inRange : ∀ r t, Analysis.RefersTo rules r t → t < rules.size

theorem Outlined.shaped {rules : Array Rule} {shapes : Nat → Expr Opcode}
    (h : Outlined rules shapes) : Shaped rules shapes := by
  refine fun r hr => ⟨?_, fun t ht => h.inRange r t (h.refers r hr t ht)⟩
  have hrule := Array.getElem?_eq_getElem hr
  exact ⟨_, hrule, h.shape r _ hrule⟩

/-- The rules of a table that can be walked have expressions. -/
theorem exists_outlined {rules : Array Rule} (h : Analysis.Ordered rules) :
    ∃ shapes, Outlined rules shapes := by
  have hshape : ∀ r : Nat, ∃ e, ∀ rule, rules[r]? = some rule →
      shape rule = .ok e ∧ ∀ op ∈ e.atoms, op ∈ rule.opcodes := by
    intro r
    cases hr : rules[r]? with
    | none => exact ⟨.alt [], by simp⟩
    | some rule =>
      have hordered := h.opcodes rule (Array.mem_of_getElem? hr)
      obtain ⟨e, he⟩ := exists_shapeAt hordered hordered.nonempty
        (show rule.opcodes.size ≤ 0 + (rule.opcodes.size + 1) by omega)
      refine ⟨e, fun rule' hrule' => ?_⟩
      cases hrule'
      exact he
  choose shapes hshapes using hshape
  refine ⟨shapes, fun r rule hrule => (hshapes r rule hrule).1, fun r hr t ht => ?_, ?_⟩
  · have hrule := Array.getElem?_eq_getElem hr
    exact ⟨_, hrule, (hshapes r _ hrule).2 _ ht⟩
  · rintro r t ⟨rule, hrule, ht⟩
    exact h.inRange rule (Array.mem_of_getElem? hrule) t ht

/-! ## Attributes of opcodes -/

/-- `a` are attributes of the opcode at `i`, for some attributes of the rules it refers to that
satisfy `P`. -/
def AttributesAt (P : Nat → Attributes → Prop) (opcodes : Array Opcode) (depth i : Nat)
    (a : Attributes) : Prop :=
  ∃ e, shapeAt opcodes depth i = .ok e ∧ HasAttributes P e a

theorem haveAttributes_iff {P : Nat → Attributes → Prop} {es : List (Expr Opcode)}
    {parts : List Attributes} :
    HaveAttributes P es parts ↔ List.Forall₂ (HasAttributes P) es parts := by
  induction es generalizing parts with
  | nil => simp [HaveAttributes]
  | cons e es ih =>
    simp only [HaveAttributes, List.forall₂_cons_left_iff, ih]
    exact exists₂_congr fun a rest => by tauto

/-- What is found of an expression depends on what is found of the rules in it only. -/
theorem HasAttributes.mono {P Q : Nat → Attributes → Prop} {e : Expr Opcode} {a : Attributes}
    (hle : ∀ t b, .rnm t ∈ e.atoms → P t b → Q t b) (h : HasAttributes P e a) :
    HasAttributes Q e a := by
  induction e using Expr.induction generalizing a with
  | atom op =>
    cases op with
    | rnm t => exact hle t a (by simp [Expr.atoms]) h
    | _ => exact h
  | alt es ih | cat es ih =>
    obtain ⟨parts, hparts, rfl⟩ := h
    refine ⟨parts, haveAttributes_iff.2 ?_, rfl⟩
    refine (List.forall₂_and_left _ _).2 ⟨fun _ h => h, haveAttributes_iff.1 hparts⟩ |>.imp ?_
    rintro e b ⟨he, hb⟩
    exact ih e he (fun t b ht => hle t b (Expr.mem_atomsAll.2 ⟨e, he, ht⟩)) hb
  | under op e ih =>
    cases op with
    | rep min max =>
      obtain ⟨b, hb, rfl⟩ := h
      exact ⟨b, ih (fun t b ht => hle t b (by simp [Expr.atoms, ht])) hb, rfl⟩
    | _ => exact h

variable {P : Nat → Attributes → Prop} {opcodes : Array Opcode} {depth i : Nat} {a : Attributes}

/-- The attributes of an opcode follow from those of its operands, or it is a reference or another
leaf. -/
theorem AttributesAt.cases (h : AttributesAt P opcodes (depth + 1) i a) :
    (∃ op, opcodes[i]? = some op ∧ op.isPlain = true ∧ a = .ofLeaf op) ∨
    (∃ t, opcodes[i]? = some (.rnm t) ∧ P t a) ∨
    (∃ cs parts, opcodes[i]? = some (.alt cs) ∧
      List.Forall₂ (AttributesAt P opcodes depth) cs parts ∧ a = .alternation parts) ∨
    (∃ cs parts, opcodes[i]? = some (.cat cs) ∧
      List.Forall₂ (AttributesAt P opcodes depth) cs parts ∧ a = .concatenation parts) ∨
    ∃ min max b, opcodes[i]? = some (.rep min max) ∧ AttributesAt P opcodes depth (i + 1) b ∧
      a = b.repeated min := by
  obtain ⟨e, he, ha⟩ := h
  have hparts : ∀ {cs es parts}, cs.mapM (shapeAt opcodes depth) = .ok es →
      HaveAttributes P es parts → List.Forall₂ (AttributesAt P opcodes depth) cs parts := by
    intro cs es parts hes hparts
    exact forall₂_comp (mapM_eq_ok_iff.1 hes) (haveAttributes_iff.1 hparts)
  obtain ⟨op, hfetch, he⟩ := exists_of_bind_eq_ok he
  have hop := fetch_eq_ok.1 hfetch
  cases op with
  | alt cs =>
    obtain ⟨es, hes, rfl⟩ := exists_of_map_eq_ok he
    obtain ⟨parts, hhave, rfl⟩ := ha
    exact .inr (.inr (.inl ⟨cs, parts, hop, hparts hes hhave, rfl⟩))
  | cat cs =>
    obtain ⟨es, hes, rfl⟩ := exists_of_map_eq_ok he
    obtain ⟨parts, hhave, rfl⟩ := ha
    exact .inr (.inr (.inr (.inl ⟨cs, parts, hop, hparts hes hhave, rfl⟩)))
  | rep min max =>
    obtain ⟨e, hnext, rfl⟩ := exists_of_map_eq_ok he
    obtain ⟨b, hb, rfl⟩ := ha
    exact .inr (.inr (.inr (.inr ⟨min, max, b, hop, ⟨e, hnext, hb⟩, rfl⟩)))
  | rnm t =>
    cases he
    exact .inr (.inl ⟨t, hop, ha⟩)
  | _ =>
    cases he
    exact .inl ⟨_, hop, rfl, ha⟩

/-- Induction on an opcode with attributes: what holds of its operands holds of it. -/
@[elab_as_elim]
theorem AttributesAt.induction
    {motive : ∀ depth i a, AttributesAt P opcodes depth i a → Prop} {depth i : Nat} {a : Attributes}
    (h : AttributesAt P opcodes depth i a)
    (leaf : ∀ {depth i op}, opcodes[i]? = some op → op.isPlain = true →
      ∀ h, motive depth i (.ofLeaf op) h)
    (ref : ∀ {depth i t a}, opcodes[i]? = some (.rnm t) → P t a → ∀ h, motive depth i a h)
    (alt : ∀ {depth i cs parts}, opcodes[i]? = some (.alt cs) →
      List.Forall₂ (fun c b => ∃ h, motive depth c b h) cs parts →
      ∀ h, motive (depth + 1) i (.alternation parts) h)
    (cat : ∀ {depth i cs parts}, opcodes[i]? = some (.cat cs) →
      List.Forall₂ (fun c b => ∃ h, motive depth c b h) cs parts →
      ∀ h, motive (depth + 1) i (.concatenation parts) h)
    (rep : ∀ {depth i min max b}, opcodes[i]? = some (.rep min max) →
      (∃ h, motive depth (i + 1) b h) → ∀ h, motive (depth + 1) i (b.repeated min) h) :
    motive depth i a h := by
  induction depth generalizing i a with
  | zero =>
    obtain ⟨_, he, -⟩ := h
    cases he
  | succ depth ih =>
    rcases h.cases with ⟨op, hop, hplain, rfl⟩ | ⟨t, hop, ht⟩ | ⟨cs, parts, hop, hparts, rfl⟩ |
      ⟨cs, parts, hop, hparts, rfl⟩ | ⟨min, max, b, hop, hb, rfl⟩
    · exact leaf hop hplain h
    · exact ref hop ht h
    · exact alt hop (hparts.imp fun _ _ hb => ⟨hb, ih hb⟩) h
    · exact cat hop (hparts.imp fun _ _ hb => ⟨hb, ih hb⟩) h
    · exact rep hop ⟨hb, ih hb⟩ h

namespace AttributesAt

variable {cs : List Nat}

theorem pos (h : AttributesAt P opcodes depth i a) : ∃ d, depth = d + 1 := by
  obtain ⟨_, he, -⟩ := h
  cases depth with
  | zero => cases he
  | succ d => exact ⟨d, rfl⟩

theorem of_ref {t : Nat} (h : AttributesAt P opcodes depth i a)
    (hop : opcodes[i]? = some (.rnm t)) : P t a := by
  obtain ⟨d, rfl⟩ := h.pos
  rcases h.cases with ⟨_, hop', hplain, -⟩ | ⟨_, hop', ht⟩ | ⟨_, _, hop', -⟩ | ⟨_, _, hop', -⟩ |
    ⟨_, _, _, hop', -⟩ <;> cases hop.symm.trans hop'
  · cases hplain
  · exact ht

theorem of_alt (h : AttributesAt P opcodes depth i a) (hop : opcodes[i]? = some (.alt cs)) :
    ∃ d parts, List.Forall₂ (AttributesAt P opcodes d) cs parts ∧ a = .alternation parts := by
  obtain ⟨d, rfl⟩ := h.pos
  rcases h.cases with ⟨_, hop', hplain, -⟩ | ⟨_, hop', -⟩ | ⟨_, parts, hop', hparts⟩ |
    ⟨_, _, hop', -⟩ | ⟨_, _, _, hop', -⟩ <;> cases hop.symm.trans hop'
  · cases hplain
  · exact ⟨d, parts, hparts⟩

theorem of_cat (h : AttributesAt P opcodes depth i a) (hop : opcodes[i]? = some (.cat cs)) :
    ∃ d parts, List.Forall₂ (AttributesAt P opcodes d) cs parts ∧ a = .concatenation parts := by
  obtain ⟨d, rfl⟩ := h.pos
  rcases h.cases with ⟨_, hop', hplain, -⟩ | ⟨_, hop', -⟩ | ⟨_, _, hop', -⟩ |
    ⟨_, parts, hop', hparts⟩ | ⟨_, _, _, hop', -⟩ <;> cases hop.symm.trans hop'
  · cases hplain
  · exact ⟨d, parts, hparts⟩

theorem of_rep {min : UInt32} {max : Option UInt32} (h : AttributesAt P opcodes depth i a)
    (hop : opcodes[i]? = some (.rep min max)) :
    ∃ d b, AttributesAt P opcodes d (i + 1) b ∧ a = b.repeated min := by
  obtain ⟨d, rfl⟩ := h.pos
  rcases h.cases with ⟨_, hop', hplain, -⟩ | ⟨_, hop', -⟩ | ⟨_, _, hop', -⟩ | ⟨_, _, hop', -⟩ |
    ⟨_, _, b, hop', hb⟩ <;> cases hop.symm.trans hop'
  · cases hplain
  · exact ⟨d, b, hb⟩

end AttributesAt

end Walk

/-! ## Equations -/

/-- What is said of the phrases that an expression matches. -/
inductive Aspect where
  /-- It matches some finite phrase. -/
  | finite
  /-- It matches the empty phrase. -/
  | empty
  /-- It matches a phrase that is not empty. -/
  | notEmpty
  deriving Repr, DecidableEq

namespace Attributes

/-- Whether attributes say something of phrases. -/
def has (a : Attributes) : Aspect → Bool
  | .finite => a.finite
  | .empty => a.empty
  | .notEmpty => a.notEmpty

variable {aspect : Aspect}

theorem has_alternation (parts : List Attributes) :
    (alternation parts).has aspect = parts.any (·.has aspect) := by
  refine apply_alternation (f := (·.has aspect)) (fun a b => ?_) ?_ parts <;> cases aspect <;> rfl

/-- A sequence matches a phrase of a kind if all of its parts do; it matches a phrase that is not
empty if one of them does. -/
theorem has_concatenation (parts : List Attributes) : (concatenation parts).has aspect =
    if aspect = .notEmpty then parts.any (·.has aspect) else parts.all (·.has aspect) := by
  cases aspect <;> rfl

theorem has_repeated (min : UInt32) (a : Attributes) :
    (a.repeated min).has aspect = (decide (min = 0 ∧ aspect ≠ .notEmpty) || a.has aspect) := by
  by_cases hmin : min = 0
  · cases aspect <;> simp [repeated, has, hmin]
  · simp [repeated, hmin]

@[simp] theorem has_phrasePart (a : Attributes) : a.phrasePart.has aspect = a.has aspect := by
  cases aspect <;> rfl

@[simp] theorem has_withPhrases (a b : Attributes) :
    (a.withPhrases b).has aspect = b.has aspect := by
  cases aspect <;> rfl

end Attributes

namespace Phrases

/-- What the opcode at a position says of its phrases, if `v` is said of those of the rules. -/
inductive Holds (aspect : Aspect) (opcodes : Array Opcode) (v : Nat → Prop) : Nat → Prop
  | leaf {i : Nat} {op : Opcode} : opcodes[i]? = some op →
    (Attributes.ofLeaf op).has aspect = true → Holds aspect opcodes v i
  | ref {i t : Nat} : opcodes[i]? = some (.rnm t) → v t → Holds aspect opcodes v i
  | alt {i c : Nat} {cs : List Nat} : opcodes[i]? = some (.alt cs) → c ∈ cs →
    Holds aspect opcodes v c → Holds aspect opcodes v i
  | catAll {i : Nat} {cs : List Nat} : opcodes[i]? = some (.cat cs) → aspect ≠ .notEmpty →
    (∀ c ∈ cs, Holds aspect opcodes v c) → Holds aspect opcodes v i
  | catSome {i c : Nat} {cs : List Nat} : opcodes[i]? = some (.cat cs) → aspect = .notEmpty →
    c ∈ cs → Holds aspect opcodes v c → Holds aspect opcodes v i
  | repNone {i : Nat} {max : Option UInt32} : opcodes[i]? = some (.rep 0 max) →
    aspect ≠ .notEmpty → Holds aspect opcodes v i
  | rep {i : Nat} {min : UInt32} {max : Option UInt32} : opcodes[i]? = some (.rep min max) →
    Holds aspect opcodes v (i + 1) → Holds aspect opcodes v i

variable {aspect : Aspect} {opcodes : Array Opcode} {v w : Nat → Prop} {i : Nat}

/-- The right-hand sides are monotone in what is said of the rules that they refer to. -/
theorem Holds.mono (hle : ∀ t, .rnm t ∈ opcodes → v t → w t) (h : Holds aspect opcodes v i) :
    Holds aspect opcodes w i := by
  induction h with
  | leaf h hop => exact .leaf h hop
  | ref h ht => exact .ref h (hle _ (Array.mem_of_getElem? h) ht)
  | alt h hc _ ih => exact .alt h hc ih
  | catAll h haspect _ ih => exact .catAll h haspect ih
  | catSome h haspect hc _ ih => exact .catSome h haspect hc ih
  | repNone h haspect => exact .repNone h haspect
  | rep h _ ih => exact .rep h ih

/-! ### One equation for each kind of opcode -/

theorem holds_plain_iff {op : Opcode} (h : opcodes[i]? = some op) (hplain : op.isPlain = true) :
    Holds aspect opcodes v i ↔ (Attributes.ofLeaf op).has aspect = true := by
  refine ⟨fun hholds => ?_, .leaf h⟩
  cases hholds with
  | leaf h' hop =>
    cases h.symm.trans h'
    exact hop
  | ref h' | alt h' | catAll h' | catSome h' | repNone h' | rep h' =>
    cases h.symm.trans h'
    cases hplain

theorem isPlain_of_has {op : Opcode} (h : (Attributes.ofLeaf op).has aspect = true) :
    op.isPlain = true := by
  cases op with
  | alt | cat | rep | rnm => cases aspect <;> cases h
  | _ => rfl

theorem holds_ref_iff {t : Nat} (h : opcodes[i]? = some (.rnm t)) :
    Holds aspect opcodes v i ↔ v t := by
  refine ⟨fun hholds => ?_, .ref h⟩
  cases hholds with
  | leaf h' hop =>
    cases h.symm.trans h'
    cases isPlain_of_has hop
  | ref h' ht =>
    cases h.symm.trans h'
    exact ht
  | alt h' | catAll h' | catSome h' | repNone h' | rep h' => cases h.symm.trans h'

theorem holds_alt_iff {cs : List Nat} (h : opcodes[i]? = some (.alt cs)) :
    Holds aspect opcodes v i ↔ ∃ c ∈ cs, Holds aspect opcodes v c := by
  refine ⟨fun hholds => ?_, fun ⟨c, hc, hholds⟩ => .alt h hc hholds⟩
  cases hholds with
  | leaf h' hop =>
    cases h.symm.trans h'
    cases isPlain_of_has hop
  | alt h' hc hholds =>
    cases h.symm.trans h'
    exact ⟨_, hc, hholds⟩
  | ref h' | catAll h' | catSome h' | repNone h' | rep h' => cases h.symm.trans h'

theorem holds_cat_iff {cs : List Nat} (h : opcodes[i]? = some (.cat cs)) :
    Holds aspect opcodes v i ↔
      if aspect = .notEmpty then ∃ c ∈ cs, Holds aspect opcodes v c
      else ∀ c ∈ cs, Holds aspect opcodes v c := by
  constructor
  · intro hholds
    cases hholds with
    | leaf h' hop =>
      cases h.symm.trans h'
      cases isPlain_of_has hop
    | catAll h' haspect hall =>
      cases h.symm.trans h'
      rwa [if_neg haspect]
    | catSome h' haspect hc hholds =>
      cases h.symm.trans h'
      rw [if_pos haspect]
      exact ⟨_, hc, hholds⟩
    | ref h' | alt h' | repNone h' | rep h' => cases h.symm.trans h'
  · intro hparts
    split at hparts
    · obtain ⟨c, hc, hholds⟩ := hparts
      exact .catSome h ‹_› hc hholds
    · exact .catAll h ‹_› hparts

theorem holds_rep_iff {min : UInt32} {max : Option UInt32}
    (h : opcodes[i]? = some (.rep min max)) :
    Holds aspect opcodes v i ↔
      (min = 0 ∧ aspect ≠ .notEmpty) ∨ Holds aspect opcodes v (i + 1) := by
  constructor
  · intro hholds
    cases hholds with
    | leaf h' hop =>
      cases h.symm.trans h'
      cases isPlain_of_has hop
    | repNone h' haspect =>
      cases h.symm.trans h'
      exact Or.inl ⟨rfl, haspect⟩
    | rep h' hholds =>
      cases h.symm.trans h'
      exact Or.inr hholds
    | ref h' | alt h' | catAll h' | catSome h' => cases h.symm.trans h'
  · rintro (⟨rfl, haspect⟩ | hholds)
    · exact .repNone h haspect
    · exact .rep h hholds

end Phrases

namespace Walk

section

variable {α β : Type} {f : β → Bool} {Q : α → Prop} {as : List α} {bs : List β}

theorem exists_mem_of_any (h : List.Forall₂ (fun a b => f b = true → Q a) as bs)
    (hany : bs.any f = true) : ∃ a ∈ as, Q a := by
  induction h with
  | nil => cases hany
  | cons hhead _ ih =>
    rw [List.any_cons, Bool.or_eq_true] at hany
    rcases hany with hany | hany
    · exact ⟨_, List.mem_cons_self, hhead hany⟩
    · obtain ⟨a, ha, hq⟩ := ih hany
      exact ⟨a, List.mem_cons_of_mem _ ha, hq⟩

theorem forall_mem_of_all (h : List.Forall₂ (fun a b => f b = true → Q a) as bs)
    (hall : bs.all f = true) : ∀ a ∈ as, Q a := by
  induction h with
  | nil => simp
  | cons hhead _ ih =>
    rw [List.all_cons, Bool.and_eq_true] at hall
    exact List.forall_mem_cons.2 ⟨hhead hall.1, ih hall.2⟩

theorem any_of_exists_mem (h : List.Forall₂ (fun a b => Q a → f b = true) as bs)
    (hmem : ∃ a ∈ as, Q a) : bs.any f = true := by
  induction h with
  | nil => simp at hmem
  | cons hhead _ ih =>
    rw [List.any_cons, Bool.or_eq_true]
    obtain ⟨a, ha, hq⟩ := hmem
    rcases List.mem_cons.1 ha with rfl | ha
    · exact Or.inl (hhead hq)
    · exact Or.inr (ih ⟨a, ha, hq⟩)

theorem all_of_forall_mem (h : List.Forall₂ (fun a b => Q a → f b = true) as bs)
    (hmem : ∀ a ∈ as, Q a) : bs.all f = true := by
  induction h with
  | nil => rfl
  | cons hhead _ ih =>
    rw [List.all_cons, Bool.and_eq_true]
    obtain ⟨hq, hmem⟩ := List.forall_mem_cons.1 hmem
    exact ⟨hhead hq, ih hmem⟩

end

namespace AttributesAt

open Phrases

variable {P : Nat → Attributes → Prop} {opcodes : Array Opcode} {depth i : Nat} {a : Attributes}
  {aspect : Aspect} {v : Nat → Prop}

/-- What a walk finds holds, if what it found of the rules does. -/
theorem holds (h : AttributesAt P opcodes depth i a)
    (hP : ∀ t b, P t b → b.has aspect = true → v t) (ha : a.has aspect = true) :
    Holds aspect opcodes v i := by
  induction h using AttributesAt.induction with
  | leaf hop => exact .leaf hop ha
  | ref hop ht => exact .ref hop (hP _ _ ht ha)
  | alt hop hparts =>
    rw [Attributes.has_alternation] at ha
    obtain ⟨c, hc, hholds⟩ := exists_mem_of_any (hparts.imp fun _ _ ⟨_, ih⟩ => ih) ha
    exact .alt hop hc hholds
  | cat hop hparts =>
    have hparts := hparts.imp fun _ _ ⟨_, ih⟩ => ih
    rw [Attributes.has_concatenation] at ha
    split at ha
    · obtain ⟨c, hc, hholds⟩ := exists_mem_of_any hparts ha
      exact .catSome hop ‹_› hc hholds
    · exact .catAll hop ‹_› (forall_mem_of_all hparts ha)
  | rep hop ih =>
    obtain ⟨_, ih⟩ := ih
    rw [Attributes.has_repeated, Bool.or_eq_true, decide_eq_true_eq] at ha
    rcases ha with ⟨rfl, haspect⟩ | ha
    · exact .repNone hop haspect
    · exact .rep hop (ih ha)

/-- What holds is found, if what holds of the rules was found of them. -/
theorem has (h : AttributesAt P opcodes depth i a)
    (hP : ∀ t b, P t b → v t → b.has aspect = true) (hholds : Holds aspect opcodes v i) :
    a.has aspect = true := by
  induction h using AttributesAt.induction with
  | leaf hop hplain => exact (holds_plain_iff hop hplain).1 hholds
  | ref hop ht => exact hP _ _ ht ((holds_ref_iff hop).1 hholds)
  | alt hop hparts =>
    rw [Attributes.has_alternation]
    exact any_of_exists_mem (hparts.imp fun _ _ ⟨_, ih⟩ => ih) ((holds_alt_iff hop).1 hholds)
  | cat hop hparts =>
    have hparts := hparts.imp fun _ _ ⟨_, ih⟩ => ih
    rw [holds_cat_iff hop] at hholds
    rw [Attributes.has_concatenation]
    split
    · rw [if_pos ‹_›] at hholds
      exact any_of_exists_mem hparts hholds
    · rw [if_neg ‹_›] at hholds
      exact all_of_forall_mem hparts hholds
  | rep hop ih =>
    obtain ⟨_, ih⟩ := ih
    rw [Attributes.has_repeated, Bool.or_eq_true, decide_eq_true_eq]
    exact ((holds_rep_iff hop).1 hholds).imp_right ih

end AttributesAt

end Walk

end Abnf
