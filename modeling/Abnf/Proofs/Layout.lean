import Mathlib.Data.List.Nodup
import Mathlib.Data.List.Range
import Abnf.Expr
import Abnf.Fault
import Abnf.Rule

/-!
# Expressions in flat tables

A flat opcode list holds an expression when following children and operands from some position
unfolds to it. The layout of an expression holds it from position 0 on, and it holds it as a tree:
every opcode but the first is the child or the operand of exactly one opcode before it.

* `Expr.stands_layout`: a layout holds the expression it was made from.
* `Opcodes.Wired`: what makes an opcode list a tree, and `Expr.wired_layout`: layouts are wired.
-/

namespace Abnf

open scoped Decisions

/-! ## Lists that correspond -/

theorem exists_split_of_forall₂ {α β : Type} {R : α → β → Prop} {before after : List α} {c : α}
    {bs : List β} (h : List.Forall₂ R (before ++ c :: after) bs) :
    ∃ bs₁ b bs₂, bs = bs₁ ++ b :: bs₂ ∧ List.Forall₂ R before bs₁ ∧ R c b ∧
      List.Forall₂ R after bs₂ := by
  induction before generalizing bs with
  | nil =>
    cases h with
    | cons hc hafter => exact ⟨[], _, _, rfl, .nil, hc, hafter⟩
  | cons a before ih =>
    cases h with
    | @cons _ b _ _ ha hrest =>
      obtain ⟨bs₁, b', bs₂, rfl, hbefore, hc, hafter⟩ := ih hrest
      exact ⟨b :: bs₁, b', bs₂, rfl, .cons ha hbefore, hc, hafter⟩

theorem exists_right_of_mem {α β : Type} {R : α → β → Prop} {as : List α} {bs : List β}
    (h : List.Forall₂ R as bs) {a : α} (ha : a ∈ as) : ∃ b ∈ bs, R a b := by
  obtain ⟨before, after, rfl⟩ := List.append_of_mem ha
  obtain ⟨bs₁, b, bs₂, rfl, -, hab, -⟩ := exists_split_of_forall₂ h
  exact ⟨b, by simp, hab⟩

theorem exists_left_of_mem {α β : Type} {R : α → β → Prop} {as : List α} {bs : List β}
    (h : List.Forall₂ R as bs) {b : β} (hb : b ∈ bs) : ∃ a ∈ as, R a b :=
  exists_right_of_mem (R := flip R) h.flip hb

theorem forall₂_comp {α β γ : Type} {R : α → β → Prop} {S : β → γ → Prop} {as : List α}
    {bs : List β} {cs : List γ} (h : List.Forall₂ R as bs) (h' : List.Forall₂ S bs cs) :
    List.Forall₂ (fun a c => ∃ b, R a b ∧ S b c) as cs := by
  induction h generalizing cs with
  | nil =>
    cases h'
    exact .nil
  | cons hhead _ ih =>
    cases h' with
    | cons hhead' htail' => exact .cons ⟨_, hhead, hhead'⟩ (ih htail')

/-! ## Loops that may fail -/

theorem mapM_of_forall₂ {ε α β γ : Type} {f : α → Except ε β} {g : γ → β} {as : List α}
    {cs : List γ} (h : List.Forall₂ (fun a c => f a = .ok (g c)) as cs) :
    as.mapM f = .ok (cs.map g) := by
  induction h with
  | nil => rfl
  | cons hhead _ ih =>
    rw [List.mapM_cons, hhead, ih]
    rfl

theorem mapM_eq_ok {ε α β : Type} {f : α → Except ε β} {g : α → β} {as : List α}
    (h : ∀ a ∈ as, f a = .ok (g a)) : as.mapM f = .ok (as.map g) :=
  mapM_of_forall₂ (List.forall₂_same.2 h)

theorem mapM_eq_ok_iff {ε α β : Type} {f : α → Except ε β} {as : List α} {bs : List β} :
    as.mapM f = .ok bs ↔ List.Forall₂ (fun a b => f a = .ok b) as bs := by
  constructor
  · intro h
    induction as generalizing bs with
    | nil =>
      cases h
      exact .nil
    | cons a as ih =>
      rw [List.mapM_cons] at h
      obtain ⟨b, ha, h⟩ := exists_of_bind_eq_ok h
      obtain ⟨rest, has, h⟩ := exists_of_bind_eq_ok h
      cases h
      exact .cons ha (ih has)
  · intro h
    have := mapM_of_forall₂ (g := id) h
    rwa [List.map_id] at this

/-- Equal steps make equal folds, as long as the steps are equal where folds come to. -/
theorem foldlM_eq_of_forall {ε α σ : Type} {f g : σ → α → Except ε σ} {as : List α}
    (Inv : σ → Prop) (h : ∀ a ∈ as, ∀ s, Inv s → f s a = g s a ∧ ∀ s', g s a = .ok s' → Inv s')
    {s : σ} (hs : Inv s) : as.foldlM f s = as.foldlM g s := by
  induction as generalizing s with
  | nil => rfl
  | cons a as ih =>
    obtain ⟨heq, hnext⟩ := h a (by simp) s hs
    rw [List.foldlM_cons, List.foldlM_cons, heq]
    cases hstep : g s a with
    | error => rfl
    | ok s' => exact ih (fun b hb => h b (by simp [hb])) (hnext s' hstep)

/-- A loop whose steps all succeed and keep an invariant succeeds and keeps it. -/
theorem foldlM_spec {ε α σ : Type} {f : σ → α → Except ε σ} {Inv : σ → Prop} {as : List α}
    (h : ∀ a ∈ as, ∀ s, Inv s → ∃ s', f s a = .ok s' ∧ Inv s') (s : σ) (hs : Inv s) :
    ∃ s', as.foldlM f s = .ok s' ∧ Inv s' := by
  induction as generalizing s with
  | nil => exact ⟨s, rfl, hs⟩
  | cons a as ih =>
    obtain ⟨s', heq, hs'⟩ := h a (by simp) s hs
    obtain ⟨s'', heq', hs''⟩ := ih (fun a ha => h a (by simp [ha])) s' hs'
    refine ⟨s'', ?_, hs''⟩
    simp only [List.foldlM_cons, heq, bind, Except.bind]
    exact heq'

/-- Steps that each get one element done, taken for several elements. -/
theorem foldlM_done {ε α σ : Type} {f : σ → α → Except ε σ} {as : List α} {done : α → Prop} {s : σ}
    (Good : (α → Prop) → σ → Prop)
    (hgood : ∀ {done done' : α → Prop} {s}, (∀ a, done' a → done a) → Good done s → Good done' s)
    (hstep : ∀ a ∈ as, ∀ done' s, (∀ b, done b → done' b) → Good done' s →
      ∃ s', f s a = .ok s' ∧ Good (fun b => b = a ∨ done' b) s') (hs : Good done s) :
    ∃ s', as.foldlM f s = .ok s' ∧ Good (fun b => b ∈ as ∨ done b) s' := by
  induction as generalizing done s with
  | nil => exact ⟨s, rfl, hgood (by simp) hs⟩
  | cons a as ih =>
    obtain ⟨next, heq, hnext⟩ := hstep a (by simp) done s (fun _ h => h) hs
    obtain ⟨s', heq', hs'⟩ := ih (fun b hb done' s hle => hstep b (by simp [hb]) done' s
      fun c hc => hle c (Or.inr hc)) hnext
    refine ⟨s', ?_, hgood (fun b hb => ?_) hs'⟩
    · rw [List.foldlM_cons, heq]
      exact heq'
    · rw [List.mem_cons] at hb
      tauto

/-! ## Opcodes of a table -/

/-- The opcode at a position of a rule. -/
def opcodeAt? (rules : Array Rule) (r op : Nat) : Option Opcode :=
  rules[r]?.bind fun rule => rule.opcodes[op]?

theorem opcodeAt?_eq {rules : Array Rule} {r op : Nat} {rule : Rule} (h : rules[r]? = some rule) :
    opcodeAt? rules r op = rule.opcodes[op]? := by
  rw [opcodeAt?, h, Option.bind_some]

theorem opcodeAt?_eq_some {rules : Array Rule} {r op : Nat} {found : Opcode} :
    opcodeAt? rules r op = some found ↔ ∃ rule, rules[r]? = some rule ∧
      rule.opcodes[op]? = some found :=
  Option.bind_eq_some_iff

/-! ## Kinds of opcode -/

namespace Opcode

/-- Whether an opcode stands alone: it lists no children and governs nothing. -/
def isLeaf : Opcode → Bool
  | alt _ | cat _ => false
  | op => !op.governsNext

/-- Whether an opcode is a choice or a sequence. -/
def isBranch : Opcode → Bool
  | alt _ | cat _ => true
  | _ => false

/-- The positions that the opcode at position `i` leads to: its children, or what it governs. -/
def targets (i : Nat) (op : Opcode) : List Nat :=
  op.children ++ if op.governsNext then [i + 1] else []

theorem targets_of_isLeaf {op : Opcode} (h : op.isLeaf = true) (i : Nat) : op.targets i = [] := by
  cases op <;> simp_all [isLeaf, targets, children, governsNext]

theorem targets_of_governsNext {op : Opcode} (h : op.governsNext = true) (i : Nat) :
    op.targets i = [i + 1] := by
  cases op <;> simp_all [targets, children, governsNext]

@[simp] theorem targets_alt (i : Nat) (cs : List Nat) : (alt cs).targets i = cs := by
  simp [targets, children, governsNext]

@[simp] theorem targets_cat (i : Nat) (cs : List Nat) : (cat cs).targets i = cs := by
  simp [targets, children, governsNext]

end Opcode

namespace Expr

variable {α : Type}

/-! ## Induction over expressions -/

/-- Induction over an expression with one case for each kind of node; a branch may assume the
statement of all its children. -/
@[elab_as_elim]
theorem induction {motive : Expr α → Prop} (atom : ∀ a, motive (.atom a))
    (alt : ∀ es, (∀ e ∈ es, motive e) → motive (.alt es))
    (cat : ∀ es, (∀ e ∈ es, motive e) → motive (.cat es))
    (under : ∀ a e, motive e → motive (.under a e)) (e : Expr α) : motive e := by
  refine @Expr.rec α motive (fun es => ∀ e ∈ es, motive e) atom alt cat under ?nil ?cons e
  case nil =>
    intro e he
    exact absurd he (by simp)
  case cons =>
    intro e es he hes e' he'
    rcases List.mem_cons.1 he' with rfl | h
    · exact he
    · exact hes e' h

/-! ## Sizes -/

theorem size_pos (e : Expr α) : 0 < e.size := by
  cases e <;> simp [size]

theorem size_le_sizeAll {e : Expr α} {es : List (Expr α)} (h : e ∈ es) : e.size ≤ sizeAll es := by
  induction es with
  | nil => exact absurd h (by simp)
  | cons e' es ih =>
    rw [sizeAll]
    rcases List.mem_cons.1 h with rfl | h
    · omega
    · have := ih h
      omega

theorem length_starts (start : Nat) (es : List (Expr α)) :
    (starts start es).length = es.length := by
  induction es generalizing start with
  | nil => rfl
  | cons e es ih => simp [starts, ih]

theorem length_layoutAllFrom {es : List (Expr Opcode)}
    (h : ∀ e ∈ es, ∀ start, (layoutFrom start e).length = e.size) (start : Nat) :
    (layoutAllFrom start es).length = sizeAll es := by
  induction es generalizing start with
  | nil => rfl
  | cons e es ih =>
    rw [layoutAllFrom, List.length_append, h e (by simp), sizeAll,
      ih (fun e' he' => h e' (by simp [he']))]

theorem length_layoutFrom (start : Nat) (e : Expr Opcode) :
    (layoutFrom start e).length = e.size := by
  induction e using Expr.induction generalizing start with
  | atom a => rfl
  | alt es ih => rw [layoutFrom, List.length_cons, length_layoutAllFrom ih, size]
  | cat es ih => rw [layoutFrom, List.length_cons, length_layoutAllFrom ih, size]
  | under a e ih => rw [layoutFrom, List.length_cons, ih, size]

@[simp] theorem size_layout (e : Expr Opcode) : e.layout.size = e.size := by
  simp [layout, length_layoutFrom]

/-! ## Valid expressions -/

mutual

/-- Whether an expression uses every opcode for what it is: leaves stand alone, operators govern
their operands, and branches are made by the branch nodes and have children. -/
def isValid : Expr Opcode → Bool
  | atom op => op.isLeaf
  | alt es => !es.isEmpty && allValid es
  | cat es => !es.isEmpty && allValid es
  | under op e => op.governsNext && isValid e

/-- Whether several expressions are valid. -/
def allValid : List (Expr Opcode) → Bool
  | [] => true
  | e :: es => isValid e && allValid es

end

theorem allValid_iff {es : List (Expr Opcode)} :
    allValid es = true ↔ ∀ e ∈ es, e.isValid = true := by
  induction es with
  | nil => simp [allValid]
  | cons e es ih => simp [allValid, ih]

/-! ## Holding an expression -/

mutual

/-- The expression that unfolds from position `op` of a flat opcode list. -/
def Stands (opcodes : Array Opcode) (op : Nat) : Expr Opcode → Prop
  | atom a => opcodes[op]? = some a ∧ a.isLeaf = true
  | alt es => ∃ cs, opcodes[op]? = some (.alt cs) ∧ StandAll opcodes cs es
  | cat es => ∃ cs, opcodes[op]? = some (.cat cs) ∧ StandAll opcodes cs es
  | under a e => opcodes[op]? = some a ∧ a.governsNext = true ∧ Stands opcodes (op + 1) e

/-- The expressions that unfold from some positions, one each. -/
def StandAll (opcodes : Array Opcode) (cs : List Nat) : List (Expr Opcode) → Prop
  | [] => cs = []
  | e :: es => ∃ c cs', cs = c :: cs' ∧ Stands opcodes c e ∧ StandAll opcodes cs' es

end

theorem Stands.exists_opcode {opcodes : Array Opcode} {op : Nat} {e : Expr Opcode}
    (h : Stands opcodes op e) : ∃ o, opcodes[op]? = some o := by
  cases e with
  | atom a => exact ⟨a, h.1⟩
  | alt es | cat es =>
    obtain ⟨cs, hop, -⟩ := h
    exact ⟨_, hop⟩
  | under a e => exact ⟨a, h.1⟩

theorem StandAll.forall₂ {opcodes : Array Opcode} {cs : List Nat} {es : List (Expr Opcode)}
    {R : Nat → Expr Opcode → Prop} (h : StandAll opcodes cs es)
    (hR : ∀ e ∈ es, ∀ c, Stands opcodes c e → R c e) : List.Forall₂ R cs es := by
  induction es generalizing cs with
  | nil =>
    rw [StandAll] at h
    subst h
    exact .nil
  | cons e es ih =>
    obtain ⟨c, cs', rfl, hc, hcs⟩ := h
    exact .cons (hR e (by simp) c hc) (ih hcs fun e' he' => hR e' (by simp [he']))

/-- Some opcodes stand one after the other in a list, from position `start` on. -/
def Segment (opcodes : Array Opcode) (start : Nat) (segment : List Opcode) : Prop :=
  segment <+: opcodes.toList.drop start

theorem segment_cons {opcodes : Array Opcode} {start : Nat} {op : Opcode} {rest : List Opcode}
    (h : Segment opcodes start (op :: rest)) :
    opcodes[start]? = some op ∧ Segment opcodes (start + 1) rest := by
  obtain ⟨behind, hb⟩ := h
  constructor
  · rw [← Array.getElem?_toList, ← Nat.add_zero start, ← List.getElem?_drop, ← hb]
    rfl
  · refine ⟨behind, ?_⟩
    rw [← List.drop_drop, ← hb]
    rfl

theorem segment_append {opcodes : Array Opcode} {start : Nat} {segment rest : List Opcode}
    (h : Segment opcodes start (segment ++ rest)) :
    Segment opcodes start segment ∧ Segment opcodes (start + segment.length) rest := by
  obtain ⟨behind, hb⟩ := h
  constructor
  · exact ⟨rest ++ behind, by rw [← hb, List.append_assoc]⟩
  · refine ⟨behind, ?_⟩
    rw [← List.drop_drop, ← hb, List.append_assoc, List.drop_left]

theorem standAll_of_segment {opcodes : Array Opcode} {es : List (Expr Opcode)}
    (h : ∀ e ∈ es, ∀ start, Segment opcodes start (layoutFrom start e) → Stands opcodes start e)
    (start : Nat) (hs : Segment opcodes start (layoutAllFrom start es)) :
    StandAll opcodes (starts start es) es := by
  induction es generalizing start with
  | nil => rfl
  | cons e es ih =>
    rw [layoutAllFrom] at hs
    obtain ⟨hhead, htail⟩ := segment_append hs
    rw [length_layoutFrom] at htail
    exact ⟨_, _, rfl, h e (by simp) start hhead,
      ih (fun e' he' => h e' (by simp [he'])) (start + e.size) htail⟩

theorem stands_of_segment {opcodes : Array Opcode} {e : Expr Opcode} (hv : e.isValid = true)
    (start : Nat) (hs : Segment opcodes start (layoutFrom start e)) : Stands opcodes start e := by
  induction e using Expr.induction generalizing start with
  | atom a => exact ⟨(segment_cons hs).1, hv⟩
  | alt es ih =>
    simp only [isValid, Bool.and_eq_true, allValid_iff] at hv
    obtain ⟨hroot, hrest⟩ := segment_cons hs
    exact ⟨_, hroot, standAll_of_segment (fun e he => ih e he (hv.2 e he)) _ hrest⟩
  | cat es ih =>
    simp only [isValid, Bool.and_eq_true, allValid_iff] at hv
    obtain ⟨hroot, hrest⟩ := segment_cons hs
    exact ⟨_, hroot, standAll_of_segment (fun e he => ih e he (hv.2 e he)) _ hrest⟩
  | under a e ih =>
    simp only [isValid, Bool.and_eq_true] at hv
    obtain ⟨hroot, hrest⟩ := segment_cons hs
    exact ⟨hroot, hv.1, ih hv.2 _ hrest⟩

/-- A layout holds the expression it was made from. -/
theorem stands_layout {e : Expr Opcode} (hv : e.isValid = true) : Stands e.layout 0 e :=
  stands_of_segment hv 0 ⟨[], by simp [layout]⟩

/-! ## Layouts are trees -/

/-- Every position that some opcodes lead to, when the first of them stands at `start`. -/
def allTargets (start : Nat) : List Opcode → List Nat
  | [] => []
  | op :: rest => op.targets start ++ allTargets (start + 1) rest

theorem allTargets_append (start : Nat) (a b : List Opcode) :
    allTargets start (a ++ b) = allTargets start a ++ allTargets (start + a.length) b := by
  induction a generalizing start with
  | nil => simp [allTargets]
  | cons op rest ih =>
    rw [List.cons_append, allTargets, allTargets, ih, List.append_assoc, List.length_cons,
      Nat.add_assoc, Nat.add_comm 1]

/-- The starts of expressions laid out in a row, and the positions that they lead to, are all the
positions of the row, once each. -/
theorem starts_append_allTargets_perm {es : List (Expr Opcode)}
    (h : ∀ e ∈ es, ∀ start,
      (start :: allTargets start (layoutFrom start e)).Perm (List.range' start e.size))
    (start : Nat) :
    (starts start es ++ allTargets start (layoutAllFrom start es)).Perm
      (List.range' start (sizeAll es)) := by
  induction es generalizing start with
  | nil => simp [starts, layoutAllFrom, allTargets, sizeAll]
  | cons e es ih =>
    rw [starts, layoutAllFrom, allTargets_append, length_layoutFrom, sizeAll,
      ← List.range'_append_1]
    have hhead := h e (by simp) start
    have htail := ih (fun e' he' => h e' (by simp [he'])) (start + e.size)
    refine List.Perm.trans ?_ (hhead.append htail)
    rw [List.cons_append, List.cons_append]
    refine List.Perm.cons _ ?_
    rw [← List.append_assoc, ← List.append_assoc]
    exact List.Perm.append_right _ List.perm_append_comm

theorem cons_allTargets_perm {e : Expr Opcode} (hv : e.isValid = true) (start : Nat) :
    (start :: allTargets start (layoutFrom start e)).Perm (List.range' start e.size) := by
  induction e using Expr.induction generalizing start with
  | atom a =>
    simp only [isValid] at hv
    simp [layoutFrom, allTargets, Opcode.targets_of_isLeaf hv, size]
  | alt es ih =>
    simp only [isValid, Bool.and_eq_true, allValid_iff] at hv
    rw [layoutFrom, allTargets, Opcode.targets_alt, size, List.range'_succ]
    exact (starts_append_allTargets_perm (fun e he => ih e he (hv.2 e he)) _).cons _
  | cat es ih =>
    simp only [isValid, Bool.and_eq_true, allValid_iff] at hv
    rw [layoutFrom, allTargets, Opcode.targets_cat, size, List.range'_succ]
    exact (starts_append_allTargets_perm (fun e he => ih e he (hv.2 e he)) _).cons _
  | under a e ih =>
    simp only [isValid, Bool.and_eq_true] at hv
    rw [layoutFrom, allTargets, Opcode.targets_of_governsNext hv.1, size, List.range'_succ]
    exact (ih hv.2 (start + 1)).cons _

theorem mem_allTargets {start j : Nat} {opcodes : List Opcode} :
    j ∈ allTargets start opcodes ↔
      ∃ (k : Nat) (op : Opcode), opcodes[k]? = some op ∧ j ∈ op.targets (start + k) := by
  induction opcodes generalizing start with
  | nil => simp [allTargets]
  | cons op rest ih =>
    rw [allTargets, List.mem_append, ih]
    constructor
    · rintro (h | ⟨k, op', hop, h⟩)
      · exact ⟨0, op, rfl, h⟩
      · exact ⟨k + 1, op', hop, by rwa [Nat.add_comm k, ← Nat.add_assoc]⟩
    · rintro ⟨k, op', hop, h⟩
      cases k with
      | zero =>
        cases hop
        exact Or.inl h
      | succ k => exact Or.inr ⟨k, op', hop, by rwa [Nat.add_assoc, Nat.add_comm 1]⟩

theorem eq_of_nodup_allTargets {start i i' j : Nat} {opcodes : List Opcode} {op op' : Opcode}
    (h : (allTargets start opcodes).Nodup) (hop : opcodes[i]? = some op)
    (hj : j ∈ op.targets (start + i)) (hop' : opcodes[i']? = some op')
    (hj' : j ∈ op'.targets (start + i')) : i = i' := by
  induction opcodes generalizing start i i' with
  | nil => simp at hop
  | cons first rest ih =>
    rw [allTargets, List.nodup_append] at h
    obtain ⟨-, hrest, hdisjoint⟩ := h
    -- A target of a later opcode is a target of the rest, so it is none of the first one's.
    have later : ∀ {k : Nat} {a : Opcode}, rest[k]? = some a → j ∈ a.targets (start + (k + 1)) →
        j ∈ allTargets (start + 1) rest := by
      intro k a hk ha
      exact mem_allTargets.2 ⟨k, a, hk, by rwa [Nat.add_assoc, Nat.add_comm 1]⟩
    cases i with
    | zero =>
      cases i' with
      | zero => rfl
      | succ i' =>
        cases hop
        exact absurd rfl (hdisjoint j hj j (later hop' hj'))
    | succ i =>
      cases i' with
      | zero =>
        cases hop'
        exact absurd rfl (hdisjoint j hj' j (later hop hj))
      | succ i' =>
        rw [ih hrest hop (by rwa [Nat.add_assoc, Nat.add_comm 1]) hop'
          (by rwa [Nat.add_assoc, Nat.add_comm 1])]

theorem le_of_mem_starts {start j : Nat} {es : List (Expr α)} (h : j ∈ starts start es) :
    start ≤ j := by
  induction es generalizing start with
  | nil => simp [starts] at h
  | cons e es ih =>
    rcases List.mem_cons.1 h with rfl | h
    · exact Nat.le_refl _
    · have := ih h
      omega

/-- `P` holds of every opcode and its position, when the first one stands at `start`. -/
def Each (P : Nat → Opcode → Prop) (start : Nat) (opcodes : List Opcode) : Prop :=
  ∀ k op, opcodes[k]? = some op → P (start + k) op

namespace Each

variable {P : Nat → Opcode → Prop} {start : Nat}

theorem nil : Each P start [] := by
  intro k op hk
  simp at hk

theorem cons {op : Opcode} {rest : List Opcode} (h : P start op) (hrest : Each P (start + 1) rest) :
    Each P start (op :: rest) := by
  intro k a hk
  cases k with
  | zero =>
    cases hk
    exact h
  | succ k =>
    have := hrest k a hk
    rwa [Nat.add_assoc, Nat.add_comm 1] at this

theorem append {a b : List Opcode} (ha : Each P start a) (hb : Each P (start + a.length) b) :
    Each P start (a ++ b) := by
  intro k op hk
  by_cases hlt : k < a.length
  · exact ha k op (by rwa [List.getElem?_append_left hlt] at hk)
  · have hle : a.length ≤ k := Nat.le_of_not_lt hlt
    rw [List.getElem?_append_right hle] at hk
    have := hb (k - a.length) op hk
    rwa [Nat.add_assoc, Nat.add_sub_cancel' hle] at this

theorem layoutAllFrom {es : List (Expr Opcode)}
    (h : ∀ e ∈ es, ∀ start, Each P start (layoutFrom start e)) (start : Nat) :
    Each P start (layoutAllFrom start es) := by
  induction es generalizing start with
  | nil => exact nil
  | cons e es ih =>
    refine (h e (by simp) start).append ?_
    rw [length_layoutFrom]
    exact ih (fun e' he' => h e' (by simp [he'])) _

/-- What holds of leaves, of operators and of branches with the children that a layout gives them
holds of every opcode of a layout. -/
theorem layoutFrom {e : Expr Opcode} (hv : e.isValid = true)
    (hleaf : ∀ i op, op.isLeaf = true → P i op)
    (hoperator : ∀ i op, op.governsNext = true → P i op)
    (halt : ∀ i (es : List (Expr Opcode)), P i (.alt (starts (i + 1) es)))
    (hcat : ∀ i (es : List (Expr Opcode)), P i (.cat (starts (i + 1) es))) (start : Nat) :
    Each P start (layoutFrom start e) := by
  induction e using Expr.induction generalizing start with
  | atom a => exact cons (hleaf start a hv) nil
  | alt es ih =>
    simp only [isValid, Bool.and_eq_true, allValid_iff] at hv
    exact cons (halt start es) (layoutAllFrom (fun e he => ih e he (hv.2 e he)) _)
  | cat es ih =>
    simp only [isValid, Bool.and_eq_true, allValid_iff] at hv
    exact cons (hcat start es) (layoutAllFrom (fun e he => ih e he (hv.2 e he)) _)
  | under a e ih =>
    simp only [isValid, Bool.and_eq_true] at hv
    exact cons (hoperator start a hv.1) (ih hv.2 _)

end Each

/-- Every opcode of a layout leads to positions behind its own only. -/
theorem forward_layoutFrom {e : Expr Opcode} (hv : e.isValid = true) (start : Nat) :
    Each (fun i op => ∀ j ∈ op.targets i, i < j) start (layoutFrom start e) := by
  refine Each.layoutFrom hv ?_ ?_ ?_ ?_ start
  · intro i op hop
    simp [Opcode.targets_of_isLeaf hop]
  · intro i op hop
    simp [Opcode.targets_of_governsNext hop]
  · intro i es j hj
    rw [Opcode.targets_alt] at hj
    exact le_of_mem_starts hj
  · intro i es j hj
    rw [Opcode.targets_cat] at hj
    exact le_of_mem_starts hj

theorem mem_atomsAll {a : α} {es : List (Expr α)} :
    a ∈ atomsAll es ↔ ∃ e ∈ es, a ∈ e.atoms := by
  induction es with
  | nil => simp [atomsAll]
  | cons e es ih => simp [atomsAll, ih]

theorem mem_layoutAllFrom {op : Opcode} {es : List (Expr Opcode)} {start : Nat}
    (h : op ∈ layoutAllFrom start es) : ∃ e ∈ es, ∃ start, op ∈ layoutFrom start e := by
  induction es generalizing start with
  | nil => simp [layoutAllFrom] at h
  | cons e es ih =>
    rcases List.mem_append.1 h with h | h
    · exact ⟨e, by simp, start, h⟩
    · obtain ⟨e', he', hop⟩ := ih h
      exact ⟨e', by simp [he'], hop⟩

/-- An opcode of a layout is an atom of the expression, or a branch that has children. -/
theorem mem_layoutFrom {op : Opcode} {e : Expr Opcode} (hv : e.isValid = true) {start : Nat}
    (h : op ∈ layoutFrom start e) :
    (op ∈ e.atoms ∧ op.isBranch = false) ∨ (op.isBranch = true ∧ op.children ≠ []) := by
  induction e using Expr.induction generalizing start with
  | atom a =>
    simp only [layoutFrom, List.mem_singleton] at h
    subst h
    refine Or.inl ⟨by simp [atoms], ?_⟩
    cases op <;> simp_all [isValid, Opcode.isLeaf, Opcode.isBranch]
  | alt es ih =>
    simp only [isValid, Bool.and_eq_true, allValid_iff] at hv
    rcases List.mem_cons.1 h with rfl | h
    · refine Or.inr ⟨rfl, ?_⟩
      rw [Opcode.children, ← List.length_pos_iff, length_starts]
      exact List.length_pos_iff.2 (by simpa using hv.1)
    · obtain ⟨e, he, s, hop⟩ := mem_layoutAllFrom h
      exact (ih e he (hv.2 e he) hop).imp_left fun ha => ⟨mem_atomsAll.2 ⟨e, he, ha.1⟩, ha.2⟩
  | cat es ih =>
    simp only [isValid, Bool.and_eq_true, allValid_iff] at hv
    rcases List.mem_cons.1 h with rfl | h
    · refine Or.inr ⟨rfl, ?_⟩
      rw [Opcode.children, ← List.length_pos_iff, length_starts]
      exact List.length_pos_iff.2 (by simpa using hv.1)
    · obtain ⟨e, he, s, hop⟩ := mem_layoutAllFrom h
      exact (ih e he (hv.2 e he) hop).imp_left fun ha => ⟨mem_atomsAll.2 ⟨e, he, ha.1⟩, ha.2⟩
  | under a e ih =>
    simp only [isValid, Bool.and_eq_true] at hv
    rcases List.mem_cons.1 h with rfl | h
    · refine Or.inl ⟨by simp [atoms], ?_⟩
      cases op <;> simp_all [Opcode.governsNext, Opcode.isBranch]
    · exact (ih hv.2 h).imp_left fun ha => ⟨by simp [atoms, ha.1], ha.2⟩

theorem mem_layoutAllFrom_of_mem {op : Opcode} {es : List (Expr Opcode)} {e : Expr Opcode}
    (he : e ∈ es) (h : ∀ start, op ∈ layoutFrom start e) (start : Nat) :
    op ∈ layoutAllFrom start es := by
  induction es generalizing start with
  | nil => simp at he
  | cons e' es ih =>
    rw [layoutAllFrom, List.mem_append]
    rcases List.mem_cons.1 he with rfl | he
    · exact Or.inl (h start)
    · exact Or.inr (ih he _)

/-- All atoms of an expression are in its layout. -/
theorem mem_layoutFrom_of_mem_atoms {op : Opcode} {e : Expr Opcode} (h : op ∈ e.atoms)
    (start : Nat) : op ∈ layoutFrom start e := by
  induction e using Expr.induction generalizing start with
  | atom a => exact h
  | alt es ih | cat es ih =>
    obtain ⟨e, he, hop⟩ := mem_atomsAll.1 h
    exact List.mem_cons_of_mem _ (mem_layoutAllFrom_of_mem he (ih e he hop) _)
  | under a e ih =>
    rcases List.mem_cons.1 h with rfl | h
    · simp [layoutFrom]
    · exact List.mem_cons_of_mem _ (ih h _)

end Expr

namespace Opcodes

/-- The opcode at position `i` has the one at position `j` as a child, or governs it. -/
def Governs (opcodes : Array Opcode) (i j : Nat) : Prop :=
  ∃ op, opcodes[i]? = some op ∧ (j ∈ op.children ∨ op.governsNext = true ∧ j = i + 1)

/-- What makes a flat opcode list a tree whose root is opcode 0. -/
structure Wired (opcodes : Array Opcode) : Prop where
  nonempty : 0 < opcodes.size
  /-- A choice or a sequence has a child. -/
  branches : ∀ {i : Nat} {op : Opcode}, opcodes[i]? = some op → op.isBranch = true →
    op.children ≠ []
  /-- Children stand behind their parent, within the list. -/
  forward : ∀ {i j : Nat} {op : Opcode}, opcodes[i]? = some op → j ∈ op.children →
    i < j ∧ j < opcodes.size
  /-- An operator has something to govern. -/
  governed : ∀ {i : Nat} {op : Opcode}, opcodes[i]? = some op → op.governsNext = true →
    i + 1 < opcodes.size
  /-- Every opcode but the first belongs to exactly one other. -/
  parent : ∀ j, 0 < j → j < opcodes.size → ∃! i, Governs opcodes i j

theorem governs_iff {opcodes : Array Opcode} {i j : Nat} :
    Governs opcodes i j ↔ ∃ op, opcodes[i]? = some op ∧ j ∈ op.targets i := by
  simp only [Governs, Opcode.targets, List.mem_append]
  refine exists_congr fun op => and_congr_right fun _ => or_congr_right ?_
  by_cases h : op.governsNext = true <;> simp [h]

end Opcodes

/-- Layouts are trees. -/
theorem Expr.wired_layout {e : Expr Opcode} (hv : e.isValid = true) : Opcodes.Wired e.layout := by
  have hget : ∀ i : Nat, e.layout[i]? = (layoutFrom 0 e)[i]? := by
    intro i
    rw [layout, List.getElem?_toArray]
  -- All targets together are the places behind the first, each of them once. So they are in range,
  -- and none has two parents.
  have hperm := cons_allTargets_perm hv 0
  have hforward := forward_layoutFrom hv 0
  have target : ∀ {i j : Nat} {op : Opcode}, e.layout[i]? = some op → j ∈ op.targets i →
      i < j ∧ j < e.size := by
    intro i j op hop hj
    rw [hget] at hop
    have hmem : j ∈ allTargets 0 (layoutFrom 0 e) :=
      mem_allTargets.2 ⟨i, op, hop, by rwa [Nat.zero_add]⟩
    have hlt : j ∈ List.range' 0 e.size := hperm.mem_iff.1 (List.mem_cons_of_mem _ hmem)
    have := hforward i op hop j (by rwa [Nat.zero_add])
    simp only [List.mem_range'_1] at hlt
    omega
  exact {
    nonempty := by
      rw [size_layout]
      exact e.size_pos
    branches := fun {i op} hop hb => by
      rw [hget] at hop
      rcases mem_layoutFrom hv (List.mem_of_getElem? hop) with h | h
      · simp [h.2] at hb
      · exact h.2
    forward := fun {i j op} hop hj => by
      rw [size_layout]
      exact target hop (by simp [Opcode.targets, hj])
    governed := fun {i op} hop hg => by
      rw [size_layout]
      exact (target hop (by simp [Opcode.targets_of_governsNext hg])).2
    parent := fun j hpos hlt => by
      rw [size_layout] at hlt
      have hmem : j ∈ 0 :: allTargets 0 (layoutFrom 0 e) :=
        hperm.mem_iff.2 (by simp only [List.mem_range'_1]; omega)
      have hmem : j ∈ allTargets 0 (layoutFrom 0 e) :=
        (List.mem_cons.1 hmem).resolve_left (by omega)
      have hnodup : (allTargets 0 (layoutFrom 0 e)).Nodup :=
        (List.nodup_cons.1 (hperm.nodup_iff.2 List.nodup_range')).2
      obtain ⟨i, op, hop, hj⟩ := mem_allTargets.1 hmem
      refine ⟨i, Opcodes.governs_iff.2 ⟨op, by rwa [hget], by rwa [Nat.zero_add] at hj⟩, ?_⟩
      intro i' hi'
      obtain ⟨op', hop', hj'⟩ := Opcodes.governs_iff.1 hi'
      rw [hget] at hop'
      exact eq_of_nodup_allTargets hnodup hop' (by rwa [Nat.zero_add]) hop hj }

end Abnf
