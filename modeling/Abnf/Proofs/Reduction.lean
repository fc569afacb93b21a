import Abnf.Proofs.Layout
import Abnf.Reduction

/-!
# Reduction of layouts

On trees, reduction drops the nodes that stand for their only operand. On flat lists it has to
renumber the opcodes that stay; the new position of an opcode is the number of opcodes that stay
before it, and this is where the layout of the simpler tree puts it.

* `reduceOpcodes_layout`: reducing a layout gives the layout of the simpler tree.
* `Expr.isValid_simplify`, `Expr.mem_atoms_simplify`: the simpler tree is valid and has no new
  atoms.
-/

namespace Abnf

/-- Whether an opcode stands for its only operand. -/
def Opcode.isRedundant : Opcode → Bool
  | alt [_] | cat [_] => true
  | rep min max => min == 1 && max == some 1
  | _ => false

namespace Expr

mutual

/-- An expression without the nodes that stand for their only operand. -/
def simplify : Expr Opcode → Expr Opcode
  | atom op => atom op
  | alt es =>
    match simplifyAll es with
    | [e] => e
    | es => alt es
  | cat es =>
    match simplifyAll es with
    | [e] => e
    | es => cat es
  | under op e => if op.isRedundant then simplify e else under op (simplify e)

/-- Several expressions without the nodes that stand for their only operand. -/
def simplifyAll : List (Expr Opcode) → List (Expr Opcode)
  | [] => []
  | e :: es => simplify e :: simplifyAll es

end

theorem simplifyAll_eq_map (es : List (Expr Opcode)) : simplifyAll es = es.map simplify := by
  induction es with
  | nil => rfl
  | cons e es ih => rw [simplifyAll, ih, List.map_cons]

/-- A choice or a sequence of one expression is that expression; otherwise it stays. -/
theorem simplify_branch (es : List (Expr Opcode)) :
    (∃ e, es = [e] ∧ (alt es).simplify = e.simplify ∧ (cat es).simplify = e.simplify) ∨
      ((∀ e, es ≠ [e]) ∧ (alt es).simplify = alt (es.map simplify) ∧
        (cat es).simplify = cat (es.map simplify)) := by
  match es with
  | [] => exact Or.inr ⟨by simp, rfl, rfl⟩
  | [e] => exact Or.inl ⟨e, rfl, rfl, rfl⟩
  | e :: e' :: es =>
    refine Or.inr ⟨by simp, ?_, ?_⟩ <;> simp only [simplify, simplifyAll_eq_map, List.map_cons]

theorem isValid_simplify {e : Expr Opcode} (hv : e.isValid = true) : e.simplify.isValid = true := by
  induction e using Expr.induction with
  | atom a => exact hv
  | alt es ih =>
    simp only [isValid, Bool.and_eq_true, allValid_iff] at hv
    obtain ⟨e, rfl, h, -⟩ | ⟨-, h, -⟩ := simplify_branch es
    · rw [h]
      exact ih e (by simp) (hv.2 e (by simp))
    · rw [h, isValid, Bool.and_eq_true, allValid_iff]
      refine ⟨by simpa using hv.1, fun e' he' => ?_⟩
      obtain ⟨e, he, rfl⟩ := List.mem_map.1 he'
      exact ih e he (hv.2 e he)
  | cat es ih =>
    simp only [isValid, Bool.and_eq_true, allValid_iff] at hv
    obtain ⟨e, rfl, -, h⟩ | ⟨-, -, h⟩ := simplify_branch es
    · rw [h]
      exact ih e (by simp) (hv.2 e (by simp))
    · rw [h, isValid, Bool.and_eq_true, allValid_iff]
      refine ⟨by simpa using hv.1, fun e' he' => ?_⟩
      obtain ⟨e, he, rfl⟩ := List.mem_map.1 he'
      exact ih e he (hv.2 e he)
  | under a e ih =>
    simp only [isValid, Bool.and_eq_true] at hv
    rw [simplify]
    split
    · exact ih hv.2
    · simp [isValid, hv.1, ih hv.2]

theorem mem_atoms_simplify {op : Opcode} {e : Expr Opcode} (h : op ∈ e.simplify.atoms) :
    op ∈ e.atoms := by
  induction e using Expr.induction with
  | atom a => exact h
  | alt es ih =>
    obtain ⟨e, rfl, heq, -⟩ | ⟨-, heq, -⟩ := simplify_branch es
    · rw [heq] at h
      exact mem_atomsAll.2 ⟨e, by simp, ih e (by simp) h⟩
    · rw [heq, atoms, mem_atomsAll] at h
      obtain ⟨e', he', h⟩ := h
      obtain ⟨e, he, rfl⟩ := List.mem_map.1 he'
      exact mem_atomsAll.2 ⟨e, he, ih e he h⟩
  | cat es ih =>
    obtain ⟨e, rfl, -, heq⟩ | ⟨-, -, heq⟩ := simplify_branch es
    · rw [heq] at h
      exact mem_atomsAll.2 ⟨e, by simp, ih e (by simp) h⟩
    · rw [heq, atoms, mem_atomsAll] at h
      obtain ⟨e', he', h⟩ := h
      obtain ⟨e, he, rfl⟩ := List.mem_map.1 he'
      exact mem_atomsAll.2 ⟨e, he, ih e he h⟩
  | under a e ih =>
    rw [simplify] at h
    split at h
    · simp [atoms, ih h]
    · rw [atoms, List.mem_cons] at h ⊢
      exact h.imp_right ih

end Expr

namespace Reduction

open Abnf.Expr

/-! ## New positions -/

/-- Leads the children of a choice or a sequence to new positions. -/
def moveChildren (position : Nat → Nat) : Opcode → Opcode
  | .alt children => .alt (children.map position)
  | .cat children => .cat (children.map position)
  | op => op

/-- The opcodes that stay, with their children at new positions. -/
def kept (position : Nat → Nat) (opcodes : List Opcode) : List Opcode :=
  (opcodes.filter fun op => !op.isRedundant).map (moveChildren position)

/-- New positions count the opcodes that stay, along some opcodes from `start` on. -/
def Counts (position : Nat → Nat) (start : Nat) (opcodes : List Opcode) : Prop :=
  ∀ k ≤ opcodes.length, position (start + k) =
    position start + (opcodes.take k).countP fun op => !op.isRedundant

variable {position : Nat → Nat} {start : Nat}

theorem length_kept (opcodes : List Opcode) :
    (kept position opcodes).length = opcodes.countP fun op => !op.isRedundant := by
  simp [kept, List.countP_eq_length_filter]

theorem kept_append (a b : List Opcode) :
    kept position (a ++ b) = kept position a ++ kept position b := by
  simp [kept]

theorem Counts.cons {op : Opcode} {rest : List Opcode} (h : Counts position start (op :: rest)) :
    position (start + 1) = position start + (if op.isRedundant then 0 else 1) ∧
      Counts position (start + 1) rest := by
  have hone := h 1 (by simp)
  have hone : position (start + 1) = position start + (if op.isRedundant then 0 else 1) := by
    rw [hone]
    cases hop : op.isRedundant <;> simp [hop]
  refine ⟨hone, fun k hk => ?_⟩
  have hnext := h (k + 1) (by simpa using hk)
  rw [Nat.add_assoc, Nat.add_comm 1, hnext, hone]
  cases hop : op.isRedundant <;> simp [hop]
  omega

theorem Counts.append {a b : List Opcode} (h : Counts position start (a ++ b)) :
    Counts position start a ∧
      position (start + a.length) = position start + (kept position a).length ∧
      Counts position (start + a.length) b := by
  have hend : position (start + a.length) = position start + (kept position a).length := by
    rw [h a.length (by simp), length_kept]
    simp
  refine ⟨fun k hk => ?_, hend, fun k hk => ?_⟩
  · rw [h k (by simp; omega), List.take_append_of_le_length hk]
  · rw [Nat.add_assoc, h (a.length + k) (by simpa using hk), hend, length_kept,
      List.take_length_add_append, List.countP_append, Nat.add_assoc]

/-! ## Layouts -/

theorem kept_layoutAllFrom {es : List (Expr Opcode)}
    (h : ∀ e ∈ es, ∀ start, Counts position start (layoutFrom start e) →
      kept position (layoutFrom start e) = layoutFrom (position start) e.simplify)
    (start : Nat) (hcounts : Counts position start (layoutAllFrom start es)) :
    (starts start es).map position = starts (position start) (es.map simplify) ∧
      kept position (layoutAllFrom start es) =
        layoutAllFrom (position start) (es.map simplify) := by
  induction es generalizing start with
  | nil => exact ⟨rfl, rfl⟩
  | cons e es ih =>
    rw [layoutAllFrom] at hcounts
    obtain ⟨hhead, hend, htail⟩ := hcounts.append
    have hkept := h e (by simp) start hhead
    rw [hkept, length_layoutFrom, length_layoutFrom] at hend
    rw [length_layoutFrom] at htail
    obtain ⟨hstarts, hrest⟩ := ih (fun e' he' => h e' (by simp [he'])) (start + e.size) htail
    rw [hend] at hstarts hrest
    constructor
    · rw [starts, List.map_cons, hstarts, List.map_cons, starts]
    · rw [layoutAllFrom, kept_append, hkept, hrest, List.map_cons, layoutAllFrom]

theorem kept_cons_of_isRedundant {op : Opcode} (h : op.isRedundant = true) (rest : List Opcode) :
    kept position (op :: rest) = kept position rest := by
  simp [kept, h]

theorem kept_cons {op : Opcode} (h : op.isRedundant = false) (rest : List Opcode) :
    kept position (op :: rest) = moveChildren position op :: kept position rest := by
  simp [kept, h]

theorem isRedundant_of_isLeaf {op : Opcode} (h : op.isLeaf = true) : op.isRedundant = false := by
  cases op <;> simp_all [Opcode.isLeaf, Opcode.isRedundant, Opcode.governsNext]

theorem isRedundant_branch {es : List (Expr Opcode)} (h : ∀ e, es ≠ [e]) (start : Nat) :
    (Opcode.alt (starts start es)).isRedundant = false ∧
      (Opcode.cat (starts start es)).isRedundant = false := by
  match es with
  | [] => exact ⟨rfl, rfl⟩
  | [e] => exact absurd rfl (h e)
  | e :: e' :: es => exact ⟨rfl, rfl⟩

theorem kept_layoutFrom {e : Expr Opcode} (hv : e.isValid = true) (start : Nat)
    (hcounts : Counts position start (layoutFrom start e)) :
    kept position (layoutFrom start e) = layoutFrom (position start) e.simplify := by
  -- By induction on the expression, for every place that it may start at. A branch or an operator
  -- is dropped just when simplification drops it, and then its one child takes its place.
  induction e using Expr.induction generalizing start with
  | atom a =>
    have hleaf : a.isLeaf = true := hv
    rw [layoutFrom, kept_cons (isRedundant_of_isLeaf hleaf)]
    cases a <;> first | rfl | cases hleaf
  | alt es ih =>
    simp only [isValid, Bool.and_eq_true, allValid_iff] at hv
    rw [layoutFrom] at hcounts ⊢
    obtain ⟨hroot, hcounts⟩ := hcounts.cons
    obtain ⟨hstarts, hrest⟩ := kept_layoutAllFrom (fun e he => ih e he (hv.2 e he)) _ hcounts
    obtain ⟨e, rfl, heq, -⟩ | ⟨hmany, heq, -⟩ := simplify_branch es
    · have hredundant : (Opcode.alt (starts (start + 1) [e])).isRedundant = true := rfl
      rw [hredundant, if_pos rfl, Nat.add_zero] at hroot
      rw [kept_cons_of_isRedundant hredundant, hrest, hroot, heq]
      simp [layoutAllFrom]
    · have hredundant := (isRedundant_branch hmany (start + 1)).1
      simp only [hredundant, Bool.false_eq_true, if_false] at hroot
      rw [kept_cons hredundant, hrest, moveChildren, hstarts, hroot, heq, layoutFrom]
  | cat es ih =>
    simp only [isValid, Bool.and_eq_true, allValid_iff] at hv
    rw [layoutFrom] at hcounts ⊢
    obtain ⟨hroot, hcounts⟩ := hcounts.cons
    obtain ⟨hstarts, hrest⟩ := kept_layoutAllFrom (fun e he => ih e he (hv.2 e he)) _ hcounts
    obtain ⟨e, rfl, -, heq⟩ | ⟨hmany, -, heq⟩ := simplify_branch es
    · have hredundant : (Opcode.cat (starts (start + 1) [e])).isRedundant = true := rfl
      rw [hredundant, if_pos rfl, Nat.add_zero] at hroot
      rw [kept_cons_of_isRedundant hredundant, hrest, hroot, heq]
      simp [layoutAllFrom]
    · have hredundant := (isRedundant_branch hmany (start + 1)).2
      simp only [hredundant, Bool.false_eq_true, if_false] at hroot
      rw [kept_cons hredundant, hrest, moveChildren, hstarts, hroot, heq, layoutFrom]
  | under a e ih =>
    simp only [isValid, Bool.and_eq_true] at hv
    rw [layoutFrom] at hcounts ⊢
    obtain ⟨hroot, hcounts⟩ := hcounts.cons
    rw [simplify]
    cases hredundant : a.isRedundant with
    | true =>
      simp only [hredundant, if_true, Nat.add_zero] at hroot
      rw [kept_cons_of_isRedundant hredundant, ih hv.2 _ hcounts, hroot, if_pos rfl]
    | false =>
      simp only [hredundant, Bool.false_eq_true, if_false] at hroot ⊢
      have hmove : moveChildren position a = a := by
        have hgoverns := hv.1
        cases a <;> first | rfl | cases hgoverns
      rw [kept_cons hredundant, ih hv.2 _ hcounts, hroot, hmove, layoutFrom]

/-! ## Following the dropped opcodes -/

/-- The new position of the opcode that the one at `i` stands for. -/
def newPosition (opcodes : Array Opcode) (i : Nat) : Nat :=
  (opcodes.toList.take i).countP fun op => !op.isRedundant

theorem counts_newPosition (opcodes : Array Opcode) :
    Counts (newPosition opcodes) 0 opcodes.toList := by
  intro k _
  simp [newPosition]

variable {e : Expr Opcode}

/-- The only child of an opcode of a layout stands right after it. -/
theorem only_child_layout (hv : e.isValid = true) {i : Nat} {op : Opcode}
    (hop : e.layout[i]? = some op) {c : Nat} (hc : op.children = [c]) : c = i + 1 := by
  have heach : Each (fun i op => ∀ c, op.children = [c] → c = i + 1) 0 (layoutFrom 0 e) := by
    refine Each.layoutFrom hv ?_ ?_ ?_ ?_ 0
    · intro i op hleaf c hc
      cases op with
      | alt | cat => cases hleaf
      | _ => cases hc
    · intro i op hgoverns c hc
      cases op with
      | alt | cat => cases hgoverns
      | _ => cases hc
    all_goals
      intro i es c hc
      cases es with
      | nil => cases hc
      | cons e es => exact (List.cons.inj hc).1.symm
  rw [layout, List.getElem?_toArray] at hop
  simpa using heach i op hop c hc

theorem soleChild_layout (hv : e.isValid = true) {i : Nat} {op : Opcode}
    (hop : e.layout[i]? = some op) :
    soleChild e.layout i = if op.isRedundant then some (i + 1) else none := by
  rw [soleChild, hop]
  cases op with
  | alt cs | cat cs =>
    match cs, hop with
    | [], _ => rfl
    | [c], hop => rw [only_child_layout hv hop rfl]; rfl
    | _ :: _ :: _, _ => rfl
  | rep min max =>
    have hgoverned := (wired_layout hv).governed hop rfl
    by_cases hone : min = 1 ∧ max = some 1
    · obtain ⟨rfl, rfl⟩ := hone
      rw [if_pos hgoverned]
      rfl
    · have hnot : (Opcode.rep min max).isRedundant = false := by
        simpa [Opcode.isRedundant] using hone
      rw [hnot]
      split
      all_goals simp_all
  | _ => rfl

theorem lt_size_of_isRedundant (hv : e.isValid = true) {i : Nat} {op : Opcode}
    (hop : e.layout[i]? = some op) (hredundant : op.isRedundant = true) :
    i + 1 < e.layout.size := by
  have hwired := wired_layout hv
  cases op with
  | alt cs | cat cs =>
    rcases cs with _ | ⟨c, _ | ⟨d, cs⟩⟩
    · cases hredundant
    · obtain rfl := only_child_layout hv hop rfl
      exact (hwired.forward hop (by simp [Opcode.children])).2
    · cases hredundant
  | rep => exact hwired.governed hop rfl
  | _ => cases hredundant

theorem stays_layout (hv : e.isValid = true) :
    stays e.layout = e.layout.toList.map fun op => !op.isRedundant := by
  refine List.ext_getElem? fun i => ?_
  have hget : e.layout.toList[i]? = e.layout[i]? := Array.getElem?_toList
  rw [stays, List.getElem?_map, List.getElem?_map, hget]
  by_cases hi : i < e.layout.size
  · have hop := Array.getElem?_eq_getElem hi
    rw [List.getElem?_range hi, hop, Option.map_some, Option.map_some, soleChild_layout hv hop]
    cases (e.layout[i]).isRedundant <;> rfl
  · rw [List.getElem?_eq_none (by simpa using hi), Array.getElem?_eq_none (by omega)]
    rfl

theorem getElem?_renumber (next i : Nat) (bs : List Bool) :
    (renumber next bs)[i]? =
      bs[i]?.map fun b => if b then some (next + (bs.take i).countP id) else none := by
  induction bs generalizing next i with
  | nil => rfl
  | cons b bs ih =>
    cases i with
    | zero => cases b <;> simp [renumber]
    | succ i =>
      cases b with
      | true =>
        rw [renumber, List.getElem?_cons_succ, ih]
        simp [Nat.add_assoc, Nat.add_comm 1]
      | false =>
        rw [renumber, List.getElem?_cons_succ, ih]
        simp

theorem fetch_positions (hv : e.isValid = true) {i : Nat} {op : Opcode}
    (hop : e.layout[i]? = some op) :
    fetch (renumber 0 (stays e.layout)).toArray i =
      .ok (if op.isRedundant then none else some (newPosition e.layout i)) := by
  have hget : e.layout.toList[i]? = some op := by
    rw [← hop]
    exact Array.getElem?_toList
  rw [fetch_eq_ok, List.getElem?_toArray, getElem?_renumber, stays_layout hv, List.getElem?_map,
    hget, ← List.map_take, List.countP_map]
  cases hredundant : op.isRedundant with
  | true => simp [hredundant]
  | false => simp [hredundant, newPosition]

theorem newPosition_succ {opcodes : Array Opcode} {i : Nat} {op : Opcode}
    (hop : opcodes[i]? = some op) :
    newPosition opcodes (i + 1) = newPosition opcodes i + if op.isRedundant then 0 else 1 := by
  have hget : opcodes.toList[i]? = some op := by
    rw [← hop]
    exact Array.getElem?_toList
  rw [newPosition, List.take_add_one, hget, List.countP_append]
  cases hredundant : op.isRedundant <;> simp [hredundant, newPosition]

theorem resolve_layout (hv : e.isValid = true) {steps i : Nat} (hi : i < e.layout.size)
    (hsteps : e.layout.size ≤ i + steps) :
    resolve e.layout (renumber 0 (stays e.layout)).toArray steps i =
      .ok (newPosition e.layout i) := by
  induction steps generalizing i with
  | zero => omega
  | succ steps ih =>
    have hop := Array.getElem?_eq_getElem hi
    simp only [resolve, fetch_positions hv hop, bind, Except.bind]
    cases hredundant : e.layout[i].isRedundant with
    | false => rfl
    | true =>
      have hchild := soleChild_layout hv hop
      rw [hredundant, if_pos rfl] at hchild
      simp only [if_true, hchild]
      rw [ih (lt_size_of_isRedundant hv hop hredundant) (by omega), newPosition_succ hop,
        hredundant, if_pos rfl, Nat.add_zero]

/-! ## Reduction -/

theorem redirect_layout (hv : e.isValid = true) {op : Opcode} (hop : op ∈ e.layout) :
    redirect (resolve e.layout (renumber 0 (stays e.layout)).toArray e.layout.size) op =
      .ok (moveChildren (newPosition e.layout) op) := by
  obtain ⟨i, hop⟩ := Array.mem_iff_getElem?.1 hop
  have hchildren : ∀ c ∈ op.children,
      resolve e.layout (renumber 0 (stays e.layout)).toArray e.layout.size c =
        .ok (newPosition e.layout c) :=
    fun c hc => resolve_layout hv ((wired_layout hv).forward hop hc).2 (by omega)
  cases op with
  | alt cs =>
    simp only [Opcode.children] at hchildren
    rw [redirect, mapM_eq_ok hchildren]
    rfl
  | cat cs =>
    simp only [Opcode.children] at hchildren
    rw [redirect, mapM_eq_ok hchildren]
    rfl
  | _ => rfl

theorem filterMap_zip_map {α : Type} (p : α → Bool) (as : List α) :
    ((as.zip (as.map p)).filterMap fun (a, stay) => if stay then some a else none) =
      as.filter p := by
  induction as with
  | nil => rfl
  | cons a as ih => cases h : p a <;> simp [h, ih]

theorem newPosition_eq_self {opcodes : Array Opcode} (h : ∀ op ∈ opcodes, op.isRedundant = false)
    {i : Nat} (hi : i ≤ opcodes.size) : newPosition opcodes i = i := by
  rw [newPosition, List.countP_eq_length.2]
  · simpa using Nat.min_eq_left hi
  · intro op hop
    simp [h op (by simpa using List.mem_of_mem_take hop)]

/-- Reducing a layout gives the layout of the simpler expression. -/
theorem reduceOpcodes_layout (hv : e.isValid = true) :
    reduceOpcodes e.layout = .ok e.simplify.layout := by
  have hkept : kept (newPosition e.layout) e.layout.toList = layoutFrom 0 e.simplify :=
    kept_layoutFrom hv 0 (counts_newPosition e.layout)
  rw [reduceOpcodes]
  split
  · -- Nothing is dropped, so every opcode keeps its position.
    rename_i hall
    have hstays : ∀ op ∈ e.layout, op.isRedundant = false := by
      intro op hop
      rw [stays_layout hv, List.all_map, List.all_eq_true] at hall
      simpa using hall op (Array.mem_toList_iff.2 hop)
    have hsame : ∀ op ∈ e.layout.toList, moveChildren (newPosition e.layout) op = op := by
      intro op hop
      obtain ⟨i, hop⟩ := Array.mem_iff_getElem?.1 (Array.mem_toList_iff.1 hop)
      have hchildren : op.children.map (newPosition e.layout) = op.children := by
        rw [List.map_congr_left, List.map_id]
        intro c hc
        exact newPosition_eq_self hstays (Nat.le_of_lt ((wired_layout hv).forward hop hc).2)
      cases op <;> first | rfl | simpa [moveChildren, Opcode.children] using hchildren
    have hkept : e.layout.toList = layoutFrom 0 e.simplify := by
      rw [← hkept, kept, List.filter_eq_self.2, List.map_congr_left hsame, List.map_id']
      intro op hop
      simp [hstays op (Array.mem_toList_iff.1 hop)]
    have hlayout : e.layout = e.simplify.layout := congrArg List.toArray hkept
    rw [← hlayout]
  · have hmap : ∀ op ∈ e.layout.toList.filter fun op => !op.isRedundant,
        redirect (resolve e.layout (renumber 0 (stays e.layout)).toArray e.layout.size) op =
          .ok (moveChildren (newPosition e.layout) op) :=
      fun op hop => redirect_layout hv (Array.mem_toList_iff.1 (List.mem_of_mem_filter hop))
    have hfilter := filterMap_zip_map (fun op => !Opcode.isRedundant op) e.layout.toList
    rw [← stays_layout hv] at hfilter
    have hlayout : (kept (newPosition e.layout) e.layout.toList).toArray = e.simplify.layout :=
      congrArg List.toArray hkept
    simp only [hfilter, mapM_eq_ok hmap, ← hlayout]
    rfl

/-! ## Tables -/

/-- A table is reduced rule by rule. -/
theorem reduce_eq_ok_iff {rules reduced : Array Rule} : reduce rules = .ok reduced ↔
    List.Forall₂ (fun rule rule' : Rule => rule'.name = rule.name ∧ rule'.index = rule.index ∧
      reduceOpcodes rule.opcodes = .ok rule'.opcodes) rules.toList reduced.toList := by
  have hrule : ∀ rule rule' : Rule, reduceRule rule = .ok rule' ↔ rule'.name = rule.name ∧
      rule'.index = rule.index ∧ reduceOpcodes rule.opcodes = .ok rule'.opcodes := by
    rintro ⟨name, index, opcodes⟩ ⟨name', index', opcodes'⟩
    cases hops : reduceOpcodes opcodes with
    | error => simp [reduceRule, hops, bind, Except.bind]
    | ok found => simp [reduceRule, hops, bind, Except.bind, pure, Except.pure, eq_comm]
  simp only [← hrule]
  rw [← mapM_eq_ok_iff, reduce, Array.mapM_eq_mapM_toList]
  cases rules.toList.mapM reduceRule with
  | error => exact ⟨nofun, nofun⟩
  | ok found =>
    refine ⟨fun h => ?_, fun h => ?_⟩
    · cases h
      rfl
    · cases h
      rfl

end Reduction

end Abnf
