import Mathlib.Data.List.Pairwise
import Mathlib.Logic.Relation
import Abnf.Proofs.Reduction

/-!
# Reduction of any table

Reduction does not ask whether a table is valid. Children may be shared, may stand before their
parents or outside of the table, and a repetition may end its table and govern nothing. If reduction
gives a table back, the table has the opcodes that are not redundant, in their order, each of their
children led along the dropped opcodes to the one that stays, and there is nothing left to drop.
Chains of dropped opcodes that come back to themselves are all that can keep reduction from ending
well, besides children out of range, and there are none where all children stand behind their
parents.

* `Skips`, `Condenses`: what is dropped, and what comes of the rest.
* `reduceOpcodes_condenses`, `reduceOpcodes_of_isReduced`, `exists_reduceOpcodes`: what reduction
  does to the opcodes of a rule.
* `reduce_exact`: what it does to a table.
-/

namespace Abnf.Reduction

/-! ## Dropped opcodes -/

/-- The opcode at a position is dropped in favour of another: its only child, or what it repeats
exactly once. -/
inductive Skips (opcodes : Array Opcode) : Nat → Nat → Prop
  | alt {i c : Nat} : opcodes[i]? = some (.alt [c]) → Skips opcodes i c
  | cat {i c : Nat} : opcodes[i]? = some (.cat [c]) → Skips opcodes i c
  | rep {i : Nat} : opcodes[i]? = some (.rep 1 (some 1)) → i + 1 < opcodes.size →
    Skips opcodes i (i + 1)

/-- The opcode at a position stays. -/
def Remains (opcodes : Array Opcode) (i : Nat) : Prop :=
  i < opcodes.size ∧ ∀ c, ¬ Skips opcodes i c

/-- With the opcodes in `places` left, the child `c` becomes `p`: it is led along dropped opcodes to
one that is left, now at `p`. A child out of range stays as it is where nothing is dropped. -/
def Leads (opcodes : Array Opcode) (places : List Nat) (c p : Nat) : Prop :=
  (∃ j, Relation.ReflTransGen (Skips opcodes) c j ∧ places[p]? = some j) ∨
    (opcodes.size ≤ c ∧ p = c ∧ places.length = opcodes.size)

/-- Two opcodes are the same, but for their children. -/
inductive Redirects (leads : Nat → Nat → Prop) : Opcode → Opcode → Prop
  | alt {cs cs' : List Nat} : List.Forall₂ leads cs cs' → Redirects leads (.alt cs) (.alt cs')
  | cat {cs cs' : List Nat} : List.Forall₂ leads cs cs' → Redirects leads (.cat cs) (.cat cs')
  | leaf {op : Opcode} : op.isBranch = false → Redirects leads op op

/-- The reduced opcodes are those in `places`, in their order, with their children led to where they
stand now. -/
structure Condenses (opcodes reduced : Array Opcode) (places : List Nat) : Prop where
  increasing : places.Pairwise (· < ·)
  mem_iff : ∀ i, i ∈ places ↔ Remains opcodes i
  redirected : List.Forall₂
    (fun i op' => ∃ op, opcodes[i]? = some op ∧ Redirects (Leads opcodes places) op op')
    places reduced.toList

/-- No opcode stands for its only operand, but for a repetition that ends the list. -/
def IsReduced (opcodes : Array Opcode) : Prop :=
  ∀ (i : Nat) op, opcodes[i]? = some op → op.isRedundant = true →
    op = .rep 1 (some 1) ∧ i + 1 = opcodes.size

/-- Children stand behind their parents, within the list. -/
def IsForward (opcodes : Array Opcode) : Prop :=
  ∀ (i : Nat) op, opcodes[i]? = some op → ∀ c ∈ op.children, i < c ∧ c < opcodes.size

variable {opcodes reduced : Array Opcode} {i c p steps : Nat} {op op' : Opcode}

theorem soleChild_eq_some_iff : soleChild opcodes i = some c ↔ Skips opcodes i c := by
  constructor
  · intro h
    rw [soleChild] at h
    split at h
    · cases h
      exact .alt ‹_›
    · cases h
      exact .cat ‹_›
    · split at h
      · cases h
        exact .rep ‹_› ‹_›
      · cases h
    · cases h
  · intro h
    cases h with
    | alt hop | cat hop => rw [soleChild, hop]
    | rep hop hlt =>
      rw [soleChild, hop]
      exact if_pos hlt

theorem remains_iff : Remains opcodes i ↔ i < opcodes.size ∧ soleChild opcodes i = none := by
  simp only [Remains, ← soleChild_eq_some_iff, Option.eq_none_iff_forall_ne_some, ne_eq]

/-- What is dropped is redundant. -/
theorem Skips.isRedundant (h : Skips opcodes i c) (hop : opcodes[i]? = some op) :
    op.isRedundant = true := by
  cases h with
  | alt h | cat h | rep h =>
    cases hop.symm.trans h
    rfl

/-- What is redundant is dropped, but for a repetition that ends the list. -/
theorem exists_skips (hop : opcodes[i]? = some op) (hredundant : op.isRedundant = true) :
    (∃ c, Skips opcodes i c) ∨ op = .rep 1 (some 1) ∧ i + 1 = opcodes.size := by
  have hi := (Array.getElem?_eq_some_iff.1 hop).1
  cases op with
  | alt cs =>
    match cs, hredundant with
    | [c], _ => exact Or.inl ⟨c, .alt hop⟩
  | cat cs =>
    match cs, hredundant with
    | [c], _ => exact Or.inl ⟨c, .cat hop⟩
  | rep min max =>
    obtain ⟨rfl, rfl⟩ : min = 1 ∧ max = some 1 := by simpa [Opcode.isRedundant] using hredundant
    by_cases hlt : i + 1 < opcodes.size
    · exact Or.inl ⟨i + 1, .rep hop hlt⟩
    · exact Or.inr ⟨rfl, by omega⟩
  | _ => cases hredundant

theorem Redirects.isRedundant_eq {leads : Nat → Nat → Prop} (h : Redirects leads op op') :
    op'.isRedundant = op.isRedundant := by
  cases h with
  | alt h | cat h =>
    cases h with
    | nil => rfl
    | cons _ htail => cases htail <;> rfl
  | leaf => rfl

theorem Redirects.eq_rep {leads : Nat → Nat → Prop} {min : UInt32} {max : Option UInt32}
    (h : Redirects leads (.rep min max) op') : op' = .rep min max := by
  cases h
  rfl

theorem Redirects.of_forall {leads : Nat → Nat → Prop} (h : ∀ c ∈ op.children, leads c c) :
    Redirects leads op op := by
  cases op with
  | alt cs => exact .alt (List.forall₂_same.2 h)
  | cat cs => exact .cat (List.forall₂_same.2 h)
  | _ => exact .leaf rfl

/-! ## Opcodes that stay -/

/-- The positions of the opcodes that stay, in order. -/
def places (opcodes : Array Opcode) : List Nat :=
  (List.range opcodes.size).filter fun i => (soleChild opcodes i).isNone

theorem mem_places_iff : i ∈ places opcodes ↔ Remains opcodes i := by
  simp [places, remains_iff]

theorem pairwise_places (opcodes : Array Opcode) : (places opcodes).Pairwise (· < ·) :=
  List.pairwise_lt_range.filter _

/-- What stays of a list is found at the number of what stays before it. -/
theorem getElem?_filter_countP {α : Type} {q : α → Bool} {as : List α} {i : Nat} {a : α}
    (ha : as[i]? = some a) (hq : q a = true) : (as.filter q)[(as.take i).countP q]? = some a := by
  induction as generalizing i with
  | nil => simp at ha
  | cons b as ih =>
    cases i with
    | zero =>
      obtain rfl : b = a := by simpa using ha
      simp [hq]
    | succ i =>
      rw [List.getElem?_cons_succ] at ha
      rw [List.take_succ_cons, List.countP_cons, List.filter_cons]
      split <;> simp [ih ha]

/-- The new position of an opcode is where it stands among those that stay. -/
theorem fetch_renumber (hi : i < opcodes.size) :
    (∃ c, soleChild opcodes i = some c ∧
        fetch (renumber 0 (stays opcodes)).toArray i = .ok none) ∨
      ∃ p, soleChild opcodes i = none ∧ (places opcodes)[p]? = some i ∧
        fetch (renumber 0 (stays opcodes)).toArray i = .ok (some p) := by
  have hget : (List.range opcodes.size)[i]? = some i := List.getElem?_range hi
  simp only [fetch_eq_ok, List.getElem?_toArray, getElem?_renumber, stays, List.getElem?_map, hget,
    Option.map_some, ← List.map_take, List.countP_map]
  cases hchild : soleChild opcodes i with
  | some c => exact Or.inl ⟨c, rfl, rfl⟩
  | none =>
    refine Or.inr ⟨_, rfl, ?_, rfl⟩
    rw [Nat.zero_add]
    exact getElem?_filter_countP hget (by simp [hchild])

/-- Following dropped opcodes leads to one that stays. -/
theorem exists_of_resolve_eq_ok
    (h : resolve opcodes (renumber 0 (stays opcodes)).toArray steps i = .ok p) :
    ∃ j, Relation.ReflTransGen (Skips opcodes) i j ∧ (places opcodes)[p]? = some j := by
  induction steps generalizing i with
  | zero => cases h
  | succ steps ih =>
    have hi : i < opcodes.size := by
      obtain ⟨_, hfetch, -⟩ := exists_of_bind_eq_ok h
      rw [fetch_eq_ok, List.getElem?_toArray, getElem?_renumber, Option.map_eq_some_iff] at hfetch
      obtain ⟨_, hstay, -⟩ := hfetch
      simpa [stays] using (List.getElem?_eq_some_iff.1 hstay).1
    rcases fetch_renumber hi with ⟨c, hchild, hfetch⟩ | ⟨q, -, hq, hfetch⟩
    · rw [resolve, hfetch, hchild] at h
      obtain ⟨j, hreach, hj⟩ := ih h
      exact ⟨j, .head (soleChild_eq_some_iff.1 hchild) hreach, hj⟩
    · rw [resolve, hfetch] at h
      cases h
      exact ⟨i, .refl, hq⟩

/-- Where children stand behind their parents, every chain of dropped opcodes ends. -/
theorem exists_resolve (hforward : IsForward opcodes) (hi : i < opcodes.size)
    (hsteps : opcodes.size ≤ i + steps) :
    ∃ p, resolve opcodes (renumber 0 (stays opcodes)).toArray steps i = .ok p := by
  induction steps generalizing i with
  | zero => omega
  | succ steps ih =>
    rcases fetch_renumber hi with ⟨c, hchild, hfetch⟩ | ⟨p, -, -, hfetch⟩
    · have hbehind : i < c ∧ c < opcodes.size := by
        cases soleChild_eq_some_iff.1 hchild with
        | alt hop | cat hop => exact hforward i _ hop c (by simp [Opcode.children])
        | rep hop hlt => exact ⟨Nat.lt_succ_self i, hlt⟩
      obtain ⟨p, hp⟩ := ih hbehind.2 (by omega)
      exact ⟨p, by simp only [resolve, hfetch, hchild, bind, Except.bind, hp]⟩
    · exact ⟨p, by simp only [resolve, hfetch, bind, Except.bind]⟩

/-! ## The opcodes of a rule -/

theorem forall₂_filterMap_zip {q : Nat → Bool} {ops : List Opcode} {start : Nat}
    (h : ∀ k : Nat, opcodes[start + k]? = ops[k]?) :
    List.Forall₂ (fun i op => opcodes[i]? = some op)
      ((List.range' start ops.length).filter q)
      ((ops.zip ((List.range' start ops.length).map q)).filterMap fun (op, stay) =>
        if stay then some op else none) := by
  induction ops generalizing start with
  | nil => exact .nil
  | cons op ops ih =>
    have hhead : opcodes[start]? = some op := by simpa using h 0
    have hshift : ∀ k : Nat, opcodes[start + 1 + k]? = ops[k]? := fun k => by
      rw [Nat.add_assoc, Nat.add_comm 1, h, List.getElem?_cons_succ]
    have htail := ih hshift
    rw [List.length_cons, List.range'_succ, List.map_cons, List.zip_cons_cons, List.filter_cons,
      List.filterMap_cons]
    cases q start with
    | false => exact htail
    | true => exact .cons hhead htail

/-- What is kept of a list are the opcodes that stay. -/
theorem forall₂_places (opcodes : Array Opcode) :
    List.Forall₂ (fun i op => opcodes[i]? = some op) (places opcodes)
      ((opcodes.toList.zip (stays opcodes)).filterMap fun (op, stay) =>
        if stay then some op else none) := by
  rw [places, stays, List.range_eq_range', ← Array.length_toList]
  exact forall₂_filterMap_zip fun k => by simp

/-- Redirecting an opcode changes its children only. -/
theorem redirects_of_redirect {f : Nat → Except Fault Nat} {leads : Nat → Nat → Prop}
    (hf : ∀ c p, f c = .ok p → leads c p) (h : redirect f op = .ok op') :
    Redirects leads op op' := by
  cases op with
  | alt cs =>
    obtain ⟨cs', hcs, rfl⟩ := exists_of_map_eq_ok h
    exact .alt ((mapM_eq_ok_iff.1 hcs).imp hf)
  | cat cs =>
    obtain ⟨cs', hcs, rfl⟩ := exists_of_map_eq_ok h
    exact .cat ((mapM_eq_ok_iff.1 hcs).imp hf)
  | _ =>
    cases h
    exact .leaf rfl

/-- An opcode can be redirected if its children can be. -/
theorem exists_redirect {f : Nat → Except Fault Nat} (hf : ∀ c ∈ op.children, ∃ p, f c = .ok p) :
    ∃ op', redirect f op = .ok op' := by
  have hchildren : ∀ cs : List Nat, (∀ c ∈ cs, ∃ p, f c = .ok p) → ∃ cs', cs.mapM f = .ok cs' := by
    intro cs hcs
    choose! g hg using hcs
    exact ⟨_, mapM_eq_ok hg⟩
  cases op with
  | alt cs | cat cs =>
    obtain ⟨cs', hcs⟩ := hchildren cs hf
    exact ⟨_, by rw [redirect, hcs]; rfl⟩
  | _ => exact ⟨_, rfl⟩

theorem all_stays_iff : (stays opcodes).all id = true ↔ ∀ i < opcodes.size, Remains opcodes i := by
  simp +contextual [stays, remains_iff]

/-- Reduction leaves the opcodes that stay, with their children redirected. -/
theorem reduceOpcodes_condenses (h : reduceOpcodes opcodes = .ok reduced) :
    Condenses opcodes reduced (places opcodes) := by
  refine ⟨pairwise_places opcodes, fun i => mem_places_iff, ?_⟩
  rw [reduceOpcodes] at h
  split at h
  · -- Nothing is dropped, and every opcode is its own place.
    rename_i hall
    rw [all_stays_iff] at hall
    cases h
    have hplaces : places opcodes = List.range opcodes.size :=
      List.filter_eq_self.2 fun i hi => by
        simpa using (remains_iff.1 (hall i (List.mem_range.1 hi))).2
    have hleads : ∀ c, Leads opcodes (places opcodes) c c := by
      intro c
      rw [Leads, hplaces]
      by_cases hc : c < opcodes.size
      · exact Or.inl ⟨c, .refl, List.getElem?_range hc⟩
      · exact Or.inr ⟨Nat.le_of_not_lt hc, rfl, List.length_range⟩
    rw [hplaces, List.forall₂_iff_get]
    refine ⟨by simp, fun k hk _ => ?_⟩
    have hk' : k < opcodes.size := by simpa using hk
    refine ⟨opcodes[k], by simp, ?_⟩
    simpa [hplaces] using Redirects.of_forall fun c _ => hplaces ▸ hleads c
  · obtain ⟨list, hlist, rfl⟩ := exists_of_map_eq_ok h
    refine (forall₂_comp (forall₂_places opcodes) (mapM_eq_ok_iff.1 hlist)).imp ?_
    rintro i op' ⟨op, hop, hredirect⟩
    refine ⟨op, hop, redirects_of_redirect (fun c p hresolve => ?_) hredirect⟩
    exact Or.inl (exists_of_resolve_eq_ok hresolve)

/-- There is nothing left to drop. A repetition that ended the list still ends it. -/
theorem Condenses.isReduced {places : List Nat} (h : Condenses opcodes reduced places) :
    IsReduced reduced := by
  intro k op' hop' hredundant
  obtain ⟨hlength, hget⟩ := List.forall₂_iff_get.1 h.redirected
  obtain ⟨hk, rfl⟩ := Array.getElem?_eq_some_iff.1 hop'
  have hk' : k < places.length := by simpa [hlength] using hk
  obtain ⟨op, hop, hredirects⟩ := hget k hk' (by simpa using hk)
  simp only [List.get_eq_getElem, Array.getElem_toList] at hop hredirects
  have hremains := (h.mem_iff places[k]).1 (List.getElem_mem hk')
  rcases exists_skips hop (hredirects.isRedundant_eq ▸ hredundant) with ⟨c, hskips⟩ | ⟨rfl, hlast⟩
  · exact absurd hskips (hremains.2 c)
  · refine ⟨hredirects.eq_rep, ?_⟩
    -- A later opcode would stand behind the last one.
    by_contra hne
    have hnext : k + 1 < places.length := by
      rw [hlength, Array.length_toList]
      omega
    have hlt := List.pairwise_iff_getElem.1 h.increasing k (k + 1) hk' hnext (by omega)
    have hsize := ((h.mem_iff places[k + 1]).1 (List.getElem_mem hnext)).1
    omega

/-- Reduction changes nothing where there is nothing to drop. -/
theorem reduceOpcodes_of_isReduced (h : IsReduced opcodes) :
    reduceOpcodes opcodes = .ok opcodes := by
  refine if_pos (all_stays_iff.2 fun i hi => ⟨hi, fun c hskips => ?_⟩)
  have hop := Array.getElem?_eq_getElem hi
  obtain ⟨hrep, hlast⟩ := h i _ hop (hskips.isRedundant hop)
  rw [hrep] at hop
  cases hskips with
  | alt h | cat h => cases hop.symm.trans h
  | rep _ hlt => omega

/-- Reduction ends well where children stand behind their parents. -/
theorem exists_reduceOpcodes (h : IsForward opcodes) :
    ∃ reduced, reduceOpcodes opcodes = .ok reduced := by
  rw [reduceOpcodes]
  split
  · exact ⟨opcodes, rfl⟩
  · have hredirect : ∀ op ∈ (opcodes.toList.zip (stays opcodes)).filterMap fun (op, stay) =>
        if stay then some op else none, ∃ op', redirect
          (resolve opcodes (renumber 0 (stays opcodes)).toArray opcodes.size) op = .ok op' := by
      intro op hop
      refine exists_redirect fun c hc => ?_
      obtain ⟨i, -, hget⟩ := exists_left_of_mem (forall₂_places opcodes) hop
      exact exists_resolve h (h i op hget c hc).2 (Nat.le_add_left _ _)
    choose! f hf using hredirect
    exact ⟨_, by simp only [mapM_eq_ok hf]; rfl⟩

/-- A dropped choice that is its own child stands for nothing. -/
example : reduceOpcodes #[.alt [0], .cat [0, 0]] = .error (.unresolved 0) := by decide

/-! ## Tables -/

/-- Reduction of any table. If it gives a table back, every rule keeps its name and its index. Of
its opcodes those that stay are left, in their order, each with its children led to where what they
stand for is now; none is redundant but a repetition that ends the rule; and reducing the table
again changes nothing. Where all children stand behind their parents, a table is given back. -/
theorem reduce_exact (rules : Array Rule) :
    (∀ reduced, reduce rules = .ok reduced →
      List.Forall₂ (fun rule rule' : Rule => rule'.name = rule.name ∧ rule'.index = rule.index ∧
        (∃ places, Condenses rule.opcodes rule'.opcodes places) ∧ IsReduced rule'.opcodes)
        rules.toList reduced.toList ∧
      reduce reduced = .ok reduced) ∧
    ((∀ rule ∈ rules, IsForward rule.opcodes) → ∃ reduced, reduce rules = .ok reduced) := by
  refine ⟨fun reduced h => ?_, fun hforward => ?_⟩
  · have hkept : List.Forall₂ (fun rule rule' : Rule => rule'.name = rule.name ∧
        rule'.index = rule.index ∧ (∃ places, Condenses rule.opcodes rule'.opcodes places) ∧
          IsReduced rule'.opcodes) rules.toList reduced.toList :=
      (reduce_eq_ok_iff.1 h).imp fun rule rule' ⟨hname, hindex, hops⟩ =>
        ⟨hname, hindex, ⟨_, reduceOpcodes_condenses hops⟩, (reduceOpcodes_condenses hops).isReduced⟩
    refine ⟨hkept, reduce_eq_ok_iff.2 (List.forall₂_same.2 fun rule hrule => ⟨rfl, rfl, ?_⟩)⟩
    obtain ⟨_, -, -, -, -, hreduced⟩ := exists_left_of_mem hkept hrule
    exact reduceOpcodes_of_isReduced hreduced
  · have hrules : ∀ rule ∈ rules.toList, ∃ rule' : Rule, rule'.name = rule.name ∧
        rule'.index = rule.index ∧ reduceOpcodes rule.opcodes = .ok rule'.opcodes := by
      intro rule hrule
      obtain ⟨opcodes, hops⟩ := exists_reduceOpcodes (hforward rule (Array.mem_toList_iff.1 hrule))
      exact ⟨⟨rule.name, rule.index, opcodes⟩, rfl, rfl, hops⟩
    choose! f hf using hrules
    refine ⟨(rules.toList.map f).toArray, reduce_eq_ok_iff.2 ?_⟩
    rw [List.forall₂_map_right_iff]
    exact List.forall₂_same.2 hf

/-- A child that two opcodes share, repetitions of exactly once before the end and at the end of a
rule, and a rule with children before and at their parent. -/
def crossed : Array Rule :=
  #[⟨"s", 0, #[.cat [1, 2, 2], .alt [3], .rep 1 (some 1), .tls [97], .rep 1 (some 1)]⟩,
    ⟨"t", 1, #[.tls [98], .cat [0], .alt [1, 2]]⟩]

/-- Only one of the repetitions is dropped, and the second rule is reduced as well. -/
theorem reduce_exact_crossed : ∃ reduced, reduce crossed = .ok reduced ∧
    reduced.map Rule.opcodes =
      #[#[.cat [1, 1, 1], .tls [97], .rep 1 (some 1)], #[.tls [98], .alt [0, 1]]] ∧
    reduce reduced = .ok reduced := by
  have hreduce : reduce crossed =
      .ok #[⟨"s", 0, #[.cat [1, 1, 1], .tls [97], .rep 1 (some 1)]⟩,
        ⟨"t", 1, #[.tls [98], .alt [0, 1]]⟩] :=
    reduce_eq_ok_iff.2 (.cons ⟨rfl, rfl, by decide⟩ (.cons ⟨rfl, rfl, by decide⟩ .nil))
  exact ⟨_, hreduce, by simp, ((reduce_exact crossed).1 _ hreduce).2⟩

end Abnf.Reduction
