import Abnf.Proofs.Analysis.Scan

/-!
# Walks by open flags

A walk into rules marks the rules that it is in, and takes the marks away on its way back. What it
looks up, it looks up by the path of these rules, which is kept beside the marks. The walk is given
here as it runs, with flags and a path that are written and no bound on its depth, for any walker
that knows the rules that are open.

* `Walk.Walks.restores`: whichever way a walk comes back, the flags and the path are as they were.
* `Walk.descends`: whatever circles the references form, every call has fewer rules left to open, or
  as many and fewer opcodes left to look at. A walk ends, and in one way only.
-/

namespace Abnf.Walk

open Analysis

/-! ## Flags of a path -/

/-- The open flags when the rules on a path are open. -/
def flagsOf (size : Nat) (path : List Nat) : Array Bool :=
  (Array.range size).map path.contains

variable {size r : Nat} {path : List Nat}

@[simp] theorem size_flagsOf (size : Nat) (path : List Nat) : (flagsOf size path).size = size := by
  simp [flagsOf]

theorem getElem?_flagsOf (size : Nat) (path : List Nat) (i : Nat) :
    (flagsOf size path)[i]? = if i < size then some (path.contains i) else none := by
  rw [flagsOf, Array.getElem?_map]
  split <;> simp [*]

theorem setIfInBounds_flagsOf_true (size : Nat) (path : List Nat) (r : Nat) :
    (flagsOf size path).setIfInBounds r true = flagsOf size (r :: path) := by
  refine Array.ext_getElem? fun i => ?_
  rw [Array.getElem?_setIfInBounds, getElem?_flagsOf, getElem?_flagsOf, size_flagsOf,
    List.contains_cons]
  by_cases h : r = i
  · simp [h]
  · simp [h, beq_eq_false_iff_ne.2 (Ne.symm h)]

theorem setIfInBounds_flagsOf_false (h : r ∉ path) :
    (flagsOf size (r :: path)).setIfInBounds r false = flagsOf size path := by
  refine Array.ext_getElem? fun i => ?_
  rw [Array.getElem?_setIfInBounds, getElem?_flagsOf, getElem?_flagsOf, size_flagsOf,
    List.contains_cons]
  by_cases hi : r = i
  · subst hi
    simp [h]
  · simp [hi, beq_eq_false_iff_ne.2 (Ne.symm hi)]

/-! ## Branches -/

/-- The path of the rules that a walk is in, innermost first, and what was found along the paths
that have been walked. -/
structure Branches where
  path : List Nat
  memo : Memo

namespace Branches

/-- Steps into a rule. If the path that this makes has been walked before, the step is undone. -/
def enter (branches : Branches) (r : Nat) : Option Attributes × Branches :=
  let path := r :: branches.path
  match branches.memo[path]? with
  | some hit => (some hit, { branches with path := path.tail })
  | none => (none, { branches with path := path })

/-- Steps out of the innermost rule, and remembers what was found of it. -/
def leave (branches : Branches) (a : Attributes) : Branches :=
  ⟨branches.path.tail, branches.memo.insert branches.path a⟩

end Branches

/-! ## Controls -/

/-- What a walk reads and writes: which rules are open and which are complete, what is recorded of
each rule, and the branches, if results are looked up by path. -/
structure Controls where
  isOpen : Array Bool
  complete : Array Bool
  attributes : Array Attributes
  branches : Option Branches

namespace Controls

/-- The path of a walk that has branches. -/
def path? (controls : Controls) : Option (List Nat) :=
  controls.branches.map Branches.path

/-- Puts the open flag of a rule up or down. -/
def setOpen (controls : Controls) (r : Nat) (flag : Bool) : Controls :=
  { controls with isOpen := controls.isOpen.setIfInBounds r flag }

/-- Steps into a rule, if there are branches. -/
def enter (controls : Controls) (r : Nat) : Option Attributes × Controls :=
  match controls.branches with
  | none => (none, controls)
  | some branches =>
    let (hit, branches) := branches.enter r
    (hit, { controls with branches := some branches })

/-- Steps out of the innermost rule, if there are branches. -/
def leave (controls : Controls) (a : Attributes) : Controls :=
  { controls with branches := controls.branches.map (·.leave a) }

/-- What a walk leaves as it was: the open flags, the path, and how many rules are recorded. -/
structure Restores (before after : Controls) : Prop where
  isOpen : after.isOpen = before.isOpen
  path : after.path? = before.path?
  size : after.attributes.size = before.attributes.size

variable {before inner after : Controls} {r : Nat} {a : Attributes}

theorem Restores.refl (controls : Controls) : Restores controls controls :=
  ⟨rfl, rfl, rfl⟩

theorem Restores.trans (h : Restores before inner) (h' : Restores inner after) :
    Restores before after :=
  ⟨h'.isOpen.trans h.isOpen, h'.path.trans h.path, h'.size.trans h.size⟩

/-- What was found along the path that a step into a rule makes. -/
def walked? (controls : Controls) (r : Nat) : Option Attributes :=
  controls.branches.bind fun branches => branches.memo[r :: branches.path]?

/-- Makes the path longer by a rule. -/
def push (controls : Controls) (r : Nat) : Controls :=
  { controls with
    branches := controls.branches.map fun branches => ⟨r :: branches.path, branches.memo⟩ }

/-- A step into a rule is undone, or makes the path longer by the rule. -/
theorem enter_eq (controls : Controls) (r : Nat) : controls.enter r =
    match controls.walked? r with
    | some a => (some a, controls)
    | none => (none, controls.push r) := by
  obtain ⟨isOpen, complete, attributes, branches⟩ := controls
  cases branches with
  | none => rfl
  | some branches =>
    simp only [enter, Branches.enter, walked?, push, Option.bind_some, Option.map_some]
    cases branches.memo[r :: branches.path]? <;> rfl

theorem eq_of_enter_eq_some (h : before.enter r = (some a, after)) : after = before := by
  rw [enter_eq] at h
  split at h <;> cases h
  rfl

theorem eq_of_enter_eq_none (h : before.enter r = (none, inner)) : inner = before.push r := by
  rw [enter_eq] at h
  split at h <;> cases h
  rfl

theorem path?_push (controls : Controls) (r : Nat) :
    (controls.push r).path? = controls.path?.map (r :: ·) := by
  simp only [path?, push, Option.map_map]
  rfl

theorem path?_leave (controls : Controls) (a : Attributes) :
    (controls.leave a).path? = controls.path?.map List.tail := by
  simp only [path?, leave, Option.map_map]
  rfl

/-- A flag that is put up and taken down again is as it was, unless it was up before. -/
theorem setIfInBounds_setIfInBounds {flags : Array Bool} (h : flags[r]? ≠ some true) :
    (flags.setIfInBounds r true).setIfInBounds r false = flags := by
  refine Array.ext_getElem? fun i => ?_
  simp only [Array.getElem?_setIfInBounds, Array.size_setIfInBounds]
  split
  · subst_vars
    split
    · rename_i hr
      rw [Array.getElem?_eq_getElem hr] at h ⊢
      simpa using h
    · rename_i hr
      rw [Array.getElem?_eq_none (Nat.le_of_not_lt hr)]
  · rfl

end Controls

/-! ## Walks -/

/-- What makes a walk by flags: what is known of a rule without going into it, and what is recorded
of a rule when the walk comes out of it. A rule that is open is always known. -/
structure Walker where
  known? : Controls → (r : Nat) → Except Fault (Option Attributes)
  record : Controls → (r : Nat) → Attributes → Controls
  closed : ∀ controls r, known? controls r = .ok none → controls.isOpen[r]? ≠ some true
  answers : ∀ controls r, r < controls.attributes.size → ∃ known, known? controls r = .ok known
  isOpen_record : ∀ controls r a, (record controls r a).isOpen = controls.isOpen
  branches_record : ∀ controls r a, (record controls r a).branches = controls.branches
  size_record : ∀ controls r a,
    (record controls r a).attributes.size = controls.attributes.size

/-- A call of a walk: for a rule, or for an opcode of a rule. -/
inductive Call where
  | rule (r : Nat)
  | opcode (r op : Nat)

mutual

/-- A walk that ends, with what it finds, and the controls before it and after it. -/
inductive Walks (rules : Array Rule) (walker : Walker) :
    Call → Controls → Attributes → Controls → Prop
  | known {r : Nat} {controls : Controls} {a : Attributes} :
    walker.known? controls r = .ok (some a) → Walks rules walker (.rule r) controls a controls
  | remembered {r : Nat} {before after : Controls} {a : Attributes} :
    walker.known? before r = .ok none → before.enter r = (some a, after) →
    Walks rules walker (.rule r) before a after
  | entered {r : Nat} {before inner last : Controls} {a : Attributes} :
    walker.known? before r = .ok none → before.enter r = (none, inner) →
    Walks rules walker (.opcode r 0) (inner.setOpen r true) a last →
    Walks rules walker (.rule r) before a ((walker.record (last.setOpen r false) r a).leave a)
  | alt {r op : Nat} {cs : List Nat} {before after : Controls} {parts : List Attributes} :
    opcodeAt? rules r op = some (.alt cs) → WalksAll rules walker r cs before parts after →
    Walks rules walker (.opcode r op) before (.alternation parts) after
  | cat {r op : Nat} {cs : List Nat} {before after : Controls} {parts : List Attributes} :
    opcodeAt? rules r op = some (.cat cs) → WalksAll rules walker r cs before parts after →
    Walks rules walker (.opcode r op) before (.concatenation parts) after
  | rep {r op : Nat} {min : UInt32} {max : Option UInt32} {before after : Controls}
    {a : Attributes} : opcodeAt? rules r op = some (.rep min max) →
    Walks rules walker (.opcode r (op + 1)) before a after →
    Walks rules walker (.opcode r op) before (a.repeated min) after
  | reference {r op t : Nat} {before after : Controls} {a : Attributes} :
    opcodeAt? rules r op = some (.rnm t) → Walks rules walker (.rule t) before a after →
    Walks rules walker (.opcode r op) before a after
  | leaf {r op : Nat} {found : Opcode} {controls : Controls} :
    opcodeAt? rules r op = some found → found.isPlain = true →
    Walks rules walker (.opcode r op) controls (.ofLeaf found) controls

/-- The walks through several opcodes of a rule, one after the other. -/
inductive WalksAll (rules : Array Rule) (walker : Walker) :
    Nat → List Nat → Controls → List Attributes → Controls → Prop
  | nil {r : Nat} {controls : Controls} : WalksAll rules walker r [] controls [] controls
  | cons {r c : Nat} {cs : List Nat} {before inner after : Controls} {a : Attributes}
    {parts : List Attributes} : Walks rules walker (.opcode r c) before a inner →
    WalksAll rules walker r cs inner parts after →
    WalksAll rules walker r (c :: cs) before (a :: parts) after

end

/-- What a walk calls, with the controls at that point. -/
inductive Calls (rules : Array Rule) (walker : Walker) : Call × Controls → Call × Controls → Prop
  | body {r : Nat} {controls inner : Controls} : walker.known? controls r = .ok none →
    controls.enter r = (none, inner) →
    Calls rules walker (.rule r, controls) (.opcode r 0, inner.setOpen r true)
  | part {r op c : Nat} {found : Opcode} {passed rest : List Nat} {controls inner : Controls}
    {parts : List Attributes} : opcodeAt? rules r op = some found →
    found.children = passed ++ c :: rest → WalksAll rules walker r passed controls parts inner →
    Calls rules walker (.opcode r op, controls) (.opcode r c, inner)
  | operand {r op : Nat} {min : UInt32} {max : Option UInt32} {controls : Controls} :
    opcodeAt? rules r op = some (.rep min max) →
    Calls rules walker (.opcode r op, controls) (.opcode r (op + 1), controls)
  | reference {r op t : Nat} {controls : Controls} : opcodeAt? rules r op = some (.rnm t) →
    Calls rules walker (.opcode r op, controls) (.rule t, controls)

variable {rules : Array Rule} {walker : Walker}

/-! ### The way back -/

/-- A walk that went into a rule comes out of it as it came in. -/
theorem Controls.Restores.leave {before inner last : Controls} {r : Nat} {a : Attributes}
    (hknown : walker.known? before r = .ok none) (henter : before.enter r = (none, inner))
    (h : Restores (inner.setOpen r true) last) :
    Restores before ((walker.record (last.setOpen r false) r a).leave a) := by
  obtain rfl := eq_of_enter_eq_none henter
  refine ⟨?_, ?_, ?_⟩
  · calc (walker.record (last.setOpen r false) r a).isOpen
        = last.isOpen.setIfInBounds r false := walker.isOpen_record _ r a
      _ = (before.isOpen.setIfInBounds r true).setIfInBounds r false := by
          rw [h.isOpen]
          rfl
      _ = before.isOpen := setIfInBounds_setIfInBounds (walker.closed before r hknown)
  · calc ((walker.record (last.setOpen r false) r a).leave a).path?
        = last.path?.map List.tail := by
          rw [path?_leave, path?, walker.branches_record]
          rfl
      _ = (before.push r).path?.map List.tail := congrArg _ h.path
      _ = before.path? := by simp [path?_push, Function.comp_def]
  · calc (walker.record (last.setOpen r false) r a).attributes.size
        = last.attributes.size := walker.size_record _ r a
      _ = before.attributes.size := h.size

open Controls

mutual

/-- Whichever way a walk comes back, the open flags and the path are as they were before. -/
theorem Walks.restores {call : Call} {before after : Controls} {a : Attributes} :
    Walks rules walker call before a after → Restores before after
  | .known _ => .refl before
  | .remembered _ henter => eq_of_enter_eq_some henter ▸ .refl before
  | .entered hknown henter hbody => .leave hknown henter hbody.restores
  | .alt _ hparts => hparts.restores
  | .cat _ hparts => hparts.restores
  | .rep _ hoperand => hoperand.restores
  | .reference _ hrule => hrule.restores
  | .leaf _ _ => .refl before

theorem WalksAll.restores {r : Nat} {cs : List Nat} {before after : Controls}
    {parts : List Attributes} :
    WalksAll rules walker r cs before parts after → Restores before after
  | .nil => .refl before
  | .cons hwalk hrest => hwalk.restores.trans hrest.restores

end

/-! ### What is left to do -/

/-- The calls for rules and opcodes of the table. -/
def Call.InRange (rules : Array Rule) : Call → Prop
  | .rule r => r < rules.size
  | .opcode r op => ∃ found, opcodeAt? rules r op = some found

/-- There is an open flag for every rule, and something is recorded of every rule. -/
structure Controls.Fits (rules : Array Rule) (controls : Controls) : Prop where
  isOpen : controls.isOpen.size = rules.size
  attributes : controls.attributes.size = rules.size

/-- What is asked of a call. Which flags are up does not matter, nor what is recorded and
remembered. -/
def Ready (rules : Array Rule) (config : Call × Controls) : Prop :=
  config.1.InRange rules ∧ config.2.Fits rules

/-- How much is left to do: the rules that are not open, and the opcodes of the rule from the called
one on. -/
def measure (rules : Array Rule) : Call × Controls → ℕ ×ₗ ℕ
  | (.rule _, controls) => toLex (controls.isOpen.count false, 0)
  | (.opcode r op, controls) => toLex (controls.isOpen.count false, remaining rules r op)

theorem Controls.Restores.fits {before after : Controls} (h : Restores before after)
    (hfits : before.Fits rules) : after.Fits rules :=
  ⟨h.isOpen ▸ hfits.isOpen, h.size.trans hfits.attributes⟩

theorem Calls.ready (hordered : Ordered rules) {caller callee : Call × Controls}
    (h : Calls rules walker caller callee) (hready : Ready rules caller) : Ready rules callee := by
  obtain ⟨hrange, hfits⟩ := hready
  cases h with
  | body hknown henter =>
    obtain rfl := eq_of_enter_eq_none henter
    exact ⟨hordered.exists_root hrange, Array.size_setIfInBounds.trans hfits.isOpen,
      hfits.attributes⟩
  | part hop hchildren hpassed =>
    exact ⟨(hordered.child hop (by simp [hchildren])).2, hpassed.restores.fits hfits⟩
  | operand hop => exact ⟨hordered.operand hop rfl, hfits⟩
  | reference hop => exact ⟨hordered.target_lt hop, hfits⟩

/-- Every call has less left to do. -/
theorem Calls.measure_lt (hordered : Ordered rules) {caller callee : Call × Controls}
    (h : Calls rules walker caller callee) (hready : Ready rules caller) :
    measure rules callee < measure rules caller := by
  cases h with
  | @body r controls inner hknown henter =>
    have hr : r < controls.isOpen.size := hready.2.isOpen.symm ▸ hready.1
    have hclosed : controls.isOpen[r]? = some false := by
      have hnot := walker.closed controls r hknown
      rw [Array.getElem?_eq_getElem hr] at hnot ⊢
      simpa using hnot
    obtain rfl := eq_of_enter_eq_none henter
    exact Prod.Lex.toLex_lt_toLex.2 (Or.inl (count_false_set_lt hclosed))
  | part hop hchildren hpassed =>
    refine toLex_lt_of_le (le_of_eq ?_)
      (remaining_lt hop (hordered.child hop (by simp [hchildren])).1)
    rw [hpassed.restores.isOpen]
  | operand hop => exact toLex_lt_of_le le_rfl (remaining_lt hop (Nat.lt_succ_self _))
  | reference hop => exact toLex_lt_of_le le_rfl (remaining_pos hop)

/-- The flags that are up are those of the rules on the path, if the walk keeps one. -/
def Controls.InStep (controls : Controls) : Prop :=
  ∀ path, controls.path? = some path → controls.isOpen = flagsOf controls.isOpen.size path

/-- Every call finds the flags in step with the path. -/
theorem Calls.inStep {caller callee : Call × Controls} (h : Calls rules walker caller callee)
    (hstep : caller.2.InStep) : callee.2.InStep := by
  cases h with
  | @body r controls inner _ henter =>
    obtain rfl := eq_of_enter_eq_none henter
    intro path hpath
    change ((controls.push r).path? = some path) at hpath
    rw [path?_push] at hpath
    obtain ⟨outer, houter, rfl⟩ := Option.map_eq_some_iff.1 hpath
    change controls.isOpen.setIfInBounds r true =
      flagsOf (controls.isOpen.setIfInBounds r true).size (r :: outer)
    rw [Array.size_setIfInBounds, ← setIfInBounds_flagsOf_true, ← hstep outer houter]
  | part _ _ hpassed =>
    intro path hpath
    rw [hpassed.restores.isOpen]
    exact hstep path (hpassed.restores.path ▸ hpath)
  | operand | reference => exact hstep

/-- No chain of calls goes on forever. -/
theorem wellFounded_calls (hordered : Ordered rules) (walker : Walker) :
    WellFounded fun callee caller => Ready rules caller ∧ Calls rules walker caller callee :=
  Subrelation.wf (fun h => h.2.measure_lt hordered h.1)
    (InvImage.wf (measure rules) wellFounded_lt)

/-! ### One equation for each branch -/

section

variable {r op c t : Nat} {cs : List Nat} {found : Opcode} {min : UInt32} {max : Option UInt32}
  {before inner after : Controls} {a b : Attributes} {parts : List Attributes}

theorem walks_known_iff (hknown : walker.known? before r = .ok (some b)) :
    Walks rules walker (.rule r) before a after ↔ a = b ∧ after = before := by
  constructor
  · intro h
    cases h with
    | known hknown' =>
      cases hknown.symm.trans hknown'
      exact ⟨rfl, rfl⟩
    | remembered hknown' | entered hknown' => cases hknown.symm.trans hknown'
  · rintro ⟨rfl, rfl⟩
    exact .known hknown

theorem walks_remembered_iff (hknown : walker.known? before r = .ok none)
    (henter : before.enter r = (some b, inner)) :
    Walks rules walker (.rule r) before a after ↔ a = b ∧ after = inner := by
  constructor
  · intro h
    cases h with
    | known hknown' => cases hknown.symm.trans hknown'
    | remembered _ henter' =>
      cases henter.symm.trans henter'
      exact ⟨rfl, rfl⟩
    | entered _ henter' => cases henter.symm.trans henter'
  · rintro ⟨rfl, rfl⟩
    exact .remembered hknown henter

theorem walks_entered_iff (hknown : walker.known? before r = .ok none)
    (henter : before.enter r = (none, inner)) :
    Walks rules walker (.rule r) before a after ↔
      ∃ last, Walks rules walker (.opcode r 0) (inner.setOpen r true) a last ∧
        after = (walker.record (last.setOpen r false) r a).leave a := by
  constructor
  · intro h
    cases h with
    | known hknown' => cases hknown.symm.trans hknown'
    | remembered _ henter' => cases henter.symm.trans henter'
    | entered _ henter' hbody =>
      cases henter.symm.trans henter'
      exact ⟨_, hbody, rfl⟩
  · rintro ⟨last, hbody, rfl⟩
    exact .entered hknown henter hbody

/-- What a walk through an opcode of rule `r` at `op` does, by the kind of the opcode. -/
def WalksThrough (rules : Array Rule) (walker : Walker) (r op : Nat) (before : Controls)
    (a : Attributes) (after : Controls) : Opcode → Prop
  | .alt cs => ∃ parts, WalksAll rules walker r cs before parts after ∧ a = .alternation parts
  | .cat cs => ∃ parts, WalksAll rules walker r cs before parts after ∧ a = .concatenation parts
  | .rep min _ =>
    ∃ b, Walks rules walker (.opcode r (op + 1)) before b after ∧ a = b.repeated min
  | .rnm t => Walks rules walker (.rule t) before a after
  | leaf => a = .ofLeaf leaf ∧ after = before

theorem walks_opcode_iff (hop : opcodeAt? rules r op = some found) :
    Walks rules walker (.opcode r op) before a after ↔
      WalksThrough rules walker r op before a after found := by
  constructor
  · intro h
    cases h with
    | alt hop' hparts | cat hop' hparts =>
      cases hop.symm.trans hop'
      exact ⟨_, hparts, rfl⟩
    | rep hop' hoperand =>
      cases hop.symm.trans hop'
      exact ⟨_, hoperand, rfl⟩
    | reference hop' hrule =>
      cases hop.symm.trans hop'
      exact hrule
    | leaf hop' hplain =>
      cases hop.symm.trans hop'
      cases found <;> first | exact ⟨rfl, rfl⟩ | cases hplain
  · intro h
    cases found with
    | alt cs =>
      obtain ⟨parts, hparts, rfl⟩ := h
      exact .alt hop hparts
    | cat cs =>
      obtain ⟨parts, hparts, rfl⟩ := h
      exact .cat hop hparts
    | rep min max =>
      obtain ⟨b, hoperand, rfl⟩ := h
      exact .rep hop hoperand
    | rnm t => exact .reference hop h
    | _ =>
      obtain ⟨rfl, rfl⟩ := h
      exact .leaf hop rfl

theorem walksAll_nil_iff : WalksAll rules walker r [] before parts after ↔
    parts = [] ∧ after = before := by
  constructor
  · intro h
    cases h
    exact ⟨rfl, rfl⟩
  · rintro ⟨rfl, rfl⟩
    exact .nil

theorem walksAll_cons_iff : WalksAll rules walker r (c :: cs) before parts after ↔
    ∃ a inner rest, Walks rules walker (.opcode r c) before a inner ∧
      WalksAll rules walker r cs inner rest after ∧ parts = a :: rest := by
  constructor
  · intro h
    cases h with
    | cons hwalk hrest => exact ⟨_, _, _, hwalk, hrest, rfl⟩
  · rintro ⟨a, inner, rest, hwalk, hrest, rfl⟩
    exact .cons hwalk hrest

theorem WalksAll.concat (h : WalksAll rules walker r cs before parts inner)
    (hwalk : Walks rules walker (.opcode r c) inner a after) :
    WalksAll rules walker r (cs ++ [c]) before (parts ++ [a]) after := by
  induction cs generalizing before parts with
  | nil =>
    obtain ⟨rfl, rfl⟩ := walksAll_nil_iff.1 h
    exact .cons hwalk .nil
  | cons d cs ih =>
    obtain ⟨b, next, rest, hhead, hrest, rfl⟩ := walksAll_cons_iff.1 h
    exact .cons hhead (ih hrest)

end

/-! ### Walks end -/

/-- If every child that is reached can be walked in one way only, then so can the children
together. -/
theorem existsUnique_walksAll {r op : Nat} {found : Opcode} {passed rest : List Nat}
    {controls inner : Controls} {parts : List Attributes}
    (hop : opcodeAt? rules r op = some found) (hchildren : found.children = passed ++ rest)
    (hpassed : WalksAll rules walker r passed controls parts inner)
    (hcall : ∀ callee, Calls rules walker (.opcode r op, controls) callee →
      ∃! result : Attributes × Controls, Walks rules walker callee.1 callee.2 result.1 result.2) :
    ∃! result : List Attributes × Controls,
      WalksAll rules walker r rest inner result.1 result.2 := by
  induction rest generalizing passed inner parts with
  | nil =>
    refine ⟨([], inner), .nil, ?_⟩
    rintro ⟨parts', after'⟩ h
    obtain ⟨rfl, rfl⟩ := walksAll_nil_iff.1 h
    rfl
  | cons c rest ih =>
    obtain ⟨⟨a, next⟩, hwalk, hunique⟩ := hcall _ (.part hop hchildren hpassed)
    obtain ⟨⟨parts', after⟩, hrest, hunique'⟩ :=
      ih (by simpa using hchildren) (hpassed.concat hwalk)
    refine ⟨(a :: parts', after), .cons hwalk hrest, ?_⟩
    rintro ⟨found', after'⟩ h
    obtain ⟨b, next', others, hwalk', hrest', rfl⟩ := walksAll_cons_iff.1 h
    cases hunique (b, next') hwalk'
    cases hunique' (others, after') hrest'
    rfl

/-- What is found in one way only is still found so when it is rewritten. -/
theorem existsUnique_map {α β γ : Type} {P : α × γ → Prop} (f : α → β)
    (h : ∃! result : α × γ, P result) :
    ∃! result : β × γ, ∃ a, P (a, result.2) ∧ result.1 = f a := by
  obtain ⟨⟨a, after⟩, ha, hunique⟩ := h
  refine ⟨(f a, after), ⟨a, ha, rfl⟩, ?_⟩
  rintro ⟨b, after'⟩ ⟨a', ha', rfl⟩
  cases hunique (a', after') ha'
  rfl

/-- A walk ends, and in one way only. -/
theorem existsUnique_walks (hordered : Ordered rules) (config : Call × Controls)
    (hready : Ready rules config) :
    ∃! result : Attributes × Controls,
      Walks rules walker config.1 config.2 result.1 result.2 := by
  induction config using (wellFounded_calls hordered walker).induction with
  | _ config ih =>
  -- As for scans, the induction goes along the calls. What is called behind earlier children starts
  -- from the controls that these have left, which are as fit as those before.
  have hcall : ∀ callee, Calls rules walker config callee → ∃! result : Attributes × Controls,
      Walks rules walker callee.1 callee.2 result.1 result.2 :=
    fun callee h => ih callee ⟨hready, h⟩ (h.ready hordered hready)
  match config with
  | (.rule r, before) =>
    obtain ⟨known, hknown⟩ := walker.answers before r (hready.2.attributes.symm ▸ hready.1)
    cases known with
    | some b =>
      simp only [walks_known_iff hknown]
      exact ⟨(b, before), ⟨rfl, rfl⟩, fun _ h => Prod.ext h.1 h.2⟩
    | none =>
      rcases henter : before.enter r with ⟨_ | b, inner⟩
      · simp only [walks_entered_iff hknown henter]
        obtain ⟨⟨a, last⟩, hbody, hunique⟩ := hcall _ (.body hknown henter)
        refine ⟨(a, (walker.record (last.setOpen r false) r a).leave a), ⟨last, hbody, rfl⟩, ?_⟩
        rintro ⟨b, after⟩ ⟨last', hbody', hafter⟩
        cases hunique (b, last') hbody'
        exact Prod.ext rfl hafter
      · simp only [walks_remembered_iff hknown henter]
        exact ⟨(b, inner), ⟨rfl, rfl⟩, fun _ h => Prod.ext h.1 h.2⟩
  | (.opcode r op, before) =>
    obtain ⟨found, hop⟩ := hready.1
    simp only [walks_opcode_iff hop, WalksThrough]
    cases found with
    | alt cs =>
      exact existsUnique_map _ (existsUnique_walksAll hop (List.nil_append cs).symm .nil hcall)
    | cat cs =>
      exact existsUnique_map _ (existsUnique_walksAll hop (List.nil_append cs).symm .nil hcall)
    | rep min max => exact existsUnique_map _ (hcall _ (.operand hop))
    | rnm t => exact hcall _ (.reference hop)
    | _ => exact ⟨(_, before), ⟨rfl, rfl⟩, fun _ h => Prod.ext h.1 h.2⟩

/-- What it is for the walks of a walker to end: every call has less left to do, so no chain of
calls goes on forever, and finds the flags in step with the path; a walk ends in one way only, and
leaves the open flags and the path as they were. -/
structure Descends (rules : Array Rule) (walker : Walker) : Prop where
  measure_lt : ∀ caller callee, Ready rules caller → Calls rules walker caller callee →
    Ready rules callee ∧ measure rules callee < measure rules caller
  wellFounded : WellFounded fun callee caller =>
    Ready rules caller ∧ Calls rules walker caller callee
  inStep : ∀ caller callee, Calls rules walker caller callee →
    caller.2.InStep → callee.2.InStep
  ends : ∀ call controls, Ready rules (call, controls) →
    ∃! result : Attributes × Controls, Walks rules walker call controls result.1 result.2
  restores : ∀ call before a after, Walks rules walker call before a after →
    after.isOpen = before.isOpen ∧ after.path? = before.path?

/-- Walks end, whatever circles the references form and whichever flags are up. -/
theorem descends (h : Ordered rules) (walker : Walker) : Descends rules walker where
  measure_lt _ _ hready hcall := ⟨hcall.ready h hready, hcall.measure_lt h hready⟩
  wellFounded := wellFounded_calls h walker
  inStep _ _ hcall hstep := hcall.inStep hstep
  ends call controls hready := existsUnique_walks h (call, controls) hready
  restores _ _ _ _ hwalks := ⟨hwalks.restores.isOpen, hwalks.restores.path⟩

end Abnf.Walk
