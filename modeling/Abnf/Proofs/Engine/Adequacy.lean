import Mathlib.Algebra.BigOperators.Ring.Finset
import Mathlib.Order.Monotone.Basic
import Abnf.Proofs.Engine.Descent

/-!
# The engine finds every run

An evaluation that ends follows a run, and a run is found by an evaluation that is deep enough.
The places that end within some depth, an opcode of a rule at a position each, are the more the
greater the depth; once a greater depth adds no place, none is ever added again. So the number of
places bounds the depth that every run needs, and this is the depth that the engine allows.

* `Depicts.shadows_bound`: what ends within some depth ends within the depth that the engine
  allows.
* `Depicts.run_eq_ok_iff`: the engine ends just where there is a run, and does what the run says.
-/

namespace Abnf.Engine

variable {σ : Type} {scheme : Scheme} {rules : Array Rule} {watch : Watch σ} {input : Array UInt8}

/-! ## Evaluations that end -/

/-- Wherever `f` ends, both `f` and `g` realize `e`. -/
def Follows (scheme : Scheme) (watch : Watch σ) (input : Array UInt8)
    (f g : State σ → Except Fault (Outcome σ)) (e : Expr Opcode) (pos : Nat) : Prop :=
  ∀ state out, f state = .ok out →
    Realizes scheme watch input f e pos ∧ Realizes scheme watch input g e pos

theorem follows_firstMatch {f g : Nat → State σ → Except Fault (Outcome σ)} {cs : List Nat}
    {es : List (Expr Opcode)} {pos : Nat}
    (h : List.Forall₂ (fun c e => Follows scheme watch input (f c) (g c) e pos) cs es) :
    Follows scheme watch input (firstMatch f cs) (firstMatch g cs) (.alt es) pos := by
  induction h with
  | nil => exact fun _ _ _ => ⟨realizes_firstMatch_nil f pos, realizes_firstMatch_nil g pos⟩
  | @cons c e cs es hhead _ ih =>
    intro state out hok
    obtain ⟨first, hfirst, -⟩ := exists_of_bind_eq_ok hok
    obtain ⟨hf, hg⟩ := hhead state first hfirst
    have htail : ∀ events, Run scheme e pos (input.toList.drop pos) none [] events →
        Realizes scheme watch input (firstMatch f cs) (.alt es) pos ∧
          Realizes scheme watch input (firstMatch g cs) (.alt es) pos := by
      intro events hrun
      obtain ⟨result, nodes, events', hrun', heq⟩ := hf
      obtain ⟨rfl, rfl, rfl⟩ := hrun'.unique hrun
      rw [firstMatch, heq] at hok
      exact ih _ out hok
    exact ⟨realizes_firstMatch_cons hf fun events hrun => (htail events hrun).1,
      realizes_firstMatch_cons hg fun events hrun => (htail events hrun).2⟩

theorem follows_inSequence {f g : Nat → Nat → State σ → Except Fault (Outcome σ)} {cs : List Nat}
    {es : List (Expr Opcode)}
    (h : List.Forall₂ (fun c e => ∀ pos, pos ≤ input.size →
      Follows scheme watch input (f c pos) (g c pos) e pos) cs es)
    {pos length : Nat} (hpos : pos + length ≤ input.size) {state : State σ} {out : Outcome σ}
    (hok : inSequence f pos cs length state = .ok out) :
    RealizesSequence scheme watch input f cs es pos length ∧
      RealizesSequence scheme watch input g cs es pos length := by
  induction h generalizing length state with
  | nil => exact ⟨realizesSequence_nil f pos length, realizesSequence_nil g pos length⟩
  | @cons c e cs es hhead _ ih =>
    obtain ⟨first, hfirst, -⟩ := exists_of_bind_eq_ok hok
    obtain ⟨hf, hg⟩ := hhead _ hpos state first hfirst
    have htail : ∀ more nodes events, Run scheme e (pos + length)
        (input.toList.drop (pos + length)) (some more) nodes events →
        RealizesSequence scheme watch input f cs es pos (length + more) ∧
          RealizesSequence scheme watch input g cs es pos (length + more) := by
      intro more nodes events hrun
      obtain ⟨result, nodes', events', hrun', heq⟩ := hf
      obtain ⟨rfl, rfl, rfl⟩ := hrun'.unique hrun
      have hle := hrun.le_size hpos
      rw [inSequence, heq] at hok
      exact ih (by omega) hok
    exact ⟨realizesSequence_cons hf fun more nodes events hrun => (htail _ _ _ hrun).1,
      realizesSequence_cons hg fun more nodes events hrun => (htail _ _ _ hrun).2⟩

theorem follows_repeated {f g : Nat → State σ → Except Fault (Outcome σ)} {e : Expr Opcode}
    (h : ∀ pos, pos ≤ input.size → Follows scheme watch input (f pos) (g pos) e pos)
    (min : UInt32) {max : Option UInt32} {pos budget count length : Nat}
    (hpos : pos + length ≤ input.size) {state : State σ} {out : Nat × Nat × State σ}
    (hok : repeated f max pos budget count length state = .ok out) :
    RealizesLoop scheme watch input f min max e pos budget count length ∧
      RealizesLoop scheme watch input g min max e pos budget count length := by
  induction budget generalizing count length state with
  | zero => simp [repeated] at hok
  | succ budget ih =>
    have hhead : (max.all fun max => decide (count < max.toNat)) = true →
        Realizes scheme watch input (f (pos + length)) e (pos + length) ∧
          Realizes scheme watch input (g (pos + length)) e (pos + length) := by
      intro hmax
      rw [repeated, if_pos hmax] at hok
      obtain ⟨first, hfirst, -⟩ := exists_of_bind_eq_ok hok
      exact h _ hpos state first hfirst
    have htail : (max.all fun max => decide (count < max.toNat)) = true →
        ∀ more nodes events, Run scheme e (pos + length) (input.toList.drop (pos + length))
          (some (more + 1)) nodes events →
        RealizesLoop scheme watch input f min max e pos budget (count + 1) (length + (more + 1)) ∧
          RealizesLoop scheme watch input g min max e pos budget (count + 1)
            (length + (more + 1)) := by
      intro hmax more nodes events hrun
      obtain ⟨⟨result, nodes', events', hrun', heq⟩, -⟩ := hhead hmax
      obtain ⟨rfl, rfl, rfl⟩ := hrun'.unique hrun
      have hle := hrun.le_size hpos
      rw [repeated, if_pos hmax, heq] at hok
      exact ih (by omega) hok
    exact ⟨realizesLoop_succ (fun hmax => (hhead hmax).1)
        fun hmax more nodes events hrun => (htail hmax more nodes events hrun).1,
      realizesLoop_succ (fun hmax => (hhead hmax).2)
        fun hmax more nodes events hrun => (htail hmax more nodes events hrun).2⟩

theorem exists_ok_of_enterRule {rule pos : Nat} {f : State σ → Except Fault (Outcome σ)}
    {state : State σ} {out : Outcome σ} (hok : enterRule watch rule pos f state = .ok out) :
    ∃ state' inner, f state' = .ok inner := by
  obtain ⟨inner, hinner, -⟩ := exists_of_bind_eq_ok hok
  exact ⟨_, inner, hinner⟩

/-! ## Depths -/

/-- Whatever opcode of the table ends within depth `a` realizes its expression, both within depth
`a` and within depth `b`. -/
def Shadows (scheme : Scheme) (rules : Array Rule) (watch : Watch σ) (input : Array UInt8)
    (a b : Nat) : Prop :=
  ∀ {r : Nat} {rule : Rule} {op : Nat} {e : Expr Opcode} {pos : Nat}, rules[r]? = some rule →
    Expr.Stands rule.opcodes op e → pos ≤ input.size →
    Follows scheme watch input (evaluate rules watch input a r op pos)
      (evaluate rules watch input b r op pos) e pos

/-- Every rule of the table has an expression. -/
def Covers (scheme : Scheme) (rules : Array Rule) : Prop :=
  ∀ r < rules.size, (scheme.body r).isSome = true

variable {a b : Nat}

/-- One level more on both sides. -/
theorem Shadows.succ (hdepicts : Depicts scheme rules watch) (hcovers : Covers scheme rules)
    (h : Shadows scheme rules watch input a b) :
    Shadows scheme rules watch input (a + 1) (b + 1) := by
  intro r rule op e pos hr hop hpos state out hok
  obtain ⟨_, hrule, hok⟩ := exists_of_bind_eq_ok hok
  cases (fetch_eq_ok.2 hr).symm.trans hrule
  obtain ⟨opcode, hopcode, hok⟩ := exists_of_bind_eq_ok hok
  -- What the opcode calls has ended within depth `a`, so `h` says what it does within either depth.
  cases e with
  | atom o =>
    obtain ⟨hop, hleaf⟩ := hop
    cases hopcode.symm.trans (fetch_eq_ok.2 hop)
    cases opcode with
    | rnm target =>
      obtain ⟨found, hfetch, hok⟩ := exists_of_bind_eq_ok hok
      have htarget := (Array.getElem?_eq_some_iff.1 (fetch_eq_ok.1 hfetch)).1
      obtain ⟨body, hbody⟩ := Option.isSome_iff_exists.1 (hcovers target htarget)
      obtain ⟨rule', hr', hstands⟩ := hdepicts.body hbody
      obtain ⟨state', inner, hinner⟩ := exists_ok_of_enterRule hok
      obtain ⟨hf, hg⟩ := h hr' hstands hpos state' inner hinner
      exact ⟨realizes_ref hdepicts hr hop hbody hf, realizes_ref hdepicts hr hop hbody hg⟩
    | abg | aen | tls | tbs | trg =>
      exact ⟨realizes_leaf hr hop hpos rfl, realizes_leaf hr hop hpos rfl⟩
    | udt | bkr => cases hok
    | _ => cases hleaf
  | alt es =>
    obtain ⟨cs, hop, hall⟩ := hop
    cases hopcode.symm.trans (fetch_eq_ok.2 hop)
    obtain ⟨hf, hg⟩ :=
      follows_firstMatch (hall.forall₂ fun e _ c hc => h hr hc hpos) state out hok
    exact ⟨realizes_choice hr hop hf, realizes_choice hr hop hg⟩
  | cat es =>
    obtain ⟨cs, hop, hall⟩ := hop
    cases hopcode.symm.trans (fetch_eq_ok.2 hop)
    obtain ⟨inner, hinner, -⟩ := exists_of_bind_eq_ok hok
    obtain ⟨hf, hg⟩ := follows_inSequence
      (hall.forall₂ fun e _ c hc pos' hpos' => h hr hc hpos') hpos hinner
    exact ⟨realizes_cat hr hop hf, realizes_cat hr hop hg⟩
  | under o e =>
    obtain ⟨hop, hgoverns, hoperand⟩ := hop
    cases hopcode.symm.trans (fetch_eq_ok.2 hop)
    cases opcode with
    | rep min max =>
      obtain ⟨inner, hinner, -⟩ := exists_of_bind_eq_ok hok
      obtain ⟨hf, hg⟩ := follows_repeated (fun pos' hpos' => h hr hoperand hpos') min hpos hinner
      exact ⟨realizes_repetition hr hop hf, realizes_repetition hr hop hg⟩
    | and =>
      obtain ⟨inner, hinner, -⟩ := exists_of_bind_eq_ok hok
      obtain ⟨hf, hg⟩ := h hr hoperand hpos state inner hinner
      exact ⟨realizes_and hr hop hf, realizes_and hr hop hg⟩
    | not =>
      obtain ⟨inner, hinner, -⟩ := exists_of_bind_eq_ok hok
      obtain ⟨hf, hg⟩ := h hr hoperand hpos state inner hinner
      exact ⟨realizes_not hr hop hf, realizes_not hr hop hg⟩
    | bka | bkn => cases hok
    | _ => cases hgoverns

/-- Nothing ends within depth 0. -/
theorem shadows_zero (b : Nat) : Shadows scheme rules watch input 0 b := by
  intro r rule op e pos _ _ _ state out hok
  simp [evaluate] at hok

namespace Depicts

variable (hdepicts : Depicts scheme rules watch) (hcovers : Covers scheme rules)
include hdepicts hcovers

theorem shadows_of_le (h : a ≤ b) : Shadows scheme rules watch input a b := by
  induction a generalizing b with
  | zero => exact shadows_zero b
  | succ a ih =>
    obtain ⟨b, rfl⟩ : ∃ c, b = c + 1 := ⟨b - 1, by omega⟩
    exact Shadows.succ hdepicts hcovers (ih (by omega))

end Depicts

/-! ## Places -/

/-- The opcodes of the rules, each at every position of the input. -/
def places (rules : Array Rule) (input : Array UInt8) : Finset ((_ : Nat) × Nat × Nat) :=
  (Finset.range rules.size).sigma fun r =>
    Finset.range (rules[r]?.elim 0 (·.opcodes.size)) ×ˢ Finset.range (input.size + 1)

theorem card_places (rules : Array Rule) (input : Array UInt8) :
    (places rules input).card = opcodeCount rules * (input.size + 1) := by
  simp [places, Finset.card_sigma, opcodeCount_eq_sum, Finset.sum_mul]

/-- An opcode that holds an expression ends at a position, within some depth and in some state. -/
def EndsAt (rules : Array Rule) (watch : Watch σ) (input : Array UInt8) (depth : Nat)
    (place : (_ : Nat) × Nat × Nat) : Prop :=
  ∃ rule e state out, rules[place.1]? = some rule ∧ Expr.Stands rule.opcodes place.2.1 e ∧
    evaluate rules watch input depth place.1 place.2.1 place.2.2 state = .ok out

open Classical in
/-- The places that end within some depth. -/
noncomputable def ended (rules : Array Rule) (watch : Watch σ) (input : Array UInt8)
    (depth : Nat) : Finset ((_ : Nat) × Nat × Nat) :=
  (places rules input).filter (EndsAt rules watch input depth)

open Classical in
theorem card_ended_le (depth : Nat) :
    (ended rules watch input depth).card ≤ opcodeCount rules * (input.size + 1) := by
  rw [← card_places]
  exact Finset.card_le_card (Finset.filter_subset _ _)

theorem mem_ended {r op pos depth : Nat} :
    ⟨r, op, pos⟩ ∈ ended rules watch input depth ↔
      pos ≤ input.size ∧ EndsAt rules watch input depth ⟨r, op, pos⟩ := by
  simp only [ended, places, Finset.mem_filter, Finset.mem_sigma, Finset.mem_product,
    Finset.mem_range]
  constructor
  · rintro ⟨⟨-, -, hpos⟩, hends⟩
    exact ⟨by omega, hends⟩
  · rintro ⟨hpos, hends⟩
    obtain ⟨rule, e, state, out, hr, hop, hok⟩ := hends
    refine ⟨⟨(Array.getElem?_eq_some_iff.1 hr).1, ?_, by omega⟩, rule, e, state, out, hr, hop, hok⟩
    obtain ⟨o, ho⟩ := hop.exists_opcode
    simpa [hr] using (Array.getElem?_eq_some_iff.1 ho).1

theorem Shadows.ended_subset (h : Shadows scheme rules watch input a b) :
    ended rules watch input a ⊆ ended rules watch input b := by
  rintro ⟨r, op, pos⟩ hplace
  obtain ⟨hpos, rule, e, state, out, hr, hop, hok⟩ := mem_ended.1 hplace
  obtain ⟨-, result, nodes, events, -, hb⟩ := h hr hop hpos state out hok
  exact mem_ended.2 ⟨hpos, rule, e, state, _, hr, hop, hb state⟩

namespace Depicts

variable (hdepicts : Depicts scheme rules watch) (hcovers : Covers scheme rules)
include hdepicts hcovers

theorem ended_subset (h : a ≤ b) : ended rules watch input a ⊆ ended rules watch input b :=
  Shadows.ended_subset (hdepicts.shadows_of_le hcovers h)

/-- If every place that ends within depth `a` ends within depth `b`, it does the same there. -/
theorem shadows_of_subset (h : ended rules watch input a ⊆ ended rules watch input b) :
    Shadows scheme rules watch input a b := by
  intro r rule op e pos hr hop hpos state out hok
  have hplace := h (mem_ended.2 ⟨hpos, rule, e, state, out, hr, hop, hok⟩)
  obtain ⟨-, rule', e', state', out', -, -, hok'⟩ := mem_ended.1 hplace
  exact ⟨(hdepicts.shadows_of_le hcovers (Nat.le_refl a) hr hop hpos state out hok).1,
    (hdepicts.shadows_of_le hcovers (Nat.le_refl b) hr hop hpos state' out' hok').1⟩

/-- From the number of places on, a greater depth adds no place. -/
theorem ended_eq {depth : Nat} (h : opcodeCount rules * (input.size + 1) ≤ depth) :
    ended rules watch input depth =
      ended rules watch input (opcodeCount rules * (input.size + 1)) := by
  have hsame : ∀ {d d'}, d ≤ d' →
      (ended rules watch input d).card = (ended rules watch input d').card →
      ended rules watch input d = ended rules watch input d' := fun hle hcard =>
    Finset.eq_of_subset_of_card_le (hdepicts.ended_subset hcovers hle) (Nat.le_of_eq hcard.symm)
  -- The ended places only become more with the depth, there are no more of them than places, and
  -- once a level adds none the next level adds none either.
  refine (hsame h (Eq.symm ?_)).symm
  refine Nat.stabilises_of_monotone (f := fun d => (ended rules watch input d).card)
    (fun d d' hle => Finset.card_le_card (hdepicts.ended_subset hcovers hle)) card_ended_le
    (fun d hstable => ?_) h
  have hstable := hsame (Nat.le_succ d) hstable
  have hshadows : Shadows scheme rules watch input (d + 2) (d + 1) :=
    Shadows.succ hdepicts hcovers (hdepicts.shadows_of_subset hcovers hstable.symm.subset)
  exact Nat.le_antisymm (Finset.card_le_card (hdepicts.ended_subset hcovers (by omega)))
    (Finset.card_le_card (Shadows.ended_subset hshadows))

/-- What ends within some depth ends within every depth that is no less than the number of
places. -/
theorem shadows_bound (h : opcodeCount rules * (input.size + 1) ≤ b) :
    Shadows scheme rules watch input a b := by
  refine hdepicts.shadows_of_subset hcovers ?_
  rw [hdepicts.ended_eq hcovers h,
    ← hdepicts.ended_eq hcovers (Nat.le_trans h (Nat.le_max_right a b))]
  exact hdepicts.ended_subset hcovers (Nat.le_max_left a b)

end Depicts

/-! ## Runs -/

/-- An expression that has a run at a position is evaluated there; what is left of a choice, a
sequence or a repetition may stand nowhere in the table, and is evaluated by the loop that works
on it. -/
def Evaluable (scheme : Scheme) (rules : Array Rule) (watch : Watch σ) (input : Array UInt8)
    (depth : Nat) : Expr Opcode → Nat → Prop
  | .alt es, pos => ∀ r rule cs, rules[r]? = some rule → Expr.StandAll rule.opcodes cs es →
    Realizes scheme watch input (firstMatch (fun c => evaluate rules watch input depth r c pos) cs)
      (.alt es) pos
  | .cat es, pos => ∀ r rule cs start length, rules[r]? = some rule →
    Expr.StandAll rule.opcodes cs es → start + length = pos →
    RealizesSequence scheme watch input (evaluate rules watch input depth r) cs es start length
  | .under (.rep least left) e, pos => ∀ r rule op start budget count length min max,
    rules[r]? = some rule → Expr.Stands rule.opcodes op e → start + length = pos →
    input.size - pos < budget → least.toNat = min.toNat - count → Left max count left →
    RealizesLoop scheme watch input (evaluate rules watch input depth r op) min max e start budget
      count length
  | e, pos => ∀ r rule op, rules[r]? = some rule → Expr.Stands rule.opcodes op e →
    Realizes scheme watch input (evaluate rules watch input depth r op pos) e pos

namespace Depicts

variable (hdepicts : Depicts scheme rules watch) (hcovers : Covers scheme rules) {depth : Nat}
include hdepicts hcovers

/-- Once the depth suffices for all places, one level more is not needed. -/
theorem realizes_of_succ (hdepth : opcodeCount rules * (input.size + 1) ≤ depth) {r op pos : Nat}
    {rule : Rule} {e : Expr Opcode} (hr : rules[r]? = some rule)
    (hop : Expr.Stands rule.opcodes op e) (hpos : pos ≤ input.size) (state : State σ)
    (h : Realizes scheme watch input (evaluate rules watch input (depth + 1) r op pos) e pos) :
    Realizes scheme watch input (evaluate rules watch input depth r op pos) e pos := by
  obtain ⟨_, _, _, -, hok⟩ := h
  exact (hdepicts.shadows_bound hcovers hdepth hr hop hpos state _ (hok state)).2

theorem realizes_of_evaluable (hdepth : opcodeCount rules * (input.size + 1) ≤ depth)
    {r op pos : Nat} {rule : Rule} {e : Expr Opcode} (hr : rules[r]? = some rule)
    (hop : Expr.Stands rule.opcodes op e) (hpos : pos ≤ input.size) (state : State σ)
    (h : Evaluable scheme rules watch input depth e pos) :
    Realizes scheme watch input (evaluate rules watch input depth r op pos) e pos := by
  cases e with
  | atom o => exact h r rule op hr hop
  | alt es =>
    obtain ⟨cs, hcs, hall⟩ := id hop
    refine hdepicts.realizes_of_succ hcovers hdepth hr hop hpos state ?_
    exact realizes_choice hr hcs (h r rule cs hr hall)
  | cat es =>
    obtain ⟨cs, hcs, hall⟩ := id hop
    refine hdepicts.realizes_of_succ hcovers hdepth hr hop hpos state ?_
    exact realizes_cat hr hcs (h r rule cs pos 0 hr hall rfl)
  | under o e =>
    cases o with
    | rep min max =>
      obtain ⟨hrep, -, hoperand⟩ := id hop
      refine hdepicts.realizes_of_succ hcovers hdepth hr hop hpos state ?_
      exact realizes_repetition hr hrep
        (h r rule (op + 1) pos _ 0 0 min max hr hoperand rfl (by omega) rfl (.zero max))
    | _ => exact h r rule op hr hop

/-- What has a run is evaluated. -/
theorem evaluable_of_run (hdepth : opcodeCount rules * (input.size + 1) ≤ depth) (state : State σ)
    {e : Expr Opcode} {pos : Nat} {rest : List UInt8} {result : Option Nat} {nodes : List Node}
    {events : List Event} (h : Run scheme e pos rest result nodes events)
    (hpos : pos ≤ input.size) (hrest : rest = input.toList.drop pos) :
    Evaluable scheme rules watch input depth e pos := by
  -- By induction on the run: its parts are evaluated, and by `realizes_of_evaluable` the depth that
  -- they are evaluated within is the same.
  induction h with
  | leaf h =>
    intro r rule op hr hop
    subst hrest
    refine hdepicts.realizes_of_succ hcovers hdepth hr hop hpos state ?_
    exact realizes_leaf hr hop.1 hpos (by simp [h])
  | rule hbody _ ih =>
    intro r rule op hr hop
    obtain ⟨rule', hr', hstands⟩ := hdepicts.body hbody
    refine hdepicts.realizes_of_succ hcovers hdepth hr hop hpos state ?_
    refine realizes_ref hdepicts hr hop.1 hbody ?_
    exact hdepicts.realizes_of_evaluable hcovers hdepth hr' hstands hpos state (ih hpos hrest)
  | altNil =>
    rintro r rule cs hr rfl
    exact realizes_firstMatch_nil _ _
  | altHit h ih =>
    rintro r rule cs hr ⟨c, cs, rfl, hc, -⟩
    refine realizes_firstMatch_cons
      (hdepicts.realizes_of_evaluable hcovers hdepth hr hc hpos state (ih hpos hrest)) ?_
    intro events hrun
    subst hrest
    exact absurd (hrun.unique h).1 (by simp)
  | altMiss _ _ ih ih' =>
    rintro r rule cs hr ⟨c, cs, rfl, hc, hcs⟩
    refine realizes_firstMatch_cons
      (hdepicts.realizes_of_evaluable hcovers hdepth hr hc hpos state (ih hpos hrest)) ?_
    exact fun _ _ => ih' hpos hrest r rule cs hr hcs
  | catNil =>
    rintro r rule cs start length hr rfl rfl
    exact realizesSequence_nil _ _ _
  | catMiss h ih =>
    rintro r rule cs start length hr ⟨c, cs, rfl, hc, -⟩ rfl
    refine realizesSequence_cons
      (hdepicts.realizes_of_evaluable hcovers hdepth hr hc hpos state (ih hpos hrest)) ?_
    intro more nodes events hrun
    subst hrest
    exact absurd (hrun.unique h).1 (by simp)
  | catNext h _ ih ih' =>
    rintro r rule cs start length hr ⟨c, cs, rfl, hc, hcs⟩ rfl
    refine realizesSequence_cons
      (hdepicts.realizes_of_evaluable hcovers hdepth hr hc hpos state (ih hpos hrest)) ?_
    intro more nodes events hrun
    subst hrest
    obtain ⟨hmore, -, -⟩ := hrun.unique h
    cases hmore
    have hle := h.le_size hpos
    exact ih' (by omega) List.drop_drop r rule cs start _ hr hcs (by omega)
  | repDone =>
    intro r rule op start budget count length min max hr hop hstart hbudget hleast hleft
    obtain ⟨budget, rfl⟩ : ∃ b, budget = b + 1 := ⟨budget - 1, by omega⟩
    have hnone := hleft.eq_zero_iff.1 rfl
    exact realizesLoop_succ (fun hmax => by simp [hnone] at hmax)
      (fun hmax => by simp [hnone] at hmax)
  | repMiss _ h ih | repEmpty _ h ih =>
    rintro r rule op start budget count length min max hr hop rfl hbudget hleast hleft
    obtain ⟨budget, rfl⟩ : ∃ b, budget = b + 1 := ⟨budget - 1, by omega⟩
    refine realizesLoop_succ (fun _ =>
      hdepicts.realizes_of_evaluable hcovers hdepth hr hop hpos state (ih hpos hrest)) ?_
    intro _ more nodes events hrun
    subst hrest
    exact absurd (hrun.unique h).1 (by simp)
  | repNext _ h _ ih ih' =>
    rintro r rule op start budget count length min max hr hop rfl hbudget hleast hleft
    obtain ⟨budget, rfl⟩ : ∃ b, budget = b + 1 := ⟨budget - 1, by omega⟩
    refine realizesLoop_succ (fun _ =>
      hdepicts.realizes_of_evaluable hcovers hdepth hr hop hpos state (ih hpos hrest)) ?_
    intro _ more nodes events hrun
    subst hrest
    obtain ⟨hmore, -, -⟩ := hrun.unique h
    cases hmore
    have hle := h.le_size hpos
    refine ih' (by omega) List.drop_drop r rule op start budget (count + 1) _ min max hr hop
      (by omega) (by omega) ?_ hleft.succ
    rw [toNat_fewer, hleast]
    omega
  | and _ ih =>
    intro r rule op hr hop
    refine hdepicts.realizes_of_succ hcovers hdepth hr hop hpos state (realizes_and hr hop.1 ?_)
    exact hdepicts.realizes_of_evaluable hcovers hdepth hr hop.2.2 hpos state (ih hpos hrest)
  | not _ ih =>
    intro r rule op hr hop
    refine hdepicts.realizes_of_succ hcovers hdepth hr hop hpos state (realizes_not hr hop.1 ?_)
    exact hdepicts.realizes_of_evaluable hcovers hdepth hr hop.2.2 hpos state (ih hpos hrest)

/-- Whatever the start rule answers within some depth follows a run, and is the engine's answer. -/
theorem run_eq_of_enterRule {start depth : Nat} {init : σ} {out : Outcome σ}
    (hstart : start < rules.size)
    (hok : enterRule watch start 0 (evaluate rules watch input depth start 0 0) ⟨#[], init⟩ =
      .ok out) :
    (∃ nodes events, Run scheme (.atom (.rnm start)) 0 input.toList out.1 nodes events ∧
        out.2 = ⟨(Node.recordsAll 0 nodes).toArray, events.foldl watch.see init⟩) ∧
      Engine.run rules watch start input init = .ok ⟨out.1, out.2.records, out.2.observed⟩ := by
  have hdepth : opcodeCount rules * (input.size + 1) ≤ depthBound rules input := Nat.le_succ _
  obtain ⟨body, hbody⟩ := Option.isSome_iff_exists.1 (hcovers start hstart)
  obtain ⟨rule, hr, hstands⟩ := hdepicts.body hbody
  obtain ⟨state, inner, hinner⟩ := exists_ok_of_enterRule hok
  obtain ⟨hfound, hbound⟩ :=
    hdepicts.shadows_bound hcovers hdepth hr hstands (Nat.zero_le _) state inner hinner
  obtain ⟨result, nodes, events, hrun, heq⟩ := realizes_enterRule hdepicts.recorded hbody hfound
  obtain ⟨_, _, _, hrun', heq'⟩ := realizes_enterRule hdepicts.recorded hbody hbound
  obtain ⟨rfl, rfl, rfl⟩ := hrun.unique hrun'
  cases hok.symm.trans (heq _)
  refine ⟨⟨nodes, events, hrun, by simp [State.after]⟩, ?_⟩
  simp only [Engine.run, fetch_eq_ok.2 hr, bind, Except.bind, heq', pure, Except.pure]

/-- The engine ends just where there is a run of the start rule, and does what the run says. -/
theorem run_eq_ok_iff {start : Nat} {init : σ} {found : Match σ} :
    Engine.run rules watch start input init = .ok found ↔
      ∃ result nodes events, Run scheme (.atom (.rnm start)) 0 input.toList result nodes events ∧
        found = ⟨result, (Node.recordsAll 0 nodes).toArray, events.foldl watch.see init⟩ := by
  have hdepth : opcodeCount rules * (input.size + 1) ≤ depthBound rules input := Nat.le_succ _
  constructor
  · intro hok
    obtain ⟨rule, hrule, hentered⟩ := exists_of_bind_eq_ok hok
    have hstart := (Array.getElem?_eq_some_iff.1 (fetch_eq_ok.1 hrule)).1
    obtain ⟨⟨result, state⟩, hout, -⟩ := exists_of_bind_eq_ok hentered
    obtain ⟨⟨nodes, events, hrun, rfl⟩, heq⟩ := hdepicts.run_eq_of_enterRule hcovers hstart hout
    exact ⟨result, nodes, events, hrun, Except.ok.inj (hok.symm.trans heq)⟩
  · rintro ⟨result, nodes, events, hrun, rfl⟩
    cases hrun with
    | leaf h => simp [leafResult?] at h
    | rule hbody h =>
      obtain ⟨rule, hr, hstands⟩ := hdepicts.body hbody
      have hstart := (Array.getElem?_eq_some_iff.1 hr).1
      have hrealizes := hdepicts.realizes_of_evaluable hcovers hdepth hr hstands (Nat.zero_le _)
        ⟨#[], init⟩ (hdepicts.evaluable_of_run hcovers hdepth ⟨#[], init⟩ h (Nat.zero_le _) rfl)
      obtain ⟨_, _, _, hrun, hf⟩ := realizes_enterRule hdepicts.recorded hbody hrealizes
      obtain ⟨-, heq⟩ := hdepicts.run_eq_of_enterRule hcovers hstart (hf ⟨#[], init⟩)
      obtain ⟨rfl, rfl, rfl⟩ := hrun.unique (.rule hbody h)
      rw [heq]
      simp [State.after]

end Depicts

end Abnf.Engine
