import Abnf.Proofs.Analysis.Equations
import Abnf.Proofs.Engine.Adequacy

/-!
# Repetition and its unrolling

A repetition that takes exactly `n` iterations should do what a sequence of `n` times its operand
does. The loop ends after an iteration that matches the empty phrase, and counts it once, so that
the iterations after it are missing in the count; the sequence goes on, and every operand after the
empty one matches the empty phrase again.

* `Stalls`: an iteration before the last one matches the empty phrase.
* `ends_unrolled`: repetition agrees with its unrolling just where it does not stall.
-/

namespace Abnf

/-! ## Expressions of opcodes that can be walked -/

namespace Expr

theorem standAll_of_forall₂ {opcodes : Array Opcode} {cs : List Nat} {es : List (Expr Opcode)}
    (h : List.Forall₂ (Stands opcodes) cs es) : StandAll opcodes cs es := by
  induction h with
  | nil => rfl
  | cons hc _ ih => exact ⟨_, _, rfl, hc, ih⟩

theorem standAll_replicate {opcodes : Array Opcode} {i : Nat} {e : Expr Opcode}
    (h : Stands opcodes i e) (n : Nat) :
    StandAll opcodes (List.replicate n i) (List.replicate n e) := by
  induction n with
  | zero => rfl
  | succ n ih => exact ⟨i, List.replicate n i, rfl, h, ih⟩

/-- Opcodes that can be walked have expressions, whatever their kinds. -/
theorem exists_stands {opcodes : Array Opcode} (h : Opcodes.Ordered opcodes) {i : Nat}
    (hi : i < opcodes.size) : ∃ e, Stands opcodes i e := by
  induction hleft : opcodes.size - i using Nat.strongRecOn generalizing i with
  | _ left ih =>
    have hget : opcodes[i]? = some opcodes[i] := Array.getElem?_eq_getElem hi
    have hlater : ∀ j, i < j → j < opcodes.size → ∃ e, Stands opcodes j e :=
      fun j hij hj => ih (opcodes.size - j) (by omega) hj rfl
    have hchildren : ∀ cs : List Nat, opcodes[i].children = cs →
        ∃ es, StandAll opcodes cs es := by
      intro cs hcs
      have hall : ∀ c ∈ cs, ∃ e, Stands opcodes c e := fun c hc =>
        hlater c (h.forward hget (hcs ▸ hc)).1 (h.forward hget (hcs ▸ hc)).2
      choose! shapes hshapes using hall
      refine ⟨cs.map shapes, standAll_of_forall₂ ?_⟩
      rw [List.forall₂_map_right_iff]
      exact List.forall₂_same.2 hshapes
    have hoperand : opcodes[i].governsNext = true → ∃ e, Stands opcodes i e := by
      intro hgoverns
      obtain ⟨e, he⟩ := hlater (i + 1) (Nat.lt_succ_self i) (h.governed hget hgoverns)
      exact ⟨.under opcodes[i] e, hget, hgoverns, he⟩
    cases hop : opcodes[i] with
    | alt cs =>
      obtain ⟨es, hes⟩ := hchildren cs (by rw [hop]; rfl)
      exact ⟨.alt es, cs, hop ▸ hget, hes⟩
    | cat cs =>
      obtain ⟨es, hes⟩ := hchildren cs (by rw [hop]; rfl)
      exact ⟨.cat es, cs, hop ▸ hget, hes⟩
    | rep | and | not | bka | bkn => exact hoperand (by rw [hop]; rfl)
    | _ => exact ⟨.atom _, hop ▸ hget, rfl⟩

/-- An expression depends on the opcodes from its position on. -/
theorem Stands.congr {opcodes opcodes' : Array Opcode} (h : Opcodes.Ordered opcodes) {i : Nat}
    {e : Expr Opcode} (he : Stands opcodes i e)
    (hsame : ∀ j, i ≤ j → opcodes'[j]? = opcodes[j]?) : Stands opcodes' i e := by
  induction e using Expr.induction generalizing i with
  | atom op => exact ⟨by rw [hsame i (Nat.le_refl i), he.1], he.2⟩
  | alt es ih | cat es ih =>
    obtain ⟨cs, hop, hall⟩ := he
    refine ⟨cs, by rw [hsame i (Nat.le_refl i), hop], ?_⟩
    have hforward : ∀ c ∈ cs, i < c := fun c hc => (h.forward hop hc).1
    clear hop
    induction es generalizing cs with
    | nil => exact hall
    | cons e es ihes =>
      obtain ⟨c, cs, rfl, hc, hcs⟩ := hall
      obtain ⟨hlt, hforward⟩ := List.forall_mem_cons.1 hforward
      refine ⟨c, cs, rfl, ?_, ihes (fun e he => ih e (by simp [he])) cs hcs hforward⟩
      exact ih e (by simp) hc fun j hj => hsame j (by omega)
  | under op e ih =>
    refine ⟨by rw [hsame i (Nat.le_refl i), he.1], he.2.1, ?_⟩
    exact ih he.2.2 fun j hj => hsame j (by omega)

end Expr

namespace Engine

variable {σ : Type} {rules : Array Rule} {watch : Watch σ} {input : Array UInt8}

/-! ## Where evaluation ends -/

/-- Evaluation of an opcode ends, within some depth. -/
def Ends (rules : Array Rule) (watch : Watch σ) (input : Array UInt8) (rule op pos : Nat)
    (state : State σ) (outcome : Outcome σ) : Prop :=
  ∃ depth, evaluate rules watch input depth rule op pos state = .ok outcome

/-- An iteration before the last of `n` iterations of an opcode matches the empty phrase. -/
inductive Stalls (rules : Array Rule) (watch : Watch σ) (input : Array UInt8) (rule op : Nat) :
    (n pos : Nat) → Prop
  | empty {n pos state after} :
    Ends rules watch input rule op pos state (some 0, after) →
    Stalls rules watch input rule op (n + 2) pos
  | later {n pos more state after} :
    Ends rules watch input rule op pos state (some (more + 1), after) →
    Stalls rules watch input rule op n (pos + (more + 1)) →
    Stalls rules watch input rule op (n + 1) pos

variable {scheme : Scheme} {r op pos : Nat} {rule : Rule} {e : Expr Opcode}

/-- An opcode ends where its expression has a run, and as the run says. -/
theorem Depicts.ends_iff (hdepicts : Depicts scheme rules watch) (hcovers : Covers scheme rules)
    (hr : rules[r]? = some rule) (hop : Expr.Stands rule.opcodes op e) (hpos : pos ≤ input.size)
    {state : State σ} {outcome : Outcome σ} :
    Ends rules watch input r op pos state outcome ↔ ∃ result nodes events,
      Run scheme e pos (input.toList.drop pos) result nodes events ∧
        outcome = (result, state.after watch nodes events) := by
  constructor
  · rintro ⟨depth, hok⟩
    obtain ⟨⟨result, nodes, events, hrun, hf⟩, -⟩ :=
      hdepicts.shadows_of_le hcovers (Nat.le_refl depth) hr hop hpos state outcome hok
    exact ⟨result, nodes, events, hrun, Except.ok.inj (hok.symm.trans (hf state))⟩
  · rintro ⟨result, nodes, events, hrun, rfl⟩
    obtain ⟨_, _, _, hrun', hf⟩ := hdepicts.realizes_of_evaluable hcovers (Nat.le_refl _) hr hop
      hpos state (hdepicts.evaluable_of_run hcovers (Nat.le_refl _) state hrun hpos rfl)
    obtain ⟨rfl, rfl, rfl⟩ := hrun.unique hrun'
    exact ⟨_, hf state⟩

/-! ## Runs -/

/-- Where an expression matches the empty phrase, so does any sequence of it. -/
theorem exists_run_replicate {rest : List UInt8} {nodes : List Node} {events : List Event}
    (h : Run scheme e pos rest (some 0) nodes events) (n : Nat) :
    ∃ nodes events, Run scheme (.cat (List.replicate n e)) pos rest (some 0) nodes events := by
  induction n with
  | zero => exact ⟨[], [], .catNil⟩
  | succ n ih =>
    obtain ⟨nodes', events', hrest⟩ := ih
    have hnext := Run.catNext h hrest
    exact ⟨_, _, hnext⟩

theorem fewer_eq {m : UInt32} {n : Nat} (h : m.toNat = n + 1) : (fewer m).toNat = n := by
  rw [toNat_fewer, h, Nat.add_sub_cancel]

theorem ne_zero_of_toNat {m : UInt32} {n : Nat} (h : m.toNat = n + 1) : some m ≠ some 0 := by
  rintro heq
  cases heq
  cases h

section

variable (hdepicts : Depicts scheme rules watch) (hcovers : Covers scheme rules)
  (hr : rules[r]? = some rule) (hop : Expr.Stands rule.opcodes op e)
include hdepicts hcovers hr hop

theorem exists_run_of_ends {state after : State σ} {result : Option Nat} (hpos : pos ≤ input.size)
    (h : Ends rules watch input r op pos state (result, after)) :
    ∃ nodes events, Run scheme e pos (input.toList.drop pos) result nodes events := by
  obtain ⟨result, nodes, events, hrun, heq⟩ := (hdepicts.ends_iff hcovers hr hop hpos).1 h
  cases heq
  exact ⟨nodes, events, hrun⟩

theorem exists_ends_of_run {result : Option Nat} {nodes : List Node} {events : List Event}
    (hpos : pos ≤ input.size)
    (h : Run scheme e pos (input.toList.drop pos) result nodes events) (state : State σ) :
    ∃ after, Ends rules watch input r op pos state (result, after) :=
  ⟨_, (hdepicts.ends_iff hcovers hr hop hpos).2 ⟨result, nodes, events, h, rfl⟩⟩

/-- A repetition that stalls fails, where the sequence matches. -/
theorem exists_run_of_stalls {n : Nat} (h : Stalls rules watch input r op n pos) {m : UInt32}
    (hm : m.toNat = n) (hpos : pos ≤ input.size) :
    (∃ events, Run scheme (.under (.rep m (some m)) e) pos (input.toList.drop pos) none [] events) ∧
      ∃ length nodes events, Run scheme (.cat (List.replicate n e)) pos (input.toList.drop pos)
        (some length) nodes events := by
  induction h generalizing m with
  | @empty n pos state after hends =>
    obtain ⟨nodes, events, hrun⟩ := exists_run_of_ends hdepicts hcovers hr hop hpos hends
    obtain ⟨nodes', events', hcat⟩ := exists_run_replicate hrun (n + 2)
    refine ⟨⟨events, ?_⟩, 0, nodes', events', hcat⟩
    have hrep : Run scheme (.under (.rep m (some m)) e) pos _ _ _ _ :=
      .repEmpty (ne_zero_of_toNat hm) hrun
    rwa [enough, if_neg (by omega), if_neg (by omega)] at hrep
  | @later n pos more state after hends _ ih =>
    obtain ⟨nodes, events, hrun⟩ := exists_run_of_ends hdepicts hcovers hr hop hpos hends
    obtain ⟨⟨events', hrep⟩, length, nodes', events'', hcat⟩ :=
      ih (fewer_eq hm) (hrun.le_size hpos)
    rw [← List.drop_drop] at hrep hcat
    exact ⟨⟨_, .repNext (ne_zero_of_toNat hm) hrun hrep⟩, _, _, _, .catNext hrun hcat⟩

/-- Of iterations that do not stall, an empty one is the last. -/
theorem eq_zero_of_not_stalls {n : Nat} (hstalls : ¬ Stalls rules watch input r op (n + 1) pos)
    (hpos : pos ≤ input.size) (state : State σ) {nodes : List Node} {events : List Event}
    (hrun : Run scheme e pos (input.toList.drop pos) (some 0) nodes events) : n = 0 := by
  obtain ⟨after, hends⟩ := exists_ends_of_run hdepicts hcovers hr hop hpos hrun state
  cases n with
  | zero => rfl
  | succ n => exact absurd (.empty hends) hstalls

/-- The iterations after one that is not empty do not stall if all of them do not. -/
theorem not_stalls_rest {n more : Nat} (hstalls : ¬ Stalls rules watch input r op (n + 1) pos)
    (hpos : pos ≤ input.size) (state : State σ) {nodes : List Node} {events : List Event}
    (hrun : Run scheme e pos (input.toList.drop pos) (some (more + 1)) nodes events) :
    ¬ Stalls rules watch input r op n (pos + (more + 1)) := by
  obtain ⟨after, hends⟩ := exists_ends_of_run hdepicts hcovers hr hop hpos hrun state
  exact fun h => hstalls (.later hends h)

/-- A repetition that does not stall has the runs of the sequence. -/
theorem run_rep_iff_of_not_stalls {n : Nat} (hstalls : ¬ Stalls rules watch input r op n pos)
    {m : UInt32} (hm : m.toNat = n) (hpos : pos ≤ input.size) {result : Option Nat}
    {nodes : List Node} {events : List Event} (state : State σ) :
    Run scheme (.under (.rep m (some m)) e) pos (input.toList.drop pos) result nodes events ↔
      Run scheme (.cat (List.replicate n e)) pos (input.toList.drop pos) result nodes events := by
  induction n generalizing pos m result nodes events with
  | zero =>
    obtain rfl : m = 0 := UInt32.toNat_inj.1 hm
    constructor <;> intro h
    · cases h with
      | repDone => exact .catNil
      | repMiss hmax | repEmpty hmax | repNext hmax => exact absurd rfl hmax
    · cases h
      exact .repDone
  | succ n ih =>
    have hmax := ne_zero_of_toNat hm
    -- What an iteration that is not empty leaves is the same for both.
    have hnext : ∀ {more nodes events},
        Run scheme e pos (input.toList.drop pos) (some (more + 1)) nodes events →
        ∀ {result nodes events}, Run scheme (.under (.rep (fewer m) (some (fewer m))) e)
            (pos + (more + 1)) ((input.toList.drop pos).drop (more + 1)) result nodes events ↔
          Run scheme (.cat (List.replicate n e)) (pos + (more + 1))
            ((input.toList.drop pos).drop (more + 1)) result nodes events := by
      intro more nodes events hrun result nodes events
      have hrest := not_stalls_rest hdepicts hcovers hr hop hstalls hpos state hrun
      rw [List.drop_drop]
      exact ih hrest (fewer_eq hm) (hrun.le_size hpos)
    have hlast : ∀ {nodes events},
        Run scheme e pos (input.toList.drop pos) (some 0) nodes events → n = 0 :=
      eq_zero_of_not_stalls hdepicts hcovers hr hop hstalls hpos state
    rw [List.replicate_succ]
    constructor <;> intro h
    · cases h with
      | repDone => exact absurd rfl hmax
      | repMiss _ hrun =>
        rw [enough, if_neg (by omega)]
        exact .catMiss hrun
      | repEmpty _ hrun =>
        obtain rfl := hlast hrun
        rw [enough, if_pos (by omega), if_pos (by omega)]
        simpa using Run.catNext hrun .catNil
      | repNext _ hrun hrest => exact .catNext hrun ((hnext hrun).1 hrest)
    · cases h with
      | catMiss hrun =>
        have hrep : Run scheme (.under (.rep m (some m)) e) pos _ _ _ _ := .repMiss hmax hrun
        rwa [enough, if_neg (by omega)] at hrep
      | @catNext _ _ _ _ length nodes events result nodes' events' hrun hrest =>
        cases length with
        | zero =>
          obtain rfl := hlast hrun
          cases hrest
          have hrep : Run scheme (.under (.rep m (some m)) e) pos _ _ _ _ := .repEmpty hmax hrun
          rw [enough, if_pos (by omega), if_pos (by omega)] at hrep
          simpa using hrep
        | succ more => exact .repNext hmax hrun ((hnext hrun).2 hrest)

end

/-! ## Tables -/

/-- The rules of a table that can be walked have expressions. -/
theorem exists_depicts (h : Analysis.Ordered rules) (watch : Watch σ) :
    ∃ scheme, Depicts scheme rules watch ∧ Covers scheme rules := by
  have hbody : ∀ r : Nat, ∃ body : Option (Expr Opcode), (r < rules.size → body.isSome = true) ∧
      ∀ e, body = some e → ∃ rule, rules[r]? = some rule ∧ Expr.Stands rule.opcodes 0 e := by
    intro r
    cases hr : rules[r]? with
    | none => exact ⟨none, fun hlt => by simp [hlt] at hr, nofun⟩
    | some rule =>
      have hordered := h.opcodes rule (Array.mem_of_getElem? hr)
      obtain ⟨e, he⟩ := Expr.exists_stands hordered hordered.nonempty
      refine ⟨some e, fun _ => rfl, fun e' heq => ?_⟩
      cases heq
      exact ⟨rule, rfl, he⟩
  choose body hcovers hdepicts using hbody
  exact ⟨⟨body, watch.recorded⟩, ⟨rfl, fun {r e} => hdepicts r e⟩, hcovers⟩

/-- Of two rules of a table, let one take exactly `n` iterations of an element, and the other one
unroll them. Where no iteration before the last one matches the empty phrase, the two do the same:
they end or not alike, with the same length, records and observations. Where one does, the first
fails and the second matches. -/
theorem ends_unrolled (h : Analysis.Ordered rules) {a b : Nat} {rule rule' : Rule} {n : UInt32}
    {element : Array Opcode} (ha : rules[a]? = some rule) (hb : rules[b]? = some rule')
    (hrep : rule.opcodes = #[.rep n (some n)] ++ element)
    (hcat : rule'.opcodes = #[.cat (List.replicate n.toNat 1)] ++ element)
    (hpos : pos ≤ input.size) (state : State σ) :
    (¬ Stalls rules watch input a 1 n.toNat pos → ∀ outcome,
      Ends rules watch input a 0 pos state outcome ↔
        Ends rules watch input b 0 pos state outcome) ∧
    (Stalls rules watch input a 1 n.toNat pos →
      (∃ after, Ends rules watch input a 0 pos state (none, after)) ∧
        ∃ length after, Ends rules watch input b 0 pos state (some length, after)) := by
  obtain ⟨scheme, hdepicts, hcovers⟩ := exists_depicts h watch
  have hordered := h.opcodes rule (Array.mem_of_getElem? ha)
  have hrep0 : rule.opcodes[0]? = some (.rep n (some n)) := by simp [hrep]
  have hcat0 : rule'.opcodes[0]? = some (.cat (List.replicate n.toNat 1)) := by simp [hcat]
  obtain ⟨e, he⟩ := Expr.exists_stands hordered (hordered.governed hrep0 rfl)
  have hrepStands : Expr.Stands rule.opcodes 0 (.under (.rep n (some n)) e) := ⟨hrep0, rfl, he⟩
  have he' : Expr.Stands rule'.opcodes 1 e := by
    refine he.congr hordered fun j hj => ?_
    rw [hrep, hcat, Array.getElem?_append_right hj, Array.getElem?_append_right hj]
    rfl
  have hcatStands : Expr.Stands rule'.opcodes 0 (.cat (List.replicate n.toNat e)) :=
    ⟨_, hcat0, Expr.standAll_replicate he' n.toNat⟩
  refine ⟨fun hstalls outcome => ?_, fun hstalls => ?_⟩
  · rw [hdepicts.ends_iff hcovers ha hrepStands hpos, hdepicts.ends_iff hcovers hb hcatStands hpos]
    simp only [run_rep_iff_of_not_stalls hdepicts hcovers ha he hstalls rfl hpos state]
  · obtain ⟨⟨_, hrun⟩, _, _, _, hrun'⟩ :=
      exists_run_of_stalls hdepicts hcovers ha he hstalls rfl hpos
    exact ⟨exists_ends_of_run hdepicts hcovers ha hrepStands hpos hrun state, _,
      exists_ends_of_run hdepicts hcovers hb hcatStands hpos hrun' state⟩

/-- `s = 2""` and `t = "" ""`. -/
def emptyTwice : Array Rule :=
  #[⟨"s", 0, #[.rep 2 (some 2), .tls []]⟩, ⟨"t", 1, #[.cat [1, 1], .tls []]⟩]

/-- Twice nothing is found as a sequence, but not as a repetition. -/
theorem ends_unrolled_emptyTwice : Analysis.Ordered emptyTwice ∧
    (∃ after, Ends emptyTwice (.log [] []) #[] 0 0 0 ⟨#[], #[]⟩ (none, after)) ∧
    ∃ length after, Ends emptyTwice (.log [] []) #[] 1 0 0 ⟨#[], #[]⟩ (some length, after) := by
  have hordered : Analysis.Ordered emptyTwice := by decide
  have hempty : Ends emptyTwice (.log [] []) #[] 0 1 0 ⟨#[], #[]⟩ (some 0, ⟨#[], #[]⟩) := ⟨1, rfl⟩
  have hstalls : Stalls emptyTwice (.log [] []) #[] 0 1 (2 : UInt32).toNat 0 := by
    show Stalls _ _ _ 0 1 (0 + 2) 0
    exact .empty hempty
  have hcat : #[Opcode.cat [1, 1], .tls []] =
      #[.cat (List.replicate (2 : UInt32).toNat 1)] ++ #[.tls []] := rfl
  exact ⟨hordered,
    (ends_unrolled hordered rfl rfl rfl hcat (Nat.le_refl 0) ⟨#[], #[]⟩).2 hstalls⟩

end Engine

end Abnf
