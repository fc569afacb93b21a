import Mathlib.Algebra.BigOperators.Group.Finset.Basic
import Mathlib.Algebra.Order.BigOperators.Group.Finset
import Mathlib.Logic.Relation
import Abnf.Proofs.Engine.Realization

/-!
# Recursive descent ends

A rule leads to the rules that it can enter before it has consumed anything. If no rule leads back
to itself, every evaluation ends, and the depth that the engine allows suffices.

* `Run.isNullable`: only an expression that can be empty matches the empty phrase.
* `run_realizes`: on a table that descends, a match ends and does what the run says.
-/

namespace Abnf

open scoped Decisions

namespace Expr

mutual

/-- Whether an expression may match the empty phrase, when `nullable` says this of rules. -/
def isNullable (nullable : Nat → Bool) : Expr Opcode → Bool
  | atom op =>
    match op with
    | .rnm rule => nullable rule
    | .tls chars | .tbs chars => chars.isEmpty
    | .abg | .aen => true
    | _ => false
  | alt es => someNullable nullable es
  | cat es => allNullable nullable es
  | under op e =>
    match op with
    | .rep min _ => min == 0 || isNullable nullable e
    | _ => true

/-- Whether some expression may match the empty phrase. -/
def someNullable (nullable : Nat → Bool) : List (Expr Opcode) → Bool
  | [] => false
  | e :: es => isNullable nullable e || someNullable nullable es

/-- Whether every expression may match the empty phrase. -/
def allNullable (nullable : Nat → Bool) : List (Expr Opcode) → Bool
  | [] => true
  | e :: es => isNullable nullable e && allNullable nullable es

end

mutual

/-- The rules that an expression can enter before it has consumed anything. -/
def leads (nullable : Nat → Bool) : Expr Opcode → List Nat
  | atom op =>
    match op with
    | .rnm rule => [rule]
    | _ => []
  | alt es => leadsOfAny nullable es
  | cat es => leadsInTurn nullable es
  | under _ e => leads nullable e

/-- The rules that one of several alternatives can enter before it has consumed anything. -/
def leadsOfAny (nullable : Nat → Bool) : List (Expr Opcode) → List Nat
  | [] => []
  | e :: es => leads nullable e ++ leadsOfAny nullable es

/-- The rules that a sequence can enter before it has consumed anything. -/
def leadsInTurn (nullable : Nat → Bool) : List (Expr Opcode) → List Nat
  | [] => []
  | e :: es =>
    leads nullable e ++ if isNullable nullable e then leadsInTurn nullable es else []

end

mutual

/-- Whether the engine has a meaning for every opcode of an expression, and `known` holds of all
rules that it refers to. -/
def isRunnable (known : Nat → Bool) : Expr Opcode → Bool
  | atom op =>
    match op with
    | .rnm rule => known rule
    | .abg | .aen | .tls _ | .tbs _ | .trg .. => true
    | _ => false
  | alt es => allRunnable known es
  | cat es => allRunnable known es
  | under op e =>
    match op with
    | .rep .. | .and | .not => isRunnable known e
    | _ => false

/-- Whether several expressions are runnable. -/
def allRunnable (known : Nat → Bool) : List (Expr Opcode) → Bool
  | [] => true
  | e :: es => isRunnable known e && allRunnable known es

end

theorem allRunnable_iff {known : Nat → Bool} {es : List (Expr Opcode)} :
    allRunnable known es = true ↔ ∀ e ∈ es, e.isRunnable known = true := by
  induction es with
  | nil => simp [allRunnable]
  | cons e es ih => simp [allRunnable, ih]

theorem someNullable_iff {nullable : Nat → Bool} {es : List (Expr Opcode)} :
    someNullable nullable es = true ↔ ∃ e ∈ es, e.isNullable nullable = true := by
  induction es with
  | nil => simp [someNullable]
  | cons e es ih => simp [someNullable, ih]

theorem allNullable_iff {nullable : Nat → Bool} {es : List (Expr Opcode)} :
    allNullable nullable es = true ↔ ∀ e ∈ es, e.isNullable nullable = true := by
  induction es with
  | nil => simp [allNullable]
  | cons e es ih => simp [allNullable, ih]

theorem mem_leadsOfAny {nullable : Nat → Bool} {rule : Nat} {es : List (Expr Opcode)} :
    rule ∈ leadsOfAny nullable es ↔ ∃ e ∈ es, rule ∈ e.leads nullable := by
  induction es with
  | nil => simp [leadsOfAny]
  | cons e es ih => simp [leadsOfAny, ih]

end Expr

namespace Engine

variable {σ : Type} {scheme : Scheme} {rules : Array Rule} {watch : Watch σ} {input : Array UInt8}
  {nullable : Nat → Bool}

/-! ## Empty matches -/

theorem isNullable_of_enough {min : UInt32} {max : Option UInt32} {e : Expr Opcode} {length : Nat}
    (h : enough min 0 = some length) :
    (Expr.under (.rep min max) e).isNullable nullable = true := by
  have hmin : min = 0 := UInt32.toNat_inj.1 (Nat.le_zero.1 (enough_eq_some h).1)
  simp [Expr.isNullable, hmin]

/-- Only an expression that may be empty matches the empty phrase. -/
theorem Run.isNullable (hclosed : ∀ {r body}, scheme.body r = some body →
      body.isNullable nullable = true → nullable r = true)
    {e : Expr Opcode} {pos : Nat} {rest : List UInt8} {nodes : List Node} {events : List Event}
    (h : Run scheme e pos rest (some 0) nodes events) : e.isNullable nullable = true := by
  -- By induction on the run: a sequence or repetition has length 0 only if each of its parts has.
  generalize hresult : some 0 = result at h
  induction h with
  | leaf h =>
    subst hresult
    rename_i op pos rest
    cases op with
    | abg | aen => rfl
    | tls chars | tbs chars =>
      have hlength := (literalResult_eq_some (Option.some.inj h)).2
      rw [Expr.isNullable, List.eq_nil_of_length_eq_zero hlength.symm]
      rfl
    | trg min max => exact absurd (rangeResult_eq_some (Option.some.inj h)).1 (by decide)
    | _ => simp [leafResult?] at h
  | rule hbody _ ih => exact hclosed hbody (ih hresult)
  | altNil | catMiss => simp at hresult
  | altHit _ ih => simp [Expr.isNullable, Expr.someNullable, ih hresult]
  | altMiss _ _ _ ih =>
    have := ih hresult
    simp only [Expr.isNullable] at this
    simp [Expr.isNullable, Expr.someNullable, this]
  | catNil => rfl
  | catNext _ _ ih₁ ih₂ =>
    obtain ⟨more, rfl, hsum⟩ := Option.map_eq_some_iff.1 hresult.symm
    obtain ⟨rfl, rfl⟩ := Nat.add_eq_zero_iff.1 hsum
    have := ih₂ rfl
    simp only [Expr.isNullable] at this
    simp [Expr.isNullable, Expr.allNullable, ih₁ rfl, this]
  | repDone | repMiss => exact isNullable_of_enough hresult.symm
  | repEmpty _ _ ih => simp [Expr.isNullable, ih rfl]
  | repNext _ _ _ ih₁ ih₂ =>
    obtain ⟨more, -, hsum⟩ := Option.map_eq_some_iff.1 hresult.symm
    omega
  | and | not => rfl

/-! ## One rule -/

/-- Rule `r` can be entered at `pos` with any depth from `bound` on. -/
def Ready (scheme : Scheme) (rules : Array Rule) (watch : Watch σ) (input : Array UInt8)
    (bound r pos : Nat) : Prop :=
  ∀ body, scheme.body r = some body → ∀ depth, bound ≤ depth →
    Realizes scheme watch input (evaluate rules watch input depth r 0 pos) body pos

theorem realizesSequence_of_ready
    (hclosed : ∀ {r body}, scheme.body r = some body →
      body.isNullable nullable = true → nullable r = true)
    {f : Nat → Nat → State σ → Except Fault (Outcome σ)} {bound : Nat} {cs : List Nat}
    {es : List (Expr Opcode)}
    (h : List.Forall₂ (fun c e => ∀ pos, pos ≤ input.size →
      (∀ t ∈ e.leads nullable, Ready scheme rules watch input bound t pos) →
      (∀ t pos', pos < pos' → pos' ≤ input.size → Ready scheme rules watch input bound t pos') →
      Realizes scheme watch input (f c pos) e pos) cs es)
    (pos length : Nat) (hpos : pos + length ≤ input.size)
    (hlead : ∀ t ∈ Expr.leadsInTurn nullable es,
      Ready scheme rules watch input bound t (pos + length))
    (hlater : ∀ t pos', pos + length < pos' → pos' ≤ input.size →
      Ready scheme rules watch input bound t pos') :
    RealizesSequence scheme watch input f cs es pos length := by
  induction h generalizing length with
  | nil => exact realizesSequence_nil f pos length
  | cons hhead _ ih =>
    rename_i c e cs es _
    have hhead := hhead _ hpos (fun t ht => hlead t (by simp [Expr.leadsInTurn, ht])) hlater
    refine realizesSequence_cons hhead ?_
    intro more nodes events hrun
    have hle := hrun.le_size hpos
    rcases Nat.eq_zero_or_pos more with rfl | hmore
    · -- Nothing was consumed, so the rest still leads the sequence.
      refine ih length hpos (fun t ht => hlead t ?_) hlater
      simp [Expr.leadsInTurn, hrun.isNullable hclosed, ht]
    · refine ih (length + more) (by omega) (fun t _ => hlater t _ (by omega) (by omega)) ?_
      exact fun t pos' hlt hle' => hlater t pos' (by omega) hle'

/-- An opcode can be evaluated if the rules that it may enter at once, and all rules further
right, can be entered. -/
theorem realizes_of_ready (hdepicts : Depicts scheme rules watch)
    (hclosed : ∀ {r body}, scheme.body r = some body →
      body.isNullable nullable = true → nullable r = true)
    {r : Nat} {rule : Rule} (hr : rules[r]? = some rule) (bound : Nat) (e : Expr Opcode)
    (hrunnable : e.isRunnable (fun t => (scheme.body t).isSome) = true) (op pos : Nat)
    (hop : Expr.Stands rule.opcodes op e) (hpos : pos ≤ input.size)
    (hlead : ∀ t ∈ e.leads nullable, Ready scheme rules watch input bound t pos)
    (hlater : ∀ t pos', pos < pos' → pos' ≤ input.size →
      Ready scheme rules watch input bound t pos') (depth : Nat) (hdepth : bound + e.size ≤ depth) :
    Realizes scheme watch input (evaluate rules watch input depth r op pos) e pos := by
  -- By induction on the expression. Each operator takes one level of the depth, and a rule is
  -- entered with what is left, which is `bound` at least.
  induction e using Expr.induction generalizing op pos depth with
  | atom a =>
    obtain ⟨depth, rfl⟩ : ∃ d, depth = d + 1 := ⟨depth - 1, by simp [Expr.size] at hdepth; omega⟩
    cases a with
    | rnm target =>
      obtain ⟨body, hbody⟩ := Option.isSome_iff_exists.1 hrunnable
      refine realizes_ref hdepicts hr hop.1 hbody ?_
      exact hlead target (by simp [Expr.leads]) body hbody depth
        (by simp [Expr.size] at hdepth; omega)
    | abg | aen | tls | tbs | trg => exact realizes_leaf hr hop.1 hpos rfl
    | _ => simp [Expr.isRunnable] at hrunnable
  | alt es ih =>
    simp only [Expr.isRunnable, Expr.allRunnable_iff] at hrunnable
    obtain ⟨depth, rfl⟩ : ∃ d, depth = d + 1 := ⟨depth - 1, by simp [Expr.size] at hdepth; omega⟩
    refine realizes_alt hr hop fun e he c hc => ?_
    have hsize := Expr.size_le_sizeAll he
    simp only [Expr.size] at hdepth
    exact ih e he (hrunnable e he) c pos hc hpos
      (fun t ht => hlead t (Expr.mem_leadsOfAny.2 ⟨e, he, ht⟩)) hlater depth (by omega)
  | cat es ih =>
    simp only [Expr.isRunnable, Expr.allRunnable_iff] at hrunnable
    obtain ⟨depth, rfl⟩ : ∃ d, depth = d + 1 := ⟨depth - 1, by simp [Expr.size] at hdepth; omega⟩
    obtain ⟨cs, hop, hall⟩ := hop
    simp only [Expr.size] at hdepth
    refine realizes_cat hr hop (realizesSequence_of_ready hclosed ?_ pos 0 hpos hlead hlater)
    refine hall.forall₂ fun e he c hc pos' hpos' hlead' hlater' => ?_
    have hsize := Expr.size_le_sizeAll he
    exact ih e he (hrunnable e he) c pos' hc hpos' hlead' hlater' depth (by omega)
  | under a e ih =>
    obtain ⟨depth, rfl⟩ : ∃ d, depth = d + 1 := ⟨depth - 1, by simp [Expr.size] at hdepth; omega⟩
    obtain ⟨hop, -, hoperand⟩ := hop
    simp only [Expr.size] at hdepth
    cases a with
    | rep min max =>
      have hrunnable : e.isRunnable (fun t => (scheme.body t).isSome) = true := hrunnable
      refine realizes_rep hr hop hpos
        (ih hrunnable (op + 1) pos hoperand hpos hlead hlater depth (by omega)) ?_
      intro pos' hlt hle
      exact ih hrunnable (op + 1) pos' hoperand hle (fun t _ => hlater t pos' hlt hle)
        (fun t pos'' hlt' hle' => hlater t pos'' (by omega) hle') depth (by omega)
    | and =>
      exact realizes_and hr hop
        (ih hrunnable (op + 1) pos hoperand hpos hlead hlater depth (by omega))
    | not =>
      exact realizes_not hr hop
        (ih hrunnable (op + 1) pos hoperand hpos hlead hlater depth (by omega))
    | _ => simp [Expr.isRunnable] at hrunnable

/-! ## Weights -/

/-- Rule `r` leads to rule `t`: it can enter `t` before it has consumed anything. -/
def LeadsTo (scheme : Scheme) (nullable : Nat → Bool) (r t : Nat) : Prop :=
  ∃ body, scheme.body r = some body ∧ t ∈ body.leads nullable

/-- What makes recursive descent end on a table: no rule leads back to itself. -/
structure Descends (scheme : Scheme) (rules : Array Rule) (nullable : Nat → Bool) : Prop where
  /-- The rules that can be empty are known. -/
  closed : ∀ {r body}, scheme.body r = some body → body.isNullable nullable = true →
    nullable r = true
  runnable : ∀ {r body}, scheme.body r = some body →
    body.isRunnable (fun t => (scheme.body t).isSome) = true
  /-- An expression is no larger than the opcode list of its rule. -/
  size : ∀ {r body}, scheme.body r = some body →
    ∃ rule, rules[r]? = some rule ∧ body.size ≤ rule.opcodes.size
  acyclic : ∀ r, ¬ Relation.TransGen (LeadsTo scheme nullable) r r

/-- The size of a rule's expression. -/
def Scheme.sizeOf (scheme : Scheme) (r : Nat) : Nat :=
  (scheme.body r).elim 0 Expr.size

open Classical in
/-- The sizes of all rules that a rule leads to, directly or through others. -/
noncomputable def weight (scheme : Scheme) (nullable : Nat → Bool) (count r : Nat) : Nat :=
  ∑ t ∈ (Finset.range count).filter (Relation.TransGen (LeadsTo scheme nullable) r),
    scheme.sizeOf t

theorem foldl_add_eq_sum {α : Type} (f : α → Nat) (as : Array α) (init : Nat) :
    as.foldl (fun count a => count + f a) init =
      init + ∑ i ∈ Finset.range as.size, (as[i]?.elim 0 f) := by
  have key : ∀ (l : List α) (init : Nat), l.foldl (fun count a => count + f a) init =
      init + ∑ i ∈ Finset.range l.length, (l[i]?.elim 0 f) := by
    intro l
    induction l with
    | nil => intro init; simp
    | cons a l ih =>
      intro init
      rw [List.foldl_cons, ih, List.length_cons, Finset.sum_range_succ']
      simp only [List.getElem?_cons_succ, List.getElem?_cons_zero, Option.elim_some]
      omega
  rw [← Array.foldl_toList, key]
  simp

theorem opcodeCount_eq_sum (rules : Array Rule) :
    opcodeCount rules = ∑ r ∈ Finset.range rules.size, (rules[r]?.elim 0 (·.opcodes.size)) := by
  rw [opcodeCount, foldl_add_eq_sum fun rule : Rule => rule.opcodes.size, Nat.zero_add]

/-! ## Traces -/

theorem foldl_see_log (recorded observed : List Nat) (events : List Event) (log : Array Event) :
    events.foldl (Watch.log recorded observed).see log =
      log ++ (events.filter fun event => observed.contains event.rule).toArray := by
  induction events generalizing log with
  | nil => simp
  | cons event events ih =>
    rw [List.foldl_cons, ih, List.filter_cons]
    simp only [Watch.see, Watch.log]
    split <;> simp

theorem exists_mapM_fetch {rules : Array Rule} {rs : List Nat} (h : ∀ r ∈ rs, r < rules.size) :
    ∃ fetched, rs.mapM (fetch rules) = .ok fetched := by
  induction rs with
  | nil => exact ⟨[], rfl⟩
  | cons r rs ih =>
    obtain ⟨fetched, hfetched⟩ := ih fun r hr => h r (by simp [hr])
    obtain ⟨rule, hrule⟩ : ∃ rule, rules[r]? = some rule :=
      ⟨_, Array.getElem?_eq_getElem (h r (by simp))⟩
    refine ⟨rule :: fetched, ?_⟩
    simp only [List.mapM_cons, fetch_eq_ok.2 hrule, hfetched, bind, Except.bind]
    rfl

namespace Descends

variable (h : Descends scheme rules nullable)
include h

theorem lt_size {r : Nat} {body : Expr Opcode} (hbody : scheme.body r = some body) :
    r < rules.size := by
  obtain ⟨rule, hr, -⟩ := h.size hbody
  exact (Array.getElem?_eq_some_iff.1 hr).1

/-- A rule weighs no less than a rule that it leads to together with that rule's size. -/
theorem sizeOf_add_weight_le {r t : Nat} (hlead : LeadsTo scheme nullable r t) :
    scheme.sizeOf t + weight scheme nullable rules.size t ≤
      weight scheme nullable rules.size r := by
  classical
  by_cases ht : t < rules.size
  · rw [weight, ← Finset.sum_insert (by simpa using fun _ => h.acyclic t), weight]
    refine Finset.sum_le_sum_of_subset fun u hu => ?_
    rcases Finset.mem_insert.1 hu with rfl | hu
    · exact Finset.mem_filter.2 ⟨Finset.mem_range.2 ht, .single hlead⟩
    · obtain ⟨hu, hreach⟩ := Finset.mem_filter.1 hu
      exact Finset.mem_filter.2 ⟨hu, .head hlead hreach⟩
  · -- A rule outside the table has no expression, so it neither weighs nor leads anywhere.
    have hbody : scheme.body t = none := by
      by_contra hne
      obtain ⟨body, hbody⟩ := Option.ne_none_iff_exists'.1 hne
      exact ht (h.lt_size hbody)
    have hweight : weight scheme nullable rules.size t = 0 := by
      rw [weight, Finset.filter_false_of_mem, Finset.sum_empty]
      intro u _ hreach
      obtain ⟨v, ⟨body, hbody', -⟩, -⟩ := Relation.TransGen.head'_iff.1 hreach
      rw [hbody] at hbody'
      simp at hbody'
    rw [hweight, Scheme.sizeOf, hbody]
    simp

theorem sizeOf_add_weight_le_opcodeCount {r : Nat} (hr : r < rules.size) :
    scheme.sizeOf r + weight scheme nullable rules.size r ≤ opcodeCount rules := by
  classical
  rw [weight, ← Finset.sum_insert (by simpa using fun _ => h.acyclic r), opcodeCount_eq_sum]
  refine (Finset.sum_le_sum_of_subset fun u hu => ?_).trans (Finset.sum_le_sum fun u _ => ?_)
  · rcases Finset.mem_insert.1 hu with rfl | hu
    · exact Finset.mem_range.2 hr
    · exact (Finset.mem_filter.1 hu).1
  · rw [Scheme.sizeOf]
    cases hbody : scheme.body u with
    | none => simp
    | some body =>
      obtain ⟨rule, hrule, hsize⟩ := h.size hbody
      simpa [hrule] using hsize

/-- Every rule can be entered everywhere, within a depth that grows with the bytes to the right
and the weight of the rule. -/
theorem ready (hdepicts : Depicts scheme rules watch) (input : Array UInt8) (r pos : Nat)
    (hpos : pos ≤ input.size) :
    Ready scheme rules watch input ((input.size - pos) * opcodeCount rules +
      (scheme.sizeOf r + weight scheme nullable rules.size r)) r pos := by
  induction hm : (input.size - pos) * opcodeCount rules + weight scheme nullable rules.size r
    using Nat.strong_induction_on generalizing r pos with
  | _ m ih =>
    subst hm
    intro body hbody depth hdepth
    obtain ⟨rule, hr, hstands⟩ := hdepicts.body hbody
    have hsize : scheme.sizeOf r = body.size := by
      rw [Scheme.sizeOf, hbody]
      rfl
    have hpositive : ∀ t, t < rules.size → scheme.body t ≠ none → 0 < scheme.sizeOf t := by
      intro t _ hne
      obtain ⟨body, hbody⟩ := Option.ne_none_iff_exists'.1 hne
      rw [Scheme.sizeOf, hbody]
      exact body.size_pos
    refine realizes_of_ready hdepicts h.closed hr
      ((input.size - pos) * opcodeCount rules + weight scheme nullable rules.size r) body
      (h.runnable hbody) 0 pos hstands hpos ?lead ?later depth (by omega)
    case lead =>
      intro t ht body' hbody' depth' hdepth'
      have hle := h.sizeOf_add_weight_le ⟨body, hbody, ht⟩
      have hpos' := hpositive t (h.lt_size hbody') (by simp [hbody'])
      exact ih _ (by omega) t pos hpos rfl body' hbody' depth' (by omega)
    case later =>
      intro t pos' hlt hle body' hbody' depth' hdepth'
      have hcount := h.sizeOf_add_weight_le_opcodeCount (h.lt_size hbody')
      have hpos' := hpositive t (h.lt_size hbody') (by simp [hbody'])
      -- One byte further right pays for everything that any rule may need there.
      have hmul : (input.size - pos') * opcodeCount rules + opcodeCount rules ≤
          (input.size - pos) * opcodeCount rules := by
        rw [← Nat.succ_mul]
        exact Nat.mul_le_mul_right _ (by omega)
      exact ih _ (by omega) t pos' hle rfl body' hbody' depth' (by omega)

/-- On a table that descends, a match ends and does what the run of the start rule says. -/
theorem run_realizes (hdepicts : Depicts scheme rules watch) {start : Nat} {body : Expr Opcode}
    (hstart : scheme.body start = some body) (input : Array UInt8) (init : σ) :
    ∃ result nodes events,
      Run scheme (.atom (.rnm start)) 0 input.toList result nodes events ∧
      Engine.run rules watch start input init =
        .ok ⟨result, (Node.recordsAll 0 nodes).toArray, events.foldl watch.see init⟩ := by
  obtain ⟨rule, hr, -⟩ := hdepicts.body hstart
  have hcount := h.sizeOf_add_weight_le_opcodeCount (h.lt_size hstart)
  have hbound : input.size * opcodeCount rules + opcodeCount rules ≤ depthBound rules input := by
    rw [depthBound, Nat.mul_comm (opcodeCount rules), Nat.succ_mul]
    omega
  have hready := h.ready hdepicts input start 0 (Nat.zero_le _) body hstart
    (depthBound rules input) (by rw [Nat.sub_zero]; omega)
  obtain ⟨result, nodes, events, hrun, hf⟩ := realizes_enterRule hdepicts.recorded hstart hready
  refine ⟨result, nodes, events, hrun, ?_⟩
  simp only [Engine.run, fetch_eq_ok.2 hr, bind, Except.bind, hf]
  simp [State.after, pure, Except.pure]

/-- On a table that descends, a trace ends, and lists the events of the run that are asked for. -/
theorem trace_realizes {recorded observed : List Nat}
    (hdepicts : Depicts scheme rules (Watch.log recorded observed)) {start : Nat}
    {body : Expr Opcode} (hstart : scheme.body start = some body) (input : Array UInt8)
    (hrecorded : ∀ r ∈ recorded, r < rules.size) (hobserved : ∀ r ∈ observed, r < rules.size) :
    ∃ result nodes events,
      Run scheme (.atom (.rnm start)) 0 input.toList result nodes events ∧
      Engine.trace rules recorded observed start input =
        .ok ⟨result, (Node.recordsAll 0 nodes).toArray,
          (events.filter fun event => observed.contains event.rule).toArray⟩ := by
  obtain ⟨result, nodes, events, hrun, heq⟩ := h.run_realizes hdepicts hstart input #[]
  refine ⟨result, nodes, events, hrun, ?_⟩
  obtain ⟨rs, hrs⟩ := exists_mapM_fetch hrecorded
  obtain ⟨os, hos⟩ := exists_mapM_fetch hobserved
  simp only [Engine.trace, hrs, hos, bind, Except.bind, heq, foldl_see_log, Array.empty_append]

end Descends

end Engine

end Abnf
