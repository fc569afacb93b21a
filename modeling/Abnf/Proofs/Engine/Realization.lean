import Mathlib.Data.List.Forall2
import Abnf.Proofs.Engine.Run
import Abnf.Proofs.Forest
import Abnf.Proofs.Layout

/-!
# The engine realizes runs

The engine threads records and an observer through a match and works on flat tables; a run has
trees and events. An evaluation realizes an expression when it ends in every state, has the result
of the expression's run, appends the records of its trees and shows the observer its events. Each
operator of the engine realizes the operator of the expression if its operands are realized.
-/

namespace Abnf.Engine

variable {σ : Type}

/-! ## States after a run -/

/-- What an observer makes of one event. -/
def Watch.see (watch : Watch σ) (observed : σ) (event : Event) : σ :=
  watch.observe event.rule event.phase event.offset event.length observed

/-- The state after a run that has left `nodes` and passed `events`. -/
def State.after (watch : Watch σ) (state : State σ) (nodes : List Node) (events : List Event) :
    State σ :=
  ⟨state.records ++ (Node.recordsAll state.records.size nodes).toArray,
    events.foldl watch.see state.observed⟩

namespace State

variable (watch : Watch σ) (state : State σ)

@[simp] theorem after_nil : state.after watch [] [] = state := by
  simp [after, Node.recordsAll]

theorem after_after (nodes nodes' : List Node) (events events' : List Event) :
    (state.after watch nodes events).after watch nodes' events' =
      state.after watch (nodes ++ nodes') (events ++ events') := by
  simp [after, Node.recordsAll_append, List.foldl_append]

/-- Cutting the records back leaves only what the observer has seen. -/
theorem cutTo_after (nodes : List Node) (events : List Event) :
    (state.after watch nodes events).cutTo state.records.size = state.after watch [] events := by
  have htake : (state.records ++ (Node.recordsAll state.records.size nodes).toArray).take
      state.records.size = state.records := by
    apply Array.toList_inj.1
    simp
  simp only [after, cutTo, Records.cutTo, htake, Node.recordsAll]
  simp

end State

/-! ## Realizing an expression -/

/-- An evaluation `f` at `pos` realizes `e`: it ends in every state, as the run of `e` says. -/
def Realizes (scheme : Scheme) (watch : Watch σ) (input : Array UInt8)
    (f : State σ → Except Fault (Outcome σ)) (e : Expr Opcode) (pos : Nat) : Prop :=
  ∃ result nodes events, Run scheme e pos (input.toList.drop pos) result nodes events ∧
    ∀ state, f state = .ok (result, state.after watch nodes events)

/-- A scheme depicts a table under a watch when it has the expressions of the rules and records
what the watch records. -/
structure Depicts (scheme : Scheme) (rules : Array Rule) (watch : Watch σ) : Prop where
  recorded : scheme.recorded = watch.recorded
  body : ∀ {r e}, scheme.body r = some e →
    ∃ rule, rules[r]? = some rule ∧ Expr.Stands rule.opcodes 0 e

variable {scheme : Scheme} {rules : Array Rule} {watch : Watch σ} {input : Array UInt8}

/-! ### Choice -/

theorem realizes_firstMatch_cons {f : Nat → State σ → Except Fault (Outcome σ)} {c : Nat}
    {cs : List Nat} {e : Expr Opcode} {es : List (Expr Opcode)} {pos : Nat}
    (h : Realizes scheme watch input (f c) e pos)
    (htail : ∀ events, Run scheme e pos (input.toList.drop pos) none [] events →
      Realizes scheme watch input (firstMatch f cs) (.alt es) pos) :
    Realizes scheme watch input (firstMatch f (c :: cs)) (.alt (e :: es)) pos := by
  obtain ⟨result, nodes, events, hrun, hf⟩ := h
  cases result with
  | some length =>
    refine ⟨some length, nodes, events, .altHit hrun, fun state => ?_⟩
    rw [firstMatch, hf]
    rfl
  | none =>
    cases hrun.nodes_eq_nil
    obtain ⟨result, nodes', events', hrun', hf'⟩ := htail events hrun
    refine ⟨result, nodes', events ++ events', .altMiss hrun hrun', fun state => ?_⟩
    rw [firstMatch, hf]
    change firstMatch _ _ (state.after watch [] events) = _
    rw [hf', State.after_after, List.nil_append]

theorem realizes_firstMatch_nil (f : Nat → State σ → Except Fault (Outcome σ)) (pos : Nat) :
    Realizes scheme watch input (firstMatch f []) (.alt []) pos := by
  refine ⟨none, [], [], .altNil, fun state => ?_⟩
  rw [firstMatch, State.after_nil]

theorem realizes_firstMatch {f : Nat → State σ → Except Fault (Outcome σ)} {cs : List Nat}
    {es : List (Expr Opcode)} {pos : Nat}
    (h : List.Forall₂ (fun c e => Realizes scheme watch input (f c) e pos) cs es) :
    Realizes scheme watch input (firstMatch f cs) (.alt es) pos := by
  induction h with
  | nil => exact realizes_firstMatch_nil f pos
  | cons hhead _ ih => exact realizes_firstMatch_cons hhead fun _ _ => ih

/-! ### Sequence -/

/-- A sequence of evaluations realizes a sequence of expressions when `length` bytes from `pos`
have been matched already. On failure the engine has not cut its records back yet. -/
def RealizesSequence (scheme : Scheme) (watch : Watch σ) (input : Array UInt8)
    (f : Nat → Nat → State σ → Except Fault (Outcome σ)) (cs : List Nat)
    (es : List (Expr Opcode)) (pos length : Nat) : Prop :=
  ∃ result nodes events, Run scheme (.cat es) (pos + length) (input.toList.drop (pos + length))
      result nodes events ∧
    ∃ nodes', (result.isSome = true → nodes' = nodes) ∧ ∀ state, inSequence f pos cs length state =
      .ok (result.map (length + ·), state.after watch nodes' events)

theorem realizesSequence_nil (f : Nat → Nat → State σ → Except Fault (Outcome σ))
    (pos length : Nat) : RealizesSequence scheme watch input f [] [] pos length := by
  refine ⟨some 0, [], [], .catNil, [], fun _ => rfl, fun state => ?_⟩
  rw [inSequence, State.after_nil]
  rfl

theorem realizesSequence_cons {f : Nat → Nat → State σ → Except Fault (Outcome σ)} {c : Nat}
    {cs : List Nat} {e : Expr Opcode} {es : List (Expr Opcode)} {pos length : Nat}
    (h : Realizes scheme watch input (f c (pos + length)) e (pos + length))
    (htail : ∀ more nodes events, Run scheme e (pos + length) (input.toList.drop (pos + length))
      (some more) nodes events → RealizesSequence scheme watch input f cs es pos (length + more)) :
    RealizesSequence scheme watch input f (c :: cs) (e :: es) pos length := by
  obtain ⟨result, nodes, events, hrun, hf⟩ := h
  cases result with
  | none =>
    cases hrun.nodes_eq_nil
    refine ⟨none, [], events, .catMiss hrun, [], fun _ => rfl, fun state => ?_⟩
    rw [inSequence, hf]
    rfl
  | some more =>
    obtain ⟨result, nodes', events', hrun', nodes'', hnodes, hf'⟩ := htail more _ _ hrun
    rw [← Nat.add_assoc, ← List.drop_drop] at hrun'
    refine ⟨_, _, _, .catNext hrun hrun', nodes ++ nodes'', fun hsome => ?_, fun state => ?_⟩
    · rw [Option.isSome_map] at hsome
      rw [if_pos hsome, hnodes hsome]
    · rw [inSequence, hf]
      change inSequence _ _ _ _ (state.after watch nodes events) = _
      rw [hf', State.after_after]
      cases result <;> simp [Nat.add_assoc]

/-! ### Repetition -/

theorem toNat_fewer (n : UInt32) : (fewer n).toNat = n.toNat - 1 := by
  unfold fewer
  split
  · simp [*]
  · rename_i h
    have hpos : 1 ≤ n.toNat := by
      have : n.toNat ≠ 0 := fun h0 => h (UInt32.toNat_inj.1 (by simpa using h0))
      omega
    exact UInt32.toNat_sub_of_le _ _ hpos

/-- How many iterations are left of at most `max` when `count` of them are done. -/
def Left (max : Option UInt32) (count : Nat) (left : Option UInt32) : Prop :=
  left.map UInt32.toNat = max.map fun max => max.toNat - count

theorem Left.zero (max : Option UInt32) : Left max 0 max := by
  simp [Left]

theorem Left.succ {max left : Option UInt32} {count : Nat} (h : Left max count left) :
    Left max (count + 1) (left.map fewer) := by
  cases max <;> cases left <;> simp_all [Left, toNat_fewer, Nat.sub_sub]

theorem Left.eq_zero_iff {max left : Option UInt32} {count : Nat} (h : Left max count left) :
    left = some 0 ↔ (max.all fun max => decide (count < max.toNat)) = false := by
  cases max with
  | none => cases left <;> simp_all [Left]
  | some max =>
    cases left with
    | none => simp [Left] at h
    | some left =>
      simp only [Left, Option.map_some, Option.some.injEq] at h
      simp only [Option.some.injEq, Option.all_some, decide_eq_false_iff_not]
      rw [← UInt32.toNat_inj, h, UInt32.toNat_zero]
      omega

/-- The loop realizes what is left of a repetition when `count` iterations have matched `length`
bytes. -/
def RealizesLoop (scheme : Scheme) (watch : Watch σ) (input : Array UInt8)
    (f : Nat → State σ → Except Fault (Outcome σ)) (min : UInt32) (max : Option UInt32)
    (e : Expr Opcode) (pos budget count length : Nat) : Prop :=
  ∀ least left, least.toNat = min.toNat - count → Left max count left →
    ∃ result nodes events, Run scheme (.under (.rep least left) e) (pos + length)
        (input.toList.drop (pos + length)) result nodes events ∧
      ∃ count' length' nodes', (result.isSome = true → nodes' = nodes) ∧
        (result.map (length + ·) = if min.toNat ≤ count' then some length' else none) ∧
        ∀ state, repeated f max pos budget count length state =
          .ok (count', length', state.after watch nodes' events)

/-- Counting what is left of the iterations required decides as counting all that are done. -/
theorem map_enough {min least : UInt32} {count : Nat} (h : least.toNat = min.toNat - count)
    (more length : Nat) :
    (enough least more).map (length + ·) =
      if min.toNat ≤ count + more then some length else none := by
  by_cases hmin : min.toNat ≤ count + more
  · rw [enough, if_pos (by omega), if_pos hmin]
    rfl
  · rw [enough, if_neg (by omega), if_neg hmin]
    rfl

/-- One more round of the loop; it is entered if there are iterations left. -/
theorem realizesLoop_succ {f : Nat → State σ → Except Fault (Outcome σ)} {min : UInt32}
    {max : Option UInt32} {e : Expr Opcode} {pos : Nat} {budget count length : Nat}
    (h : (max.all fun max => decide (count < max.toNat)) = true →
      Realizes scheme watch input (f (pos + length)) e (pos + length))
    (htail : (max.all fun max => decide (count < max.toNat)) = true → ∀ more nodes events,
      Run scheme e (pos + length) (input.toList.drop (pos + length)) (some (more + 1)) nodes
        events →
      RealizesLoop scheme watch input f min max e pos budget (count + 1) (length + (more + 1))) :
    RealizesLoop scheme watch input f min max e pos (budget + 1) count length := by
  intro least left hleast hleft
  by_cases hdone : left = some 0
  · have hmax := hleft.eq_zero_iff.1 hdone
    subst hdone
    refine ⟨_, _, _, .repDone, count, length, [], fun _ => rfl, map_enough hleast 0 length,
      fun state => ?_⟩
    rw [repeated, hmax, State.after_nil]
    rfl
  · have hmax : (max.all fun max => decide (count < max.toNat)) = true := by
      rw [← Bool.not_eq_false, ← hleft.eq_zero_iff]
      exact hdone
    obtain ⟨result, nodes, events, hrun, hf⟩ := h hmax
    rcases result with _ | _ | more
    · cases hrun.nodes_eq_nil
      refine ⟨_, _, _, .repMiss hdone hrun, count, length, [], fun _ => rfl,
        map_enough hleast 0 length, fun state => ?_⟩
      rw [repeated, hmax, hf]
      rfl
    · -- The iteration consumed nothing, so the loop stops: the next one would find the same place.
      refine ⟨_, _, _, .repEmpty hdone hrun, count + 1, length, nodes, ?_,
        map_enough hleast 1 length, fun state => ?_⟩
      · intro hsome
        obtain ⟨length', hlength⟩ := Option.isSome_iff_exists.1 hsome
        rw [if_pos (enough_eq_some hlength).1]
      · rw [repeated, hmax, hf]
        rfl
    · obtain ⟨result, nodes', events', hrun', count', length', nodes'', hnodes, hresult, hf'⟩ :=
        htail hmax more nodes events hrun (fewer least) (left.map fewer)
          (by rw [toNat_fewer, hleast]; omega) hleft.succ
      rw [← Nat.add_assoc pos, ← List.drop_drop] at hrun'
      refine ⟨_, _, _, .repNext hdone hrun hrun', count', length', nodes ++ nodes'', ?_, ?_,
        fun state => ?_⟩
      · intro hsome
        rw [Option.isSome_map] at hsome
        rw [if_pos hsome, hnodes hsome]
      · rw [← hresult, Option.map_map]
        congr 1
        funext n
        simp only [Function.comp_apply]
        omega
      · rw [repeated, hmax, hf]
        change repeated _ _ _ _ _ _ (state.after watch nodes events) = _
        rw [hf', State.after_after]

theorem realizesLoop {f : Nat → State σ → Except Fault (Outcome σ)} {min : UInt32}
    {max : Option UInt32} {e : Expr Opcode} {pos : Nat} (budget count length : Nat)
    (h : Realizes scheme watch input (f (pos + length)) e (pos + length))
    (hlater : ∀ pos', pos + length < pos' → pos' ≤ input.size →
      Realizes scheme watch input (f pos') e pos')
    (hpos : pos + length ≤ input.size) (hbudget : input.size - (pos + length) < budget) :
    RealizesLoop scheme watch input f min max e pos budget count length := by
  induction budget generalizing count length with
  | zero => omega
  | succ budget ih =>
    refine realizesLoop_succ (fun _ => h) fun _ more nodes events hrun => ?_
    -- A phrase was consumed, so the rest of the loop runs further right and on less budget.
    have hle := hrun.le_size hpos
    exact ih (count + 1) (length + (more + 1)) (hlater _ (by omega) (by omega))
      (fun pos' hlt hle => hlater pos' (by omega) hle) (by omega) (by omega)

/-! ### Rules -/

/-- Completing a node that was begun at the end of some records adds its tree's records. -/
theorem closeNode_openNode (records : Records) (rule pos length : Nat) (nodes : List Node) :
    Records.closeNode (records.openNode rule pos ++
        (Node.recordsAll (records.size + 1) nodes).toArray) records.size length =
      .ok (records ++ (Node.recordsAll records.size [.mk rule pos length nodes]).toArray) := by
  rw [Records.closeNode_append, Records.node]
  simp [Node.recordsAll, Node.records]

theorem cutTo_self_append (records records' : Records) :
    Records.cutTo (records ++ records') records.size = records := by
  apply Array.toList_inj.1
  simp [Records.cutTo]

theorem realizes_enterRule (hrecorded : scheme.recorded = watch.recorded) {rule pos : Nat}
    {body : Expr Opcode} (hbody : scheme.body rule = some body)
    {f : State σ → Except Fault (Outcome σ)} (h : Realizes scheme watch input f body pos) :
    Realizes scheme watch input (enterRule watch rule pos f) (.atom (.rnm rule)) pos := by
  obtain ⟨result, nodes, events, hrun, hf⟩ := h
  refine ⟨_, _, _, .rule hbody hrun, fun state => ?_⟩
  -- A recorded rule opens a node in front of those of its body, and closes or drops it at the end.
  by_cases hr : watch.recorded rule = true
  · cases result with
    | some length =>
      have hclose := closeNode_openNode state.records rule pos length nodes
      have hsize : Array.size (state.records.openNode rule pos) = state.records.size + 1 := by
        simp [Records.openNode]
      simp only [enterRule, hr, if_true, hf]
      simp only [State.after, Scheme.wrap, hrecorded, hr, if_true, bracket]
      change (do
        let records ← Records.closeNode _ _ _
        pure _) = _
      rw [hsize, hclose]
      simp [Watch.see, bind, Except.bind, pure, Except.pure]
    | none =>
      cases hrun.nodes_eq_nil
      have hcut : Records.cutTo (state.records.openNode rule pos ++ #[]) state.records.size
          = state.records := by
        rw [Array.append_empty, Records.openNode, ← Array.append_singleton, cutTo_self_append]
      simp only [enterRule, hr, if_true, hf]
      simp only [State.after, Scheme.wrap, bracket, Node.recordsAll]
      change Except.ok _ = _
      rw [hcut]
      simp [Watch.see]
  · cases result with
    | some length =>
      simp only [enterRule, hr, hf]
      simp only [State.after, Scheme.wrap, hrecorded, hr, bracket]
      change Except.ok _ = _
      simp [Watch.see]
    | none =>
      simp only [enterRule, hr, hf]
      simp only [State.after, Scheme.wrap, bracket]
      change Except.ok _ = _
      simp [Watch.see, cutTo_self_append, Node.recordsAll]

/-! ### Leaves -/

theorem startsWith_eq (fold : UInt8 → UInt8) (chars : List UInt32) (pos : Nat) :
    startsWith fold input pos chars = beginsWith fold chars (input.toList.drop pos) := by
  induction chars generalizing pos with
  | nil => rfl
  | cons char chars ih =>
    by_cases hpos : pos < input.size
    · rw [startsWith, Array.getElem?_eq_getElem hpos, List.drop_eq_getElem_cons (by simpa),
        beginsWith, ih]
      simp
    · rw [startsWith, Array.getElem?_eq_none (by omega), List.drop_eq_nil_of_le (by simpa using hpos)]
      rfl

theorem literal_eq {fold : UInt8 → UInt8} {chars : List UInt32} {pos : Nat}
    (hpos : pos ≤ input.size) :
    literal fold input pos chars = literalResult fold chars (input.toList.drop pos) := by
  rw [literal, literalResult, startsWith_eq]
  simp [hpos]

theorem inRange_eq (min max : UInt32) (pos : Nat) :
    inRange input pos min max = rangeResult min max (input.toList.drop pos) := by
  by_cases hpos : pos < input.size
  · rw [inRange, Array.getElem?_eq_getElem hpos, List.drop_eq_getElem_cons (by simpa)]
    simp [rangeResult]
  · rw [inRange, Array.getElem?_eq_none (by omega),
      List.drop_eq_nil_of_le (by simpa using hpos)]
    rfl

/-! ### Opcodes -/

section Opcodes

variable {rule : Rule} {r op pos depth : Nat} {e : Expr Opcode} {es : List (Expr Opcode)}

theorem realizes_leaf {o : Opcode} (hr : rules[r]? = some rule)
    (hop : rule.opcodes[op]? = some o) (hpos : pos ≤ input.size)
    (hleaf : (leafResult? o pos (input.toList.drop pos)).isSome = true) :
    Realizes scheme watch input (evaluate rules watch input (depth + 1) r op pos) (.atom o) pos := by
  obtain ⟨result, hresult⟩ := Option.isSome_iff_exists.1 hleaf
  refine ⟨result, [], [], .leaf hresult, fun state => ?_⟩
  rw [State.after_nil]
  cases o <;> simp only [leafResult?, Option.some.injEq, reduceCtorEq] at hresult <;> subst hresult
  case abg => simp only [evaluate, fetch_eq_ok.2 hr, fetch_eq_ok.2 hop, bind, Except.bind]
  case aen =>
    have hend : (input.toList.drop pos).isEmpty = true ↔ pos = input.size := by
      simp only [List.isEmpty_iff, List.drop_eq_nil_iff, Array.length_toList]
      omega
    simp only [evaluate, fetch_eq_ok.2 hr, fetch_eq_ok.2 hop, bind, Except.bind, hend]
  case tls =>
    simp only [evaluate, fetch_eq_ok.2 hr, fetch_eq_ok.2 hop, bind, Except.bind, literal_eq hpos]
  case tbs =>
    simp only [evaluate, fetch_eq_ok.2 hr, fetch_eq_ok.2 hop, bind, Except.bind, literal_eq hpos]
  case trg =>
    simp only [evaluate, fetch_eq_ok.2 hr, fetch_eq_ok.2 hop, bind, Except.bind, inRange_eq]

theorem realizes_ref (hdepicts : Depicts scheme rules watch) {target : Nat} {body : Expr Opcode}
    (hr : rules[r]? = some rule) (hop : rule.opcodes[op]? = some (.rnm target))
    (hbody : scheme.body target = some body)
    (h : Realizes scheme watch input (evaluate rules watch input depth target 0 pos) body pos) :
    Realizes scheme watch input (evaluate rules watch input (depth + 1) r op pos)
      (.atom (.rnm target)) pos := by
  obtain ⟨rule', htarget, -⟩ := hdepicts.body hbody
  obtain ⟨result, nodes, events, hrun, hf⟩ := realizes_enterRule hdepicts.recorded hbody h
  refine ⟨result, nodes, events, hrun, fun state => ?_⟩
  rw [← hf]
  simp only [evaluate, fetch_eq_ok.2 hr, fetch_eq_ok.2 hop, fetch_eq_ok.2 htarget, bind,
    Except.bind]

theorem realizes_choice (hr : rules[r]? = some rule) {cs : List Nat}
    (hop : rule.opcodes[op]? = some (.alt cs))
    (h : Realizes scheme watch input
      (firstMatch (fun c => evaluate rules watch input depth r c pos) cs) (.alt es) pos) :
    Realizes scheme watch input (evaluate rules watch input (depth + 1) r op pos) (.alt es) pos := by
  obtain ⟨result, nodes, events, hrun, hf⟩ := h
  refine ⟨result, nodes, events, hrun, fun state => ?_⟩
  rw [← hf]
  simp only [evaluate, fetch_eq_ok.2 hr, fetch_eq_ok.2 hop, bind, Except.bind]

theorem realizes_alt (hr : rules[r]? = some rule) (hop : Expr.Stands rule.opcodes op (.alt es))
    (h : ∀ e ∈ es, ∀ c, Expr.Stands rule.opcodes c e →
      Realizes scheme watch input (evaluate rules watch input depth r c pos) e pos) :
    Realizes scheme watch input (evaluate rules watch input (depth + 1) r op pos) (.alt es) pos := by
  obtain ⟨cs, hop, hall⟩ := hop
  exact realizes_choice hr hop (realizes_firstMatch (hall.forall₂ h))

theorem realizes_cat (hr : rules[r]? = some rule) {cs : List Nat}
    (hop : rule.opcodes[op]? = some (.cat cs))
    (h : RealizesSequence scheme watch input (evaluate rules watch input depth r) cs es pos 0) :
    Realizes scheme watch input (evaluate rules watch input (depth + 1) r op pos) (.cat es) pos := by
  obtain ⟨result, nodes, events, hrun, nodes', hnodes, hf⟩ := h
  refine ⟨result, nodes, events, hrun, fun state => ?_⟩
  simp only [evaluate, fetch_eq_ok.2 hr, fetch_eq_ok.2 hop, bind, Except.bind, hf]
  cases result with
  | some length =>
    rw [hnodes rfl]
    simp
  | none =>
    cases hrun.nodes_eq_nil
    simp [State.cutTo_after]

theorem realizes_repetition (hr : rules[r]? = some rule) {min : UInt32} {max : Option UInt32}
    (hop : rule.opcodes[op]? = some (.rep min max))
    (h : RealizesLoop scheme watch input (evaluate rules watch input depth r (op + 1)) min max e pos
      (input.size - pos + 1) 0 0) :
    Realizes scheme watch input (evaluate rules watch input (depth + 1) r op pos)
      (.under (.rep min max) e) pos := by
  obtain ⟨result, nodes, events, hrun, count, length, nodes', hnodes, hresult, hf⟩ :=
    h min max rfl (.zero max)
  refine ⟨result, nodes, events, hrun, fun state => ?_⟩
  simp only [evaluate, fetch_eq_ok.2 hr, fetch_eq_ok.2 hop, bind, Except.bind, hf]
  have hresult : result = if min.toNat ≤ count then some length else none := by
    rw [← hresult]
    simp
  split
  · rename_i hmin
    rw [if_pos hmin] at hresult
    subst hresult
    rw [hnodes rfl]
  · rename_i hmin
    rw [if_neg hmin] at hresult
    subst hresult
    cases hrun.nodes_eq_nil
    rw [State.cutTo_after]

theorem realizes_rep (hr : rules[r]? = some rule) {min : UInt32} {max : Option UInt32}
    (hop : rule.opcodes[op]? = some (.rep min max)) (hpos : pos ≤ input.size)
    (h : Realizes scheme watch input (evaluate rules watch input depth r (op + 1) pos) e pos)
    (hlater : ∀ pos', pos < pos' → pos' ≤ input.size →
      Realizes scheme watch input (evaluate rules watch input depth r (op + 1) pos') e pos') :
    Realizes scheme watch input (evaluate rules watch input (depth + 1) r op pos)
      (.under (.rep min max) e) pos :=
  realizes_repetition hr hop
    (realizesLoop (input.size - pos + 1) 0 0 h hlater hpos (by omega))

theorem realizes_and (hr : rules[r]? = some rule) (hop : rule.opcodes[op]? = some .and)
    (h : Realizes scheme watch input (evaluate rules watch input depth r (op + 1) pos) e pos) :
    Realizes scheme watch input (evaluate rules watch input (depth + 1) r op pos)
      (.under .and e) pos := by
  obtain ⟨result, nodes, events, hrun, hf⟩ := h
  refine ⟨_, _, _, .and hrun, fun state => ?_⟩
  simp only [evaluate, fetch_eq_ok.2 hr, fetch_eq_ok.2 hop, bind, Except.bind, hf,
    State.cutTo_after]

theorem realizes_not (hr : rules[r]? = some rule) (hop : rule.opcodes[op]? = some .not)
    (h : Realizes scheme watch input (evaluate rules watch input depth r (op + 1) pos) e pos) :
    Realizes scheme watch input (evaluate rules watch input (depth + 1) r op pos)
      (.under .not e) pos := by
  obtain ⟨result, nodes, events, hrun, hf⟩ := h
  refine ⟨_, _, _, .not hrun, fun state => ?_⟩
  simp only [evaluate, fetch_eq_ok.2 hr, fetch_eq_ok.2 hop, bind, Except.bind, hf,
    State.cutTo_after]

end Opcodes

end Abnf.Engine
