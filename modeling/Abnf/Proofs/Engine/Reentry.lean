import Abnf.Proofs.Engine.Locality

/-!
# Rules are not entered again

Where no rule leads back to itself, no rule is entered at a position while the same rule is still
being tried at the same position.

* `Run.neverReenters`: the events of a run never enter a rule again.
* `Descends.trace_neverReenters`: nor does what the engine lists of them.
-/

namespace Abnf.Engine

/-- Whether in a list of events no rule begins at an offset where it has begun and not ended;
`opened` are the rules that have begun before, innermost first, with their offsets. -/
def neverReenters (opened : List (Nat × Nat)) : List Event → Bool
  | [] => true
  | event :: events =>
    match event.phase with
    | .active =>
      !opened.contains (event.rule, event.offset) &&
        neverReenters ((event.rule, event.offset) :: opened) events
    | _ => neverReenters opened.tail events

variable {scheme : Scheme} {nullable : Nat → Bool} {opened : List (Nat × Nat)} {pos : Nat}
  {leads leads' : List Nat}

/-- Whatever is open at `pos` is not reached from `leads` without consuming anything. -/
def Clear (scheme : Scheme) (nullable : Nat → Bool) (opened : List (Nat × Nat)) (pos : Nat)
    (leads : List Nat) : Prop :=
  ∀ call ∈ opened, call.2 ≤ pos ∧ (call.2 = pos → ∀ t ∈ leads,
    ¬ Relation.ReflTransGen (LeadsTo scheme nullable) t call.1)

theorem Clear.mono (h : Clear scheme nullable opened pos leads) (hsub : leads' ⊆ leads) :
    Clear scheme nullable opened pos leads' :=
  fun call hcall => ⟨(h call hcall).1, fun heq t ht => (h call hcall).2 heq t (hsub ht)⟩

/-- Behind what has been consumed nothing is open. -/
theorem Clear.advance (h : Clear scheme nullable opened pos leads) {n : Nat} (hn : 0 < n)
    (leads' : List Nat) : Clear scheme nullable opened (pos + n) leads' := by
  intro call hcall
  have hle := (h call hcall).1
  exact ⟨by omega, fun heq => by omega⟩

/-- A rule that does not lead back to itself can be opened. -/
theorem Clear.enter {rule : Nat} {body : Expr Opcode} (hbody : scheme.body rule = some body)
    (hacyclic : ¬ Relation.TransGen (LeadsTo scheme nullable) rule rule)
    (h : Clear scheme nullable opened pos [rule]) :
    (rule, pos) ∉ opened ∧
      Clear scheme nullable ((rule, pos) :: opened) pos (body.leads nullable) := by
  refine ⟨fun hmem => (h _ hmem).2 rfl rule (by simp) .refl, ?_⟩
  refine List.forall_mem_cons.2 ⟨⟨Nat.le_refl _, fun _ t ht hreach => ?_⟩, fun call hcall => ?_⟩
  · exact hacyclic (.head' ⟨body, hbody, ht⟩ hreach)
  · refine ⟨(h call hcall).1, fun heq t ht hreach => ?_⟩
    exact (h call hcall).2 heq rule (by simp) (.head ⟨body, hbody, ht⟩ hreach)

theorem neverReenters_end {event : Event} (hphase : event.phase ≠ .active) (call : Nat × Nat)
    (events : List Event) :
    neverReenters (call :: opened) (event :: events) = neverReenters opened events := by
  rw [neverReenters]
  split
  · exact absurd ‹_› hphase
  · rfl

theorem ofResult_ne_active (result : Option Nat) : Phase.ofResult result ≠ .active := by
  cases result with
  | none => simp [Phase.ofResult]
  | some n => cases n <;> simp [Phase.ofResult]

/-- The events of a run never enter a rule that is open at the same position. -/
theorem Run.neverReenters (hclosed : ∀ {r body}, scheme.body r = some body →
      body.isNullable nullable = true → nullable r = true)
    (hacyclic : ∀ r, ¬ Relation.TransGen (LeadsTo scheme nullable) r r) {e : Expr Opcode}
    {rest : List UInt8} {result : Option Nat} {nodes : List Node} {events : List Event}
    (h : Run scheme e pos rest result nodes events)
    (hclear : Clear scheme nullable opened pos (e.leads nullable)) (tail : List Event) :
    Engine.neverReenters opened (events ++ tail) = Engine.neverReenters opened tail := by
  induction h generalizing opened tail with
  | leaf | altNil | catNil | repDone => rfl
  | @rule rule body pos rest result nodes events hbody h ih =>
    obtain ⟨hnot, hclear⟩ := hclear.enter hbody (hacyclic rule)
    simp only [bracket, List.cons_append, List.append_assoc, List.nil_append, Engine.neverReenters,
      List.contains_eq_mem, hnot, decide_false, Bool.not_false, Bool.true_and]
    rw [ih hclear, neverReenters_end (ofResult_ne_active result)]
  | altHit _ ih =>
    exact ih (hclear.mono (by simp [Expr.leads, Expr.leadsOfAny])) tail
  | altMiss _ _ ih₁ ih₂ =>
    rw [List.append_assoc, ih₁ (hclear.mono (by simp [Expr.leads, Expr.leadsOfAny])),
      ih₂ (hclear.mono (by simp [Expr.leads, Expr.leadsOfAny]))]
  | catMiss _ ih =>
    exact ih (hclear.mono (by simp [Expr.leads, Expr.leadsInTurn])) tail
  | @catNext e es pos rest length nodes events _ _ _ h _ ih₁ ih₂ =>
    rw [List.append_assoc, ih₁ (hclear.mono (by simp [Expr.leads, Expr.leadsInTurn]))]
    refine ih₂ ?_ tail
    -- What follows an empty phrase begins at the same position, so it is among the leads.
    cases length with
    | zero => exact hclear.mono (by simp [Expr.leads, Expr.leadsInTurn, h.isNullable hclosed])
    | succ length => exact hclear.advance (Nat.succ_pos _) _
  | repMiss _ _ ih | repEmpty _ _ ih | and _ ih | not _ ih => exact ih hclear tail
  | repNext _ _ _ ih₁ ih₂ =>
    rw [List.append_assoc, ih₁ hclear, ih₂ (hclear.advance (Nat.succ_pos _) _)]

variable {rules : Array Rule} {start : Nat}

/-- On a table that descends, the engine lists no rule that begins where it has begun and not
ended. -/
theorem Descends.trace_neverReenters (h : Descends scheme rules nullable)
    (hdepicts : Depicts scheme rules (Watch.log [] (List.range rules.size))) {body : Expr Opcode}
    (hstart : scheme.body start = some body) (input : Array UInt8) :
    ∃ found, Engine.trace rules [] (List.range rules.size) start input = .ok found ∧
      neverReenters [] found.observed.toList = true := by
  obtain ⟨result, nodes, events, hrun, htrace⟩ :=
    h.trace_realizes hdepicts hstart input (by simp) (by simp)
  refine ⟨_, htrace, ?_⟩
  let known : Nat → Bool := fun t => (scheme.body t).isSome
  have hall : ∀ event ∈ events, (List.range rules.size).contains event.rule = true := by
    intro event hevent
    have hknown : known event.rule = true :=
      hrun.within (fun _ hbody => h.runnable hbody) (by simp [Expr.isRunnable, hstart])
        event hevent
    obtain ⟨body, hbody⟩ := Option.isSome_iff_exists.1 hknown
    simpa using h.lt_size hbody
  rw [List.filter_eq_self.2 hall]
  have hclear : Clear scheme nullable [] 0 ((Expr.atom (.rnm start)).leads nullable) := by
    simp [Clear]
  simpa [Engine.neverReenters] using hrun.neverReenters h.closed h.acyclic hclear []

end Abnf.Engine
