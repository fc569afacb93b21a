import Abnf.Proofs.Engine.Realization

/-!
# Evaluations of tables

What an evaluation that ends has done, said without depth and without faults. It holds of every
table, whatever the shape of its rules: the engine is busy with an opcode, with a rule, or with what
is left of an operator, and each of these comes down to smaller ones. What is to be shown of every
evaluation is shown once for each way in which one of them can go.

* `evaluates_of_evaluate`: an opcode whose evaluation ends is evaluated.
* `evaluates_of_enterRule`: a rule whose evaluation ends is evaluated.
-/

namespace Abnf

namespace Engine

variable {σ : Type}

/-! ## Tasks -/

/-- What the engine is busy with: an opcode, a rule, or what is left of an operator. -/
inductive Task where
  | opcode (rule op : Nat)
  | rule (rule : Nat)
  /-- The alternatives that have not been tried. -/
  | choice (rule : Nat) (children : List Nat)
  /-- The operands that have not been matched. -/
  | sequence (rule : Nat) (children : List Nat)
  /-- The iterations of opcode `op` that are left when `count` of them have matched. -/
  | iterations (rule op : Nat) (min : UInt32) (max : Option UInt32) (count : Nat)

/-- The result of an opcode that stands for itself; nothing if it refers to others or has no
meaning for the engine. -/
def terminalResult? (input : Array UInt8) (pos : Nat) : Opcode → Option (Option Nat)
  | .abg => some (if pos = 0 then some 0 else none)
  | .aen => some (if pos = input.size then some 0 else none)
  | .tbs chars => some (literal id input pos chars)
  | .tls chars => some (literal lowerByte input pos chars)
  | .trg min max => some (inRange input pos min max)
  | _ => none

/-! ### Terminals -/

/-- The `n` bytes of the input from a position on. -/
def phraseAt (input : Array UInt8) (pos n : Nat) : List UInt8 :=
  (input.toList.drop pos).take n

theorem phraseAt_add (input : Array UInt8) (pos n m : Nat) :
    phraseAt input pos (n + m) = phraseAt input pos n ++ phraseAt input (pos + n) m := by
  rw [phraseAt, List.take_add, List.drop_drop]
  rfl

theorem length_phraseAt {input : Array UInt8} {pos n : Nat} (h : n ≤ input.size - pos) :
    (phraseAt input pos n).length = n := by
  rw [phraseAt, List.length_take, List.length_drop, Array.length_toList, Nat.min_eq_left h]

theorem take_of_beginsWith {fold : UInt8 → UInt8} {chars : List UInt32} {rest : List UInt8}
    (h : beginsWith fold chars rest = true) :
    (rest.take chars.length).map (fun byte => (fold byte).toUInt32) = chars := by
  induction chars generalizing rest with
  | nil => rfl
  | cons char chars ih =>
    cases rest with
    | nil => simp [beginsWith] at h
    | cons byte rest =>
      simp only [beginsWith, Bool.and_eq_true, beq_iff_eq] at h
      simp [h.1, ih h.2]

theorem literal_eq_some {fold : UInt8 → UInt8} {input : Array UInt8} {chars : List UInt32}
    {pos n : Nat} (h : literal fold input pos chars = some n) :
    n ≤ input.size - pos ∧
      (phraseAt input pos n).map (fun byte => (fold byte).toUInt32) = chars := by
  rw [literal] at h
  split at h
  · rename_i hfound
    cases h
    rw [Bool.and_eq_true, decide_eq_true_eq, startsWith_eq] at hfound
    have hlength := Run.beginsWith_length hfound.2
    rw [List.length_drop] at hlength
    exact ⟨hlength, take_of_beginsWith hfound.2⟩
  · cases h

theorem inRange_eq_some {input : Array UInt8} {min max : UInt32} {pos n : Nat}
    (h : inRange input pos min max = some n) :
    n ≤ input.size - pos ∧
      ∃ byte, phraseAt input pos n = [byte] ∧ min ≤ byte.toUInt32 ∧ byte.toUInt32 ≤ max := by
  rw [inRange_eq] at h
  obtain ⟨rfl, byte, more, hrest, hrange⟩ := rangeResult_eq_some h
  have hlength : (byte :: more).length = input.size - pos := by
    rw [← hrest, List.length_drop, Array.length_toList]
  rw [Bool.and_eq_true, decide_eq_true_eq, decide_eq_true_eq] at hrange
  exact ⟨hlength ▸ Nat.succ_pos _, byte, by rw [phraseAt, hrest]; rfl, hrange⟩

theorem terminalResult?_length {input : Array UInt8} {pos n : Nat} {opcode : Opcode}
    (h : terminalResult? input pos opcode = some (some n)) : n ≤ input.size - pos := by
  cases opcode with
  | abg | aen =>
    rw [terminalResult?, Option.some.injEq] at h
    split at h
    · cases h
      exact Nat.zero_le _
    · cases h
  | tbs | tls => exact (literal_eq_some (Option.some.inj h)).1
  | trg => exact (inRange_eq_some (Option.some.inj h)).1
  | _ => cases h

/-! ### States -/

/-- The state in which the body of a rule is tried. -/
def State.enter (watch : Watch σ) (state : State σ) (rule pos : Nat) : State σ where
  records := if watch.recorded rule then state.records.openNode rule pos else state.records
  observed := watch.observe rule .active pos 0 state.observed

/-- The records at the end of a rule that found `mark` of them at its beginning. -/
def Watch.leave (watch : Watch σ) (rule mark : Nat) (result : Option Nat) (records : Records) :
    Except Fault Records :=
  match result with
  | some length => if watch.recorded rule then records.closeNode mark length else .ok records
  | none => .ok (records.cutTo mark)

/-- The state at the end of an operator: on failure its records are given up. -/
def State.settle (before after : State σ) (result : Option Nat) : State σ :=
  if result.isSome then after else after.cutTo before.records.size

/-! ## Evaluations -/

/-- `Evaluates rules watch input task pos before result after`: the task is carried out at `pos` in
state `before`, has the given result and ends in state `after`. -/
inductive Evaluates (rules : Array Rule) (watch : Watch σ) (input : Array UInt8) :
    Task → (pos : Nat) → State σ → Option Nat → State σ → Prop where
  | terminal {rule op pos opcode state result} (hop : opcodeAt? rules rule op = some opcode)
      (h : terminalResult? input pos opcode = some result) :
      Evaluates rules watch input (.opcode rule op) pos state result state
  | alt {rule op pos children state result after}
      (hop : opcodeAt? rules rule op = some (.alt children))
      (h : Evaluates rules watch input (.choice rule children) pos state result after) :
      Evaluates rules watch input (.opcode rule op) pos state result after
  | cat {rule op pos children state result after}
      (hop : opcodeAt? rules rule op = some (.cat children))
      (h : Evaluates rules watch input (.sequence rule children) pos state result after) :
      Evaluates rules watch input (.opcode rule op) pos state result (state.settle after result)
  | rep {rule op pos min max state result after}
      (hop : opcodeAt? rules rule op = some (.rep min max))
      (h : Evaluates rules watch input (.iterations rule (op + 1) min max 0) pos state result
        after) :
      Evaluates rules watch input (.opcode rule op) pos state result (state.settle after result)
  | rnm {rule op pos target state result after}
      (hop : opcodeAt? rules rule op = some (.rnm target))
      (h : Evaluates rules watch input (.rule target) pos state result after) :
      Evaluates rules watch input (.opcode rule op) pos state result after
  | and {rule op pos state result after} (hop : opcodeAt? rules rule op = some .and)
      (h : Evaluates rules watch input (.opcode rule (op + 1)) pos state result after) :
      Evaluates rules watch input (.opcode rule op) pos state (result.map fun _ => 0)
        (after.cutTo state.records.size)
  | not {rule op pos state result after} (hop : opcodeAt? rules rule op = some .not)
      (h : Evaluates rules watch input (.opcode rule (op + 1)) pos state result after) :
      Evaluates rules watch input (.opcode rule op) pos state
        (if result.isSome then none else some 0) (after.cutTo state.records.size)
  | rule {rule pos state result inner records}
      (h : Evaluates rules watch input (.opcode rule 0) pos (state.enter watch rule pos) result
        inner)
      (hleave : watch.leave rule state.records.size result inner.records = .ok records) :
      Evaluates rules watch input (.rule rule) pos state result
        ⟨records, watch.observe rule (.ofResult result) pos (result.getD 0) inner.observed⟩
  | choiceNil {rule pos state} :
      Evaluates rules watch input (.choice rule []) pos state none state
  | choiceHit {rule child children pos state n after}
      (h : Evaluates rules watch input (.opcode rule child) pos state (some n) after) :
      Evaluates rules watch input (.choice rule (child :: children)) pos state (some n) after
  | choiceMiss {rule child children pos state next result after}
      (h : Evaluates rules watch input (.opcode rule child) pos state none next)
      (h' : Evaluates rules watch input (.choice rule children) pos next result after) :
      Evaluates rules watch input (.choice rule (child :: children)) pos state result after
  | sequenceNil {rule pos state} :
      Evaluates rules watch input (.sequence rule []) pos state (some 0) state
  | sequenceMiss {rule child children pos state after}
      (h : Evaluates rules watch input (.opcode rule child) pos state none after) :
      Evaluates rules watch input (.sequence rule (child :: children)) pos state none after
  | sequenceNext {rule child children pos state n next result after}
      (h : Evaluates rules watch input (.opcode rule child) pos state (some n) next)
      (h' : Evaluates rules watch input (.sequence rule children) (pos + n) next result after) :
      Evaluates rules watch input (.sequence rule (child :: children)) pos state
        (result.map (n + ·)) after
  | iterationsDone {rule op min pos state} {max : UInt32} {count : Nat}
      (hdone : max.toNat ≤ count) :
      Evaluates rules watch input (.iterations rule op min (some max) count) pos state
        (enough min count) state
  | iterationsMiss {rule op min count pos state after} {max : Option UInt32}
      (hmore : ∀ m ∈ max, count < m.toNat)
      (h : Evaluates rules watch input (.opcode rule op) pos state none after) :
      Evaluates rules watch input (.iterations rule op min max count) pos state
        (enough min count) after
  | iterationsEmpty {rule op min count pos state after} {max : Option UInt32}
      (hmore : ∀ m ∈ max, count < m.toNat)
      (h : Evaluates rules watch input (.opcode rule op) pos state (some 0) after) :
      Evaluates rules watch input (.iterations rule op min max count) pos state
        (enough min (count + 1)) after
  | iterationsNext {rule op min count pos state n next result after} {max : Option UInt32}
      (hmore : ∀ m ∈ max, count < m.toNat)
      (h : Evaluates rules watch input (.opcode rule op) pos state (some (n + 1)) next)
      (h' : Evaluates rules watch input (.iterations rule op min max (count + 1)) (pos + (n + 1))
        next result after) :
      Evaluates rules watch input (.iterations rule op min max count) pos state
        (result.map (n + 1 + ·)) after

/-! ## What ends is evaluated -/

section

variable {rules : Array Rule} {watch : Watch σ} {input : Array UInt8} {rule op pos : Nat}
  {state after : State σ} {result : Option Nat}

theorem evaluates_of_firstMatch {evaluate : Nat → State σ → Except Fault (Outcome σ)}
    (h : ∀ {child state result after}, evaluate child state = .ok (result, after) →
      Evaluates rules watch input (.opcode rule child) pos state result after)
    {children : List Nat} (hok : firstMatch evaluate children state = .ok (result, after)) :
    Evaluates rules watch input (.choice rule children) pos state result after := by
  induction children generalizing state with
  | nil =>
    cases hok
    exact .choiceNil
  | cons child children ih =>
    obtain ⟨⟨found, next⟩, hfirst, hok⟩ := exists_of_bind_eq_ok hok
    cases found with
    | some length =>
      cases hok
      exact .choiceHit (h hfirst)
    | none => exact .choiceMiss (h hfirst) (ih hok)

/-- The engine adds up lengths on its way, where the task counts from its own beginning. -/
theorem evaluates_of_inSequence {evaluate : Nat → Nat → State σ → Except Fault (Outcome σ)}
    (h : ∀ {child pos state result after}, evaluate child pos state = .ok (result, after) →
      Evaluates rules watch input (.opcode rule child) pos state result after)
    {children : List Nat} {length : Nat}
    (hok : inSequence evaluate pos children length state = .ok (result, after)) :
    ∃ found, result = found.map (length + ·) ∧
      Evaluates rules watch input (.sequence rule children) (pos + length) state found after := by
  induction children generalizing length state with
  | nil =>
    cases hok
    exact ⟨some 0, rfl, .sequenceNil⟩
  | cons child children ih =>
    obtain ⟨⟨first, next⟩, hfirst, hok⟩ := exists_of_bind_eq_ok hok
    cases first with
    | none =>
      cases hok
      exact ⟨none, rfl, .sequenceMiss (h hfirst)⟩
    | some more =>
      obtain ⟨found, rfl, hrest⟩ := ih hok
      rw [← Nat.add_assoc] at hrest
      refine ⟨found.map (more + ·), ?_, .sequenceNext (h hfirst) hrest⟩
      cases found <;> simp [Nat.add_assoc]

theorem evaluates_of_repeated {evaluate : Nat → State σ → Except Fault (Outcome σ)}
    (h : ∀ {pos state result after}, evaluate pos state = .ok (result, after) →
      Evaluates rules watch input (.opcode rule op) pos state result after)
    (min : UInt32) {max : Option UInt32} {budget count length count' length' : Nat}
    (hok : repeated evaluate max pos budget count length state = .ok (count', length', after)) :
    ∃ more, length' = length + more ∧
      Evaluates rules watch input (.iterations rule op min max count) (pos + length) state
        (if min.toNat ≤ count' then some more else none) after := by
  -- By induction on the budget of the loop, for any count: the task counts iterations as the loop
  -- does.
  induction budget generalizing count length state with
  | zero => cases hok
  | succ budget ih =>
    rw [repeated] at hok
    split at hok
    · rename_i hmax
      have hmore : ∀ m ∈ max, count < m.toNat := by
        rintro m rfl
        simpa using hmax
      obtain ⟨⟨found, next⟩, hfirst, hok⟩ := exists_of_bind_eq_ok hok
      rcases found with _ | _ | more
      · cases hok
        exact ⟨0, rfl, .iterationsMiss hmore (h hfirst)⟩
      · cases hok
        exact ⟨0, rfl, .iterationsEmpty hmore (h hfirst)⟩
      · obtain ⟨rest, rfl, hrest⟩ := ih hok
        rw [← Nat.add_assoc pos] at hrest
        refine ⟨more + 1 + rest, Nat.add_assoc .., ?_⟩
        have hall := Evaluates.iterationsNext hmore (h hfirst) hrest
        split at hall <;> rename_i hmin
        · rwa [if_pos hmin]
        · rwa [if_neg hmin]
    · rename_i hmax
      obtain ⟨max, rfl, hdone⟩ : ∃ m, max = some m ∧ m.toNat ≤ count := by
        cases max with
        | none => simp at hmax
        | some m => exact ⟨m, rfl, by simpa using hmax⟩
      cases hok
      exact ⟨0, rfl, .iterationsDone hdone⟩

/-- A rule is entered, its body is tried, and it is left. -/
theorem enterRule_eq (watch : Watch σ) (rule pos : Nat) (body : State σ → Except Fault (Outcome σ))
    (state : State σ) :
    enterRule watch rule pos body state = (do
      let outcome ← body (state.enter watch rule pos)
      let records ← watch.leave rule state.records.size outcome.1 outcome.2.records
      return (outcome.1, State.mk records
        (watch.observe rule (.ofResult outcome.1) pos (outcome.1.getD 0) outcome.2.observed))) := by
  rw [enterRule, State.enter]
  congr 1
  · split <;> rfl
  · funext outcome
    rcases outcome with ⟨_ | length, inner⟩
    · rfl
    · simp only [Watch.leave]
      split <;> rfl

theorem evaluates_of_body {body : State σ → Except Fault (Outcome σ)}
    (h : ∀ {state result after}, body state = .ok (result, after) →
      Evaluates rules watch input (.opcode rule 0) pos state result after)
    (hok : enterRule watch rule pos body state = .ok (result, after)) :
    Evaluates rules watch input (.rule rule) pos state result after := by
  rw [enterRule_eq] at hok
  obtain ⟨⟨found, inner⟩, hbody, hok⟩ := exists_of_bind_eq_ok hok
  obtain ⟨records, hleave, hok⟩ := exists_of_bind_eq_ok hok
  cases hok
  exact .rule (h hbody) hleave

/-- An opcode whose evaluation ends is evaluated. -/
theorem evaluates_of_evaluate {depth : Nat}
    (hok : evaluate rules watch input depth rule op pos state = .ok (result, after)) :
    Evaluates rules watch input (.opcode rule op) pos state result after := by
  induction depth generalizing rule op pos state result after with
  | zero => cases hok
  | succ depth ih =>
    obtain ⟨found, hrule, hok⟩ := exists_of_bind_eq_ok hok
    obtain ⟨opcode, hopcode, hok⟩ := exists_of_bind_eq_ok hok
    have hop : opcodeAt? rules rule op = some opcode :=
      (opcodeAt?_eq (fetch_eq_ok.1 hrule)).trans (fetch_eq_ok.1 hopcode)
    cases opcode with
    | alt children => exact .alt hop (evaluates_of_firstMatch ih hok)
    | cat children =>
      obtain ⟨⟨found, next⟩, hsequence, hok⟩ := exists_of_bind_eq_ok hok
      obtain ⟨found, rfl, hfound⟩ := evaluates_of_inSequence ih hsequence
      have hcat := Evaluates.cat hop hfound
      cases found with
      | none =>
        cases hok
        exact hcat
      | some length =>
        cases hok
        simpa [State.settle] using hcat
    | rep min max =>
      obtain ⟨⟨count, length, next⟩, hloop, hok⟩ := exists_of_bind_eq_ok hok
      obtain ⟨more, rfl, hfound⟩ := evaluates_of_repeated ih min hloop
      have hrep := Evaluates.rep hop hfound
      simp only at hok
      split at hok <;> rename_i hmin
      · cases hok
        rw [if_pos hmin] at hrep
        rw [Nat.zero_add]
        exact hrep
      · cases hok
        rw [if_neg hmin] at hrep
        exact hrep
    | rnm target =>
      obtain ⟨_, -, hok⟩ := exists_of_bind_eq_ok hok
      exact .rnm hop (evaluates_of_body ih hok)
    | and =>
      obtain ⟨⟨found, next⟩, hoperand, hok⟩ := exists_of_bind_eq_ok hok
      cases hok
      exact .and hop (ih hoperand)
    | not =>
      obtain ⟨⟨found, next⟩, hoperand, hok⟩ := exists_of_bind_eq_ok hok
      cases hok
      exact .not hop (ih hoperand)
    | abg | aen | tls | tbs | trg =>
      cases hok
      exact .terminal hop rfl
    | udt | bka | bkn | bkr => cases hok

/-- A rule whose evaluation ends is evaluated. -/
theorem evaluates_of_enterRule {depth : Nat}
    (hok : enterRule watch rule pos (evaluate rules watch input depth rule 0 pos) state =
      .ok (result, after)) :
    Evaluates rules watch input (.rule rule) pos state result after :=
  evaluates_of_body evaluates_of_evaluate hok

end

end Engine

end Abnf
