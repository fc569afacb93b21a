import Abnf.Proofs.Engine.Descent

/-!
# Runs in outline

A run in outline does not enter rules: of a rule that is tried it is known only what the rule
promises about the events before and after it. If the body of every rule keeps the promise of the
rule wherever the rules that it tries keep theirs, then every rule keeps its promise in every run,
however deep the rules are nested.

* `Run.outline`: runs can be seen in outline.
* `Outline.keeps`: what every rule on the way keeps is kept.
-/

namespace Abnf.Engine

/-- What rules promise: `promise rule pos before result after` relates the events before and after
the rule is tried at `pos`. -/
abbrev Promise :=
  (rule pos : Nat) → List Event → Option Nat → List Event → Prop

/-- `Outline promise bytes e pos before result after`: trying `e` at `pos` has the given result and
adds to the events `before` so that they become `after`, as far as it can be told from what the
rules promise. -/
inductive Outline (promise : Promise) (bytes : List UInt8) :
    Expr Opcode → Nat → List Event → Option Nat → List Event → Prop where
  | leaf {op pos events result} (h : leafResult? op pos (bytes.drop pos) = some result) :
      Outline promise bytes (.atom op) pos events result events
  | rule {rule pos before result after} (h : promise rule pos before result after) :
      Outline promise bytes (.atom (.rnm rule)) pos before result after
  | altNil {pos events} : Outline promise bytes (.alt []) pos events none events
  | altHit {e es pos before n after} (h : Outline promise bytes e pos before (some n) after) :
      Outline promise bytes (.alt (e :: es)) pos before (some n) after
  | altMiss {e es pos before middle result after}
      (h : Outline promise bytes e pos before none middle)
      (h' : Outline promise bytes (.alt es) pos middle result after) :
      Outline promise bytes (.alt (e :: es)) pos before result after
  | catNil {pos events} : Outline promise bytes (.cat []) pos events (some 0) events
  | catMiss {e es pos before after} (h : Outline promise bytes e pos before none after) :
      Outline promise bytes (.cat (e :: es)) pos before none after
  | catNext {e es pos before n middle result after}
      (h : Outline promise bytes e pos before (some n) middle)
      (h' : Outline promise bytes (.cat es) (pos + n) middle result after) :
      Outline promise bytes (.cat (e :: es)) pos before (result.map (n + ·)) after
  | repDone {min e pos events} :
      Outline promise bytes (.under (.rep min (some 0)) e) pos events (enough min 0) events
  | repMiss {min max e pos before after} (hmax : max ≠ some 0)
      (h : Outline promise bytes e pos before none after) :
      Outline promise bytes (.under (.rep min max) e) pos before (enough min 0) after
  | repEmpty {min max e pos before after} (hmax : max ≠ some 0)
      (h : Outline promise bytes e pos before (some 0) after) :
      Outline promise bytes (.under (.rep min max) e) pos before (enough min 1) after
  | repNext {min max e pos before n middle result after} (hmax : max ≠ some 0)
      (h : Outline promise bytes e pos before (some (n + 1)) middle)
      (h' : Outline promise bytes (.under (.rep (fewer min) (max.map fewer)) e) (pos + (n + 1))
        middle result after) :
      Outline promise bytes (.under (.rep min max) e) pos before (result.map (n + 1 + ·)) after
  | and {e pos before result after} (h : Outline promise bytes e pos before result after) :
      Outline promise bytes (.under .and e) pos before (result.map fun _ => 0) after
  | not {e pos before result after} (h : Outline promise bytes e pos before result after) :
      Outline promise bytes (.under .not e) pos before (if result.isSome then none else some 0)
        after

variable {scheme : Scheme} {promise : Promise} {bytes : List UInt8} {e : Expr Opcode} {pos : Nat}
  {result : Option Nat}

/-- A rule keeps its promise if its body is such that the promise is kept whenever the rules that
the body tries keep theirs. -/
def Scheme.Keeps (scheme : Scheme) (promise : Promise) (bytes : List UInt8) : Prop :=
  ∀ {rule body pos before result nodes events after}, scheme.body rule = some body →
    Run scheme body pos (bytes.drop pos) result nodes events →
    Outline promise bytes body pos (before ++ [⟨rule, .active, pos, 0⟩]) result after →
    promise rule pos before result (after ++ [⟨rule, .ofResult result, pos, result.getD 0⟩])

/-- Where all rules keep their promises, runs can be seen in outline. -/
theorem Run.outline (hkeeps : scheme.Keeps promise bytes) {rest : List UInt8} {nodes : List Node}
    {events : List Event} (h : Run scheme e pos rest result nodes events)
    (hrest : rest = bytes.drop pos) (before : List Event) :
    Outline promise bytes e pos before result (before ++ events) := by
  -- By induction on the run, for whatever events came before it: promises are about these too.
  induction h generalizing before with
  | leaf h =>
    rw [List.append_nil]
    exact .leaf (hrest ▸ h)
  | @rule rule body pos rest result nodes events hbody hrun ih =>
    have hinner := ih hrest (before ++ [⟨rule, .active, pos, 0⟩])
    have hpromise := hkeeps hbody (hrest ▸ hrun) hinner
    refine .rule ?_
    simpa [bracket] using hpromise
  | altNil =>
    rw [List.append_nil]
    exact .altNil
  | altHit _ ih => exact .altHit (ih hrest before)
  | altMiss _ _ ih₁ ih₂ =>
    rw [← List.append_assoc]
    exact .altMiss (ih₁ hrest before) (ih₂ hrest _)
  | catNil =>
    rw [List.append_nil]
    exact .catNil
  | catMiss _ ih => exact .catMiss (ih hrest before)
  | catNext _ _ ih₁ ih₂ =>
    rw [← List.append_assoc]
    exact .catNext (ih₁ hrest before) (ih₂ (by rw [hrest, List.drop_drop]) _)
  | repDone =>
    rw [List.append_nil]
    exact .repDone
  | repMiss hmax _ ih => exact .repMiss hmax (ih hrest before)
  | repEmpty hmax _ ih => exact .repEmpty hmax (ih hrest before)
  | repNext hmax _ _ ih₁ ih₂ =>
    rw [← List.append_assoc]
    exact .repNext hmax (ih₁ hrest before) (ih₂ (by rw [hrest, List.drop_drop]) _)
  | and _ ih => exact .and (ih hrest before)
  | not _ ih => exact .not (ih hrest before)

namespace Outline

variable {before after : List Event}

/-- What every rule that is tried keeps is kept. -/
theorem keeps {R : List Event → List Event → Prop} {known : Nat → Bool}
    (hrefl : ∀ events, R events events)
    (htrans : ∀ {events₁ events₂ events₃}, R events₁ events₂ → R events₂ events₃ →
      R events₁ events₃)
    (hrule : ∀ {rule pos before result after}, known rule = true →
      promise rule pos before result after → R before after)
    (h : Outline promise bytes e pos before result after) (he : e.isRunnable known = true) :
    R before after := by
  induction h with
  | leaf | altNil | catNil | repDone => exact hrefl _
  | rule h => exact hrule he h
  | altHit _ ih | catMiss _ ih =>
    simp only [Expr.isRunnable, Expr.allRunnable, Bool.and_eq_true] at he
    exact ih he.1
  | altMiss _ _ ih₁ ih₂ | catNext _ _ ih₁ ih₂ =>
    simp only [Expr.isRunnable, Expr.allRunnable, Bool.and_eq_true] at he
    exact htrans (ih₁ he.1) (ih₂ he.2)
  | repMiss _ _ ih | repEmpty _ _ ih | and _ ih | not _ ih => exact ih he
  | repNext _ _ _ ih₁ ih₂ => exact htrans (ih₁ he) (ih₂ he)

/-- An expression that refers to no rule adds no events. -/
theorem eq_of_leaves (h : Outline promise bytes e pos before result after)
    (he : e.isRunnable (fun _ => false) = true) : after = before :=
  h.keeps (R := fun before after => after = before) (fun _ => rfl) (fun h h' => h'.trans h)
    (fun hknown => by cases hknown) he

/-- A rule that is tried keeps its promise. -/
theorem promise_of_rule {rule : Nat}
    (h : Outline promise bytes (.atom (.rnm rule)) pos before result after) :
    promise rule pos before result after := by
  cases h with
  | leaf h => cases h
  | rule h => exact h

/-- Alternatives match among the first of them, or these all fail and the others are tried. -/
theorem alt_append {es es' : List (Expr Opcode)}
    (h : Outline promise bytes (.alt (es ++ es')) pos before result after) :
    (result ≠ none ∧ Outline promise bytes (.alt es) pos before result after) ∨
      ∃ middle, Outline promise bytes (.alt es) pos before none middle ∧
        Outline promise bytes (.alt es') pos middle result after := by
  induction es generalizing before with
  | nil => exact .inr ⟨before, .altNil, h⟩
  | cons e es ih =>
    cases h with
    | altHit h => exact .inl ⟨nofun, .altHit h⟩
    | altMiss h h' =>
      obtain ⟨hresult, h'⟩ | ⟨middle, hmiss, h'⟩ := ih h'
      · exact .inl ⟨hresult, .altMiss h h'⟩
      · exact .inr ⟨middle, .altMiss h hmiss, h'⟩

/-- A sequence of one expression is tried as that expression. -/
theorem cat_singleton (h : Outline promise bytes (.cat [e]) pos before result after) :
    Outline promise bytes e pos before result after := by
  cases h with
  | catMiss h => exact h
  | catNext h h' =>
    cases h'
    exact h

end Outline

end Abnf.Engine
