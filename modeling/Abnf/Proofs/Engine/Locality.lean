import Abnf.Proofs.Engine.Descent
import Abnf.Proofs.Engine.Matching

/-!
# What a run depends on

* `Run.within`: a run enters only rules that the expression refers to, directly or not.
* `Run.silent`: an expression that refers to no recorded rules leaves no trees.
* `Run.transfer`: schemes that agree on these rules have the same runs.
* `Run.reschedule`: which phrases are recorded makes no difference to results and events.
* `Run.quiet`: an expression that cannot begin with the next byte consumes nothing, and neither
  does any rule on the way.
-/

namespace Abnf

/-! ## The next byte -/

/-- Whether a leaf consumes nothing in front of `byte`. -/
def Opcode.isIdle (byte : Option UInt8) : Opcode → Bool
  | .tbs (char :: _) => byte.all fun b => b.toUInt32 != char
  | .tls (char :: _) => byte.all fun b => (Engine.lowerByte b).toUInt32 != char
  | .trg min max => byte.all fun b => !(min ≤ b.toUInt32 && b.toUInt32 ≤ max)
  | _ => true

namespace Expr

mutual

/-- Whether an expression consumes nothing in front of `byte`, when `rule` says this of rules. -/
def isQuiet (nullable rule : Nat → Bool) (byte : Option UInt8) : Expr Opcode → Bool
  | atom op =>
    match op with
    | .rnm r => rule r
    | op => op.isIdle byte
  | alt es => allQuiet nullable rule byte es
  | cat es => quietInTurn nullable rule byte es
  | under _ e => isQuiet nullable rule byte e

/-- Whether no alternative consumes anything in front of `byte`. -/
def allQuiet (nullable rule : Nat → Bool) (byte : Option UInt8) : List (Expr Opcode) → Bool
  | [] => true
  | e :: es => isQuiet nullable rule byte e && allQuiet nullable rule byte es

/-- Whether a sequence consumes nothing in front of `byte`. -/
def quietInTurn (nullable rule : Nat → Bool) (byte : Option UInt8) : List (Expr Opcode) → Bool
  | [] => true
  | e :: es =>
    isQuiet nullable rule byte e &&
      (!isNullable nullable e || quietInTurn nullable rule byte es)

end

end Expr

namespace Engine

/-- Whether a rule enters calm rules only, at most `fuel` of them deep, and consumes nothing in
front of `byte`. -/
def Scheme.isQuiet (scheme : Scheme) (nullable calm : Nat → Bool) (byte : Option UInt8) :
    (fuel r : Nat) → Bool
  | 0, _ => false
  | fuel + 1, r =>
    calm r && (scheme.body r).all fun body =>
      body.isQuiet nullable (scheme.isQuiet nullable calm byte fuel) byte

variable {scheme scheme' : Scheme} {known nullable calm : Nat → Bool} {e : Expr Opcode} {pos : Nat}
  {rest : List UInt8} {result : Option Nat} {nodes : List Node} {events : List Event}

theorem eq_zero_of_isIdle {op : Opcode} {n : Nat} (hidle : op.isIdle rest.head? = true)
    (h : leafResult? op pos rest = some (some n)) : n = 0 := by
  cases op with
  | abg | aen =>
    simp only [leafResult?, Option.some.injEq] at h
    split at h <;> simp_all
  | trg min max =>
    obtain ⟨-, byte, more, rfl, hrange⟩ := rangeResult_eq_some (Option.some.inj h)
    simp only [Opcode.isIdle, List.head?_cons, Option.all_some, Bool.not_eq_true'] at hidle
    exact absurd (hidle.symm.trans hrange) Bool.false_ne_true
  | tls chars | tbs chars =>
    obtain ⟨hbegins, rfl⟩ := literalResult_eq_some (Option.some.inj h)
    cases chars with
    | nil => rfl
    | cons char chars =>
      cases rest with
      | nil => simp [beginsWith] at hbegins
      | cons byte bytes =>
        simp only [Opcode.isIdle, List.head?_cons, Option.all_some, bne_iff_ne, ne_eq] at hidle
        simp [beginsWith, hidle] at hbegins
  | _ => simp [leafResult?] at h

namespace Run

/-- A run stays within the rules that the expression refers to. -/
theorem within (hclosed : ∀ {r body}, known r = true → scheme.body r = some body →
      body.isRunnable known = true)
    (h : Run scheme e pos rest result nodes events) (he : e.isRunnable known = true) :
    ∀ event ∈ events, known event.rule = true := by
  induction h with
  | leaf | altNil | catNil | repDone => simp
  | rule hbody _ ih =>
    intro event hevent
    simp only [bracket, List.cons_append, List.mem_cons, List.mem_append, List.not_mem_nil,
      or_false] at hevent
    rcases hevent with rfl | hevent | rfl
    · exact he
    · exact ih (hclosed he hbody) event hevent
    · exact he
  | altHit _ ih =>
    simp only [Expr.isRunnable, Expr.allRunnable, Bool.and_eq_true] at he
    exact ih he.1
  | catMiss _ ih =>
    simp only [Expr.isRunnable, Expr.allRunnable, Bool.and_eq_true] at he
    exact ih he.1
  | altMiss _ _ ih₁ ih₂ | catNext _ _ ih₁ ih₂ =>
    simp only [Expr.isRunnable, Expr.allRunnable, Bool.and_eq_true] at he
    intro event hevent
    rcases List.mem_append.1 hevent with hevent | hevent
    · exact ih₁ he.1 event hevent
    · exact ih₂ he.2 event hevent
  | repMiss _ _ ih | repEmpty _ _ ih | and _ ih | not _ ih => exact ih he
  | repNext _ _ _ ih₁ ih₂ =>
    intro event hevent
    rcases List.mem_append.1 hevent with hevent | hevent
    · exact ih₁ he event hevent
    · exact ih₂ he event hevent

/-- An expression leaves no trees if it refers to rules that are not recorded only. -/
theorem silent (hclosed : ∀ {r body}, known r = true → scheme.body r = some body →
      body.isRunnable known = true)
    (hrecorded : ∀ {r}, known r = true → scheme.recorded r = false)
    (h : Run scheme e pos rest result nodes events) (he : e.isRunnable known = true) :
    nodes = [] := by
  induction h with
  | leaf | altNil | catNil | catMiss | repDone | repMiss | and | not => rfl
  | @rule _ _ _ _ result _ _ hbody _ ih =>
    cases ih (hclosed he hbody)
    cases result <;> simp [Scheme.wrap, hrecorded he]
  | altHit _ ih =>
    simp only [Expr.isRunnable, Expr.allRunnable, Bool.and_eq_true] at he
    exact ih he.1
  | altMiss _ _ _ ih =>
    simp only [Expr.isRunnable, Expr.allRunnable, Bool.and_eq_true] at he
    exact ih he.2
  | catNext _ _ ih₁ ih₂ =>
    simp only [Expr.isRunnable, Expr.allRunnable, Bool.and_eq_true] at he
    simp [ih₁ he.1, ih₂ he.2]
  | repEmpty _ _ ih => simp [ih he]
  | repNext _ _ _ ih₁ ih₂ => simp [ih₁ he, ih₂ he]

/-- Schemes that agree on the rules that an expression refers to have the same runs of it. -/
theorem transfer (hclosed : ∀ {r body}, known r = true → scheme.body r = some body →
      body.isRunnable known = true)
    (hagree : ∀ {r}, known r = true → scheme'.body r = scheme.body r)
    (hrecorded : scheme'.recorded = scheme.recorded)
    (h : Run scheme e pos rest result nodes events) (he : e.isRunnable known = true) :
    Run scheme' e pos rest result nodes events := by
  induction h with
  | leaf h => exact .leaf h
  | rule hbody _ ih =>
    have h : Run scheme' _ _ _ _ _ _ :=
      .rule ((hagree he).trans hbody) (ih (hclosed he hbody))
    simpa only [Scheme.wrap, hrecorded] using h
  | altNil => exact .altNil
  | altHit _ ih =>
    simp only [Expr.isRunnable, Expr.allRunnable, Bool.and_eq_true] at he
    exact .altHit (ih he.1)
  | altMiss _ _ ih₁ ih₂ =>
    simp only [Expr.isRunnable, Expr.allRunnable, Bool.and_eq_true] at he
    exact .altMiss (ih₁ he.1) (ih₂ he.2)
  | catNil => exact .catNil
  | catMiss _ ih =>
    simp only [Expr.isRunnable, Expr.allRunnable, Bool.and_eq_true] at he
    exact .catMiss (ih he.1)
  | catNext _ _ ih₁ ih₂ =>
    simp only [Expr.isRunnable, Expr.allRunnable, Bool.and_eq_true] at he
    exact .catNext (ih₁ he.1) (ih₂ he.2)
  | repDone => exact .repDone
  | repMiss hmax _ ih => exact .repMiss hmax (ih he)
  | repEmpty hmax _ ih => exact .repEmpty hmax (ih he)
  | repNext hmax _ _ ih₁ ih₂ => exact .repNext hmax (ih₁ he) (ih₂ he)
  | and _ ih => exact .and (ih he)
  | not _ ih => exact .not (ih he)

/-- The same run under another choice of recorded phrases. -/
theorem reschedule (h : Run scheme e pos rest result nodes events)
    (hbody : scheme'.body = scheme.body) :
    ∃ nodes', Run scheme' e pos rest result nodes' events := by
  -- The trees that are left depend on the schedule, but a miss leaves none under either.
  induction h with
  | leaf h => exact ⟨_, .leaf h⟩
  | rule hrule _ ih =>
    obtain ⟨nodes', ih⟩ := ih
    exact ⟨_, .rule (by rw [hbody, hrule]) ih⟩
  | altNil => exact ⟨_, .altNil⟩
  | altHit _ ih =>
    obtain ⟨nodes', ih⟩ := ih
    exact ⟨_, .altHit ih⟩
  | altMiss _ _ ih₁ ih₂ =>
    obtain ⟨nodes₁, ih₁⟩ := ih₁
    obtain ⟨nodes₂, ih₂⟩ := ih₂
    cases ih₁.nodes_eq_nil
    exact ⟨_, .altMiss ih₁ ih₂⟩
  | catNil => exact ⟨_, .catNil⟩
  | catMiss _ ih =>
    obtain ⟨nodes', ih⟩ := ih
    cases ih.nodes_eq_nil
    exact ⟨_, .catMiss ih⟩
  | catNext _ _ ih₁ ih₂ =>
    obtain ⟨nodes₁, ih₁⟩ := ih₁
    obtain ⟨nodes₂, ih₂⟩ := ih₂
    exact ⟨_, .catNext ih₁ ih₂⟩
  | repDone => exact ⟨_, .repDone⟩
  | repMiss hmax _ ih =>
    obtain ⟨nodes', ih⟩ := ih
    cases ih.nodes_eq_nil
    exact ⟨_, .repMiss hmax ih⟩
  | repEmpty hmax _ ih =>
    obtain ⟨nodes', ih⟩ := ih
    exact ⟨_, .repEmpty hmax ih⟩
  | repNext hmax _ _ ih₁ ih₂ =>
    obtain ⟨nodes₁, ih₁⟩ := ih₁
    obtain ⟨nodes₂, ih₂⟩ := ih₂
    exact ⟨_, .repNext hmax ih₁ ih₂⟩
  | and _ ih =>
    obtain ⟨nodes', ih⟩ := ih
    exact ⟨_, .and ih⟩
  | not _ ih =>
    obtain ⟨nodes', ih⟩ := ih
    exact ⟨_, .not ih⟩

/-- A quiet expression consumes nothing, enters calm rules only, and no rule on the way consumes
anything either. -/
theorem quiet (hclosed : ∀ {r body}, scheme.body r = some body →
      body.isNullable nullable = true → nullable r = true)
    (h : Run scheme e pos rest result nodes events) {fuel : Nat}
    (hquiet : e.isQuiet nullable (scheme.isQuiet nullable calm rest.head? fuel) rest.head? = true) :
    (∀ n, result = some n → n = 0) ∧
      ∀ event ∈ events, calm event.rule = true ∧ event.phase ≠ .matched := by
  induction h generalizing fuel with
  | leaf h =>
    refine ⟨?_, by simp⟩
    rintro n rfl
    rename_i op pos rest
    cases op with
    | rnm => simp [leafResult?] at h
    | _ =>
      simp only [Expr.isQuiet] at hquiet
      exact eq_zero_of_isIdle hquiet h
  | rule hbody _ ih =>
    simp only [Expr.isQuiet] at hquiet
    cases fuel with
    | zero => simp [Scheme.isQuiet] at hquiet
    | succ fuel =>
      simp only [Scheme.isQuiet, hbody, Option.all_some, Bool.and_eq_true] at hquiet
      obtain ⟨hresult, hevents⟩ := ih hquiet.2
      refine ⟨hresult, fun event hevent => ?_⟩
      simp only [bracket, List.cons_append, List.mem_cons, List.mem_append, List.not_mem_nil,
        or_false] at hevent
      rcases hevent with rfl | hevent | rfl
      · exact ⟨hquiet.1, by simp⟩
      · exact hevents event hevent
      · refine ⟨hquiet.1, ?_⟩
        rename_i result _ _ _
        cases result with
        | none => simp [Phase.ofResult]
        | some n => simp [hresult n rfl, Phase.ofResult]
  | altNil => simp
  | altHit _ ih =>
    simp only [Expr.isQuiet, Expr.allQuiet, Bool.and_eq_true] at hquiet
    exact ih hquiet.1
  | altMiss _ _ ih₁ ih₂ =>
    simp only [Expr.isQuiet, Expr.allQuiet, Bool.and_eq_true] at hquiet
    obtain ⟨-, hevents₁⟩ := ih₁ hquiet.1
    obtain ⟨hresult, hevents₂⟩ := ih₂ hquiet.2
    refine ⟨hresult, fun event hevent => ?_⟩
    rcases List.mem_append.1 hevent with hevent | hevent
    · exact hevents₁ event hevent
    · exact hevents₂ event hevent
  | catNil => simp
  | catMiss _ ih =>
    simp only [Expr.isQuiet, Expr.quietInTurn, Bool.and_eq_true] at hquiet
    exact ⟨by simp, (ih hquiet.1).2⟩
  | catNext h _ ih₁ ih₂ =>
    simp only [Expr.isQuiet, Expr.quietInTurn, Bool.and_eq_true] at hquiet
    obtain ⟨hlength, hevents₁⟩ := ih₁ hquiet.1
    cases hlength _ rfl
    -- Nothing was consumed, so the rest of the sequence is in front of the same byte.
    rw [List.drop_zero] at ih₂
    obtain ⟨hresult, hevents₂⟩ := ih₂ (by simpa [Expr.isQuiet, h.isNullable hclosed] using hquiet.2)
    refine ⟨?_, fun event hevent => ?_⟩
    · intro n hn
      obtain ⟨m, rfl, rfl⟩ := Option.map_eq_some_iff.1 hn
      rw [hresult m rfl]
    · rcases List.mem_append.1 hevent with hevent | hevent
      · exact hevents₁ event hevent
      · exact hevents₂ event hevent
  | repDone => exact ⟨fun n hn => (enough_eq_some hn).2, by simp⟩
  | repMiss _ _ ih | repEmpty _ _ ih =>
    exact ⟨fun n hn => (enough_eq_some hn).2, (ih hquiet).2⟩
  | repNext _ _ _ ih => exact absurd ((ih hquiet).1 _ rfl) (by simp)
  | and _ ih =>
    refine ⟨fun n hn => ?_, (ih hquiet).2⟩
    obtain ⟨m, -, rfl⟩ := Option.map_eq_some_iff.1 hn
    rfl
  | not _ ih =>
    refine ⟨fun n hn => ?_, (ih hquiet).2⟩
    split at hn
    · simp at hn
    · exact (Option.some.inj hn).symm

end Run

end Engine

end Abnf
