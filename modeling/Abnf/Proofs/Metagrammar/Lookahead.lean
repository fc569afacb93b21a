import Abnf.Proofs.Metagrammar.Proper

/-!
# Plain symbols, and symbols that cannot begin here

Two cases in which a run of the metagrammar is known without looking into it. A plain symbol has
no error alternative anywhere below it, so it runs alike with and without them. A symbol that
cannot begin with the next byte fails at once.

* `CleanMatch.of_plain`, `CleanFail.of_plain`: proper runs of plain symbols are clean runs.
* `cleanFail_of_quiet`: a symbol that cannot begin with the next byte fails without alarm.
-/

namespace Abnf.Metagrammar

open Engine

/-- `e` matches without the help of error alternatives. -/
abbrev ProperMatch : Expr Opcode → Nat → List UInt8 → Nat → List Node → Prop :=
  Matches properScheme fun _ => True

/-- `e` fails when there are no error alternatives. -/
abbrev ProperFail : Expr Opcode → Nat → List UInt8 → Prop :=
  Fails properScheme fun _ => True

/-- `e` matches without alarm. -/
abbrev CleanMatch : Expr Opcode → Nat → List UInt8 → Nat → List Node → Prop :=
  Matches scheme Clean

/-- `e` fails without alarm. -/
abbrev CleanFail : Expr Opcode → Nat → List UInt8 → Prop :=
  Fails scheme Clean

variable {e : Expr Opcode} {s : Symbol} {pos n : Nat} {rest : List UInt8} {nodes : List Node}

/-! ## Plain symbols -/

/-- Whether there is no error alternative and no alarm anywhere below a symbol. -/
def Symbol.isPlain : Symbol → Bool
  | file | rule | ruleLookup | ruleNameTest | ruleNameError | definedAsTest | definedAsError
  | ruleError | lineEndError | alternation | concatenation | repetition | basicElement
  | basicElementError | group | groupError | groupClose | option | optionError | optionClose
  | tlsOp | tlsString | tlsClose | stringTab | clsOp | clsString | clsClose | prosVal
  | prosValString | prosValClose => false
  | _ => true

/-- Whether all symbols that an expression refers to are plain. -/
def isPlain (e : Expr Opcode) : Bool :=
  e.isRunnable (among Symbol.isPlain)

theorem isPlain_body (hs : s.isPlain = true) : isPlain s.body = true := by
  cases s <;> first | rfl | cases hs

theorem properBody_of_isPlain (hs : s.isPlain = true) : s.properBody = s.body := by
  cases s <;> first | rfl | cases hs

theorem isAlarm_of_isPlain (hs : s.isPlain = true) (phase : Phase) : s.isAlarm phase = false := by
  cases s <;> first | rfl | cases hs

theorem Run.of_plain {result : Option Nat} {events : List Event} (he : isPlain e = true)
    (h : Run properScheme e pos rest result nodes events) :
    Run scheme e pos rest result nodes events ∧ ∀ event ∈ events, Clean event := by
  have hclosed : ∀ s : Symbol, s.isPlain = true → isPlain s.properBody = true := by
    intro s hs
    rw [properBody_of_isPlain hs]
    exact isPlain_body hs
  have hrecorded : scheme.recorded = properScheme.recorded := rfl
  constructor
  · refine h.transfer ?_ ?_ hrecorded he
    · intro r body hr hbody
      obtain ⟨s, rfl, hs⟩ := exists_symbol_of_among hr
      rw [properScheme_body] at hbody
      cases hbody
      exact hclosed s hs
    · intro r hr
      obtain ⟨s, rfl, hs⟩ := exists_symbol_of_among hr
      rw [properScheme_body, scheme_body, properBody_of_isPlain hs]
  · intro event hevent s hs
    have hplain := among_of_run hclosed h he event hevent
    simp only [among, hs, Option.any_some] at hplain
    exact isAlarm_of_isPlain hplain _

theorem CleanMatch.of_plain (he : isPlain e = true) (h : ProperMatch e pos rest n nodes) :
    CleanMatch e pos rest n nodes := by
  obtain ⟨events, hrun, -⟩ := h
  exact ⟨events, Run.of_plain he hrun⟩

theorem CleanFail.of_plain (he : isPlain e = true) (h : ProperFail e pos rest) :
    CleanFail e pos rest := by
  obtain ⟨events, hrun, -⟩ := h
  exact ⟨events, Run.of_plain he hrun⟩

/-! ## Symbols that cannot begin here -/

/-- Whether a rule may fail without alarm. -/
def calm : Nat → Bool :=
  among fun s => !s.isAlarm .failed

/-- Whether a symbol matches nothing in front of `byte`. -/
def Symbol.isQuiet (s : Symbol) (byte : Option UInt8) : Bool :=
  !s.canBeEmpty && scheme.isQuiet nullable calm byte 7 s.index

/-- Whether a symbol matches nothing in front of `byte` when there are no error alternatives. -/
def Symbol.isProperlyQuiet (s : Symbol) (byte : Option UInt8) : Bool :=
  !s.canBeEmpty && properScheme.isQuiet nullable (fun _ => true) byte 7 s.index

theorem forall_byte {p : Option UInt8 → Bool} (hnone : p none = true)
    (hsome : ∀ i : Fin 256, p (some (UInt8.ofNat i)) = true) (byte : Option UInt8) :
    p byte = true := by
  cases byte with
  | none => exact hnone
  | some byte => simpa using hsome ⟨byte.toNat, byte.toNat_lt⟩

theorem cleanFail_of_quiet (hs : s.isQuiet rest.head? = true) : CleanFail (ref s) pos rest := by
  simp only [Symbol.isQuiet, Bool.and_eq_true, Bool.not_eq_true'] at hs
  have hquiet : (ref s).isQuiet nullable (scheme.isQuiet nullable calm rest.head? 7) rest.head? =
      true := hs.2
  obtain ⟨result, nodes, events, hrun⟩ := total s pos rest
  obtain ⟨hresult, hevents⟩ := hrun.quiet descends.closed hquiet
  cases result with
  | some n =>
    cases hresult n rfl
    have hnull : nullable s.index = true := hrun.isNullable descends.closed
    simp [nullable, Symbol.ofIndex?_index, hs.1] at hnull
  | none =>
    cases hrun.nodes_eq_nil
    refine ⟨events, hrun, fun event hevent t ht => ?_⟩
    obtain ⟨hcalm, hphase⟩ := hevents event hevent
    simp only [calm, among, ht, Option.any_some, Bool.not_eq_true'] at hcalm
    cases hp : event.phase with
    | failed => exact hcalm
    | matched => exact absurd hp hphase
    | active | empty => cases t <;> rfl

theorem pos_of_properMatch (he : e.isNullable nullable = false)
    (h : ProperMatch e pos rest n nodes) : 0 < n := by
  obtain ⟨events, hrun, -⟩ := h
  refine Nat.pos_of_ne_zero fun hn => ?_
  subst hn
  simp [hrun.isNullable descends_proper.closed] at he

theorem isNullable_ref : (ref s).isNullable nullable = s.canBeEmpty := by
  simp [ref, Expr.isNullable, nullable, Symbol.ofIndex?_index]

theorem not_properlyQuiet (h : ProperMatch (ref s) pos rest n nodes) :
    s.isProperlyQuiet rest.head? = false := by
  rw [← Bool.not_eq_true]
  intro hs
  simp only [Symbol.isProperlyQuiet, Bool.and_eq_true, Bool.not_eq_true'] at hs
  have hquiet : (ref s).isQuiet nullable
      (properScheme.isQuiet nullable (fun _ => true) rest.head? 7) rest.head? = true := hs.2
  have hpos := pos_of_properMatch (isNullable_ref.trans hs.1) h
  obtain ⟨events, hrun, -⟩ := h
  have hzero := (hrun.quiet descends_proper.closed hquiet).1 n rfl
  omega

/-- A symbol that cannot begin with the next byte fails when there are no error alternatives. -/
theorem properFail_of_quiet (hs : s.isProperlyQuiet rest.head? = true) :
    ProperFail (ref s) pos rest := by
  obtain ⟨result, nodes, events, hrun⟩ := total_schemeOf isSound_properBody s pos rest
  cases result with
  | some n =>
    have hmatch : ProperMatch (ref s) pos rest n nodes := ⟨events, hrun, fun _ _ => trivial⟩
    simp [not_properlyQuiet hmatch] at hs
  | none =>
    cases hrun.nodes_eq_nil
    exact ⟨events, hrun, fun _ _ => trivial⟩

end Abnf.Metagrammar
