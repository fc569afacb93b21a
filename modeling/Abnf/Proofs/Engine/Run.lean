import Abnf.Engine
import Abnf.Expr
import Abnf.Forest

/-!
# Runs of expressions

What it means for an expression to be tried on some bytes, said without depth, state and flat
tables: a run has a result, leaves trees of recorded phrases, and passes the beginnings and ends
of rules in a fixed order. Runs are deterministic (`Run.unique`) and never match more bytes than
there are (`Run.le_length`).
-/

namespace Abnf.Engine

open scoped Decisions

/-- What a run depends on besides the bytes: the expression of every rule, and the rules whose
phrases are recorded. -/
structure Scheme where
  body : Nat → Option (Expr Opcode)
  recorded : Nat → Bool

namespace Scheme

/-- The trees that a rule leaves when its body, tried at `pos`, has left `nodes`. -/
def wrap (scheme : Scheme) (rule pos : Nat) (result : Option Nat) (nodes : List Node) : List Node :=
  match result with
  | some length => if scheme.recorded rule then [.mk rule pos length nodes] else nodes
  | none => []

end Scheme

/-! ## Leaves -/

/-- Whether bytes begin with `chars`, each byte seen through `fold`. -/
def beginsWith (fold : UInt8 → UInt8) : List UInt32 → List UInt8 → Bool
  | [], _ => true
  | _ :: _, [] => false
  | char :: chars, byte :: bytes =>
    (fold byte).toUInt32 == char && beginsWith fold chars bytes

/-- The result of a literal on the bytes in front of it. -/
def literalResult (fold : UInt8 → UInt8) (chars : List UInt32) (rest : List UInt8) : Option Nat :=
  if beginsWith fold chars rest then some chars.length else none

/-- The result of a range on the bytes in front of it. -/
def rangeResult (min max : UInt32) : List UInt8 → Option Nat
  | [] => none
  | byte :: _ => if min ≤ byte.toUInt32 && byte.toUInt32 ≤ max then some 1 else none

theorem literalResult_eq_some {fold : UInt8 → UInt8} {chars : List UInt32} {rest : List UInt8}
    {n : Nat} (h : literalResult fold chars rest = some n) :
    beginsWith fold chars rest = true ∧ n = chars.length := by
  unfold literalResult at h
  split at h
  · exact ⟨‹_›, (Option.some.inj h).symm⟩
  · cases h

theorem rangeResult_eq_some {min max : UInt32} {rest : List UInt8} {n : Nat}
    (h : rangeResult min max rest = some n) :
    n = 1 ∧ ∃ byte more, rest = byte :: more ∧
      (min ≤ byte.toUInt32 && byte.toUInt32 ≤ max) = true := by
  cases rest with
  | nil => cases h
  | cons byte more =>
    rw [rangeResult] at h
    split at h
    · exact ⟨(Option.some.inj h).symm, byte, more, rfl, ‹_›⟩
    · cases h

/-- The result of a leaf that is no reference; nothing if the engine has no meaning for it. -/
def leafResult? (op : Opcode) (pos : Nat) (rest : List UInt8) : Option (Option Nat) :=
  match op with
  | .abg => some (if pos = 0 then some 0 else none)
  | .aen => some (if rest.isEmpty then some 0 else none)
  | .tbs chars => some (literalResult id chars rest)
  | .tls chars => some (literalResult lowerByte chars rest)
  | .trg min max => some (rangeResult min max rest)
  | _ => none

/-! ## Repetition -/

/-- One iteration fewer. -/
def fewer (n : UInt32) : UInt32 :=
  if n = 0 then 0 else n - 1

/-- The end of a repetition that has `count` iterations left to count: it matches if these
suffice. -/
def enough (min : UInt32) (count : Nat) : Option Nat :=
  if min.toNat ≤ count then some 0 else none

theorem enough_eq_some {min : UInt32} {count length : Nat} (h : enough min count = some length) :
    min.toNat ≤ count ∧ length = 0 := by
  unfold enough at h
  split at h
  · exact ⟨‹_›, (Option.some.inj h).symm⟩
  · simp at h

/-! ## Runs -/

/-- The events of a rule that is tried at `pos`, around those of its body. -/
def bracket (rule pos : Nat) (result : Option Nat) (events : List Event) : List Event :=
  ⟨rule, .active, pos, 0⟩ :: events ++ [⟨rule, .ofResult result, pos, result.getD 0⟩]

/-- `Run scheme e pos rest result nodes events`: trying `e` at `pos`, in front of the bytes
`rest`, has the given result, leaves `nodes` and passes `events`. -/
inductive Run (scheme : Scheme) : Expr Opcode → Nat → List UInt8 →
    Option Nat → List Node → List Event → Prop where
  | leaf {op pos rest result} (h : leafResult? op pos rest = some result) :
      Run scheme (.atom op) pos rest result [] []
  | rule {rule body pos rest result nodes events} (hbody : scheme.body rule = some body)
      (h : Run scheme body pos rest result nodes events) :
      Run scheme (.atom (.rnm rule)) pos rest result (scheme.wrap rule pos result nodes)
        (bracket rule pos result events)
  | altNil {pos rest} : Run scheme (.alt []) pos rest none [] []
  | altHit {e es pos rest length nodes events}
      (h : Run scheme e pos rest (some length) nodes events) :
      Run scheme (.alt (e :: es)) pos rest (some length) nodes events
  | altMiss {e es pos rest result nodes events events'}
      (h : Run scheme e pos rest none [] events)
      (h' : Run scheme (.alt es) pos rest result nodes events') :
      Run scheme (.alt (e :: es)) pos rest result nodes (events ++ events')
  | catNil {pos rest} : Run scheme (.cat []) pos rest (some 0) [] []
  | catMiss {e es pos rest events} (h : Run scheme e pos rest none [] events) :
      Run scheme (.cat (e :: es)) pos rest none [] events
  | catNext {e es pos rest length nodes events result nodes' events'}
      (h : Run scheme e pos rest (some length) nodes events)
      (h' : Run scheme (.cat es) (pos + length) (rest.drop length) result nodes' events') :
      Run scheme (.cat (e :: es)) pos rest (result.map (length + ·))
        (if result.isSome then nodes ++ nodes' else []) (events ++ events')
  | repDone {min e pos rest} :
      Run scheme (.under (.rep min (some 0)) e) pos rest (enough min 0) [] []
  | repMiss {min max e pos rest events} (hmax : max ≠ some 0)
      (h : Run scheme e pos rest none [] events) :
      Run scheme (.under (.rep min max) e) pos rest (enough min 0) [] events
  | repEmpty {min max e pos rest nodes events} (hmax : max ≠ some 0)
      (h : Run scheme e pos rest (some 0) nodes events) :
      Run scheme (.under (.rep min max) e) pos rest (enough min 1)
        (if min.toNat ≤ 1 then nodes else []) events
  | repNext {min max e pos rest length nodes events result nodes' events'} (hmax : max ≠ some 0)
      (h : Run scheme e pos rest (some (length + 1)) nodes events)
      (h' : Run scheme (.under (.rep (fewer min) (max.map fewer)) e) (pos + (length + 1))
        (rest.drop (length + 1)) result nodes' events') :
      Run scheme (.under (.rep min max) e) pos rest (result.map (length + 1 + ·))
        (if result.isSome then nodes ++ nodes' else []) (events ++ events')
  | and {e pos rest result nodes events} (h : Run scheme e pos rest result nodes events) :
      Run scheme (.under .and e) pos rest (result.map fun _ => 0) [] events
  | not {e pos rest result nodes events} (h : Run scheme e pos rest result nodes events) :
      Run scheme (.under .not e) pos rest (if result.isSome then none else some 0) [] events

namespace Run

variable {scheme : Scheme} {e : Expr Opcode} {es : List (Expr Opcode)} {pos : Nat}
  {rest : List UInt8} {result : Option Nat} {nodes : List Node} {events : List Event}

/-- A run that does not match leaves no trees. -/
theorem nodes_eq_nil (h : Run scheme e pos rest none nodes events) : nodes = [] := by
  generalize hresult : (none : Option Nat) = result at h
  induction h with
  | leaf | altNil | catNil | catMiss | repDone | repMiss | and | not => rfl
  | rule => subst hresult; rfl
  | altHit => simp at hresult
  | altMiss _ _ _ ih => exact ih hresult
  | catNext | repNext =>
    rw [eq_comm, Option.map_eq_none_iff] at hresult
    simp [hresult]
  | repEmpty =>
    rw [enough] at hresult
    split at hresult
    · simp at hresult
    · simp [*]

/-- A run has one result, one list of trees and one sequence of events. -/
theorem unique {result' : Option Nat} {nodes' : List Node} {events' : List Event}
    (h : Run scheme e pos rest result nodes events)
    (h' : Run scheme e pos rest result' nodes' events') :
    result = result' ∧ nodes = nodes' ∧ events = events' := by
  -- By induction on one run: what is tried first has the same result in the other run, which
  -- therefore ends in the same way.
  induction h generalizing result' nodes' events' with
  | leaf h =>
    cases h' with
    | leaf h' =>
      rw [h] at h'
      exact ⟨Option.some.inj h', rfl, rfl⟩
    | rule => simp [leafResult?] at h
  | rule hbody _ ih =>
    cases h' with
    | leaf h' => simp [leafResult?] at h'
    | rule hbody' h' =>
      rw [hbody] at hbody'
      cases hbody'
      obtain ⟨rfl, rfl, rfl⟩ := ih h'
      exact ⟨rfl, rfl, rfl⟩
  | altNil => cases h'; exact ⟨rfl, rfl, rfl⟩
  | altHit _ ih =>
    cases h' with
    | altHit h' => exact ih h'
    | altMiss h' => exact absurd (ih h').1 (by simp)
  | altMiss _ _ ih₁ ih₂ =>
    cases h' with
    | altHit h' => exact absurd (ih₁ h').1 (by simp)
    | altMiss h' h'' =>
      obtain ⟨-, -, rfl⟩ := ih₁ h'
      obtain ⟨rfl, rfl, rfl⟩ := ih₂ h''
      exact ⟨rfl, rfl, rfl⟩
  | catNil => cases h'; exact ⟨rfl, rfl, rfl⟩
  | catMiss _ ih =>
    cases h' with
    | catMiss h' => exact ⟨rfl, rfl, (ih h').2.2⟩
    | catNext h' => exact absurd (ih h').1 (by simp)
  | catNext _ _ ih₁ ih₂ =>
    cases h' with
    | catMiss h' => exact absurd (ih₁ h').1 (by simp)
    | catNext h' h'' =>
      obtain ⟨hlength, rfl, rfl⟩ := ih₁ h'
      cases hlength
      obtain ⟨rfl, rfl, rfl⟩ := ih₂ h''
      exact ⟨rfl, rfl, rfl⟩
  | repDone =>
    cases h' with
    | repDone => exact ⟨rfl, rfl, rfl⟩
    | repMiss hmax | repEmpty hmax | repNext hmax => exact absurd rfl hmax
  | repMiss hmax _ ih =>
    cases h' with
    | repDone => exact absurd rfl hmax
    | repMiss _ h' => exact ⟨rfl, rfl, (ih h').2.2⟩
    | repEmpty _ h' | repNext _ h' => exact absurd (ih h').1 (by simp)
  | repEmpty hmax _ ih =>
    cases h' with
    | repDone => exact absurd rfl hmax
    | repEmpty _ h' =>
      obtain ⟨-, rfl, rfl⟩ := ih h'
      exact ⟨rfl, rfl, rfl⟩
    | repMiss _ h' | repNext _ h' => exact absurd (ih h').1 (by simp)
  | repNext hmax _ _ ih₁ ih₂ =>
    cases h' with
    | repDone => exact absurd rfl hmax
    | repMiss _ h' | repEmpty _ h' => exact absurd (ih₁ h').1 (by simp)
    | repNext _ h' h'' =>
      obtain ⟨hlength, rfl, rfl⟩ := ih₁ h'
      cases hlength
      obtain ⟨rfl, rfl, rfl⟩ := ih₂ h''
      exact ⟨rfl, rfl, rfl⟩
  | and _ ih =>
    cases h' with
    | and h' =>
      obtain ⟨rfl, -, rfl⟩ := ih h'
      exact ⟨rfl, rfl, rfl⟩
  | not _ ih =>
    cases h' with
    | not h' =>
      obtain ⟨rfl, -, rfl⟩ := ih h'
      exact ⟨rfl, rfl, rfl⟩

/-! ### Lengths -/

theorem beginsWith_length {fold : UInt8 → UInt8} {chars : List UInt32} {rest : List UInt8}
    (h : beginsWith fold chars rest = true) : chars.length ≤ rest.length := by
  induction chars generalizing rest with
  | nil => simp
  | cons char chars ih =>
    cases rest with
    | nil => simp [beginsWith] at h
    | cons byte bytes =>
      simp only [beginsWith, Bool.and_eq_true] at h
      have := ih h.2
      simp only [List.length_cons]
      omega

theorem leafResult?_length {op : Opcode} {length : Nat}
    (h : leafResult? op pos rest = some (some length)) : length ≤ rest.length := by
  cases op with
  | abg | aen =>
    simp only [leafResult?, Option.some.injEq] at h
    split at h
    · cases h
      exact Nat.zero_le _
    · simp at h
  | tbs chars | tls chars =>
    obtain ⟨hbegins, rfl⟩ := literalResult_eq_some (Option.some.inj h)
    exact beginsWith_length hbegins
  | trg min max =>
    obtain ⟨rfl, byte, more, rfl, -⟩ := rangeResult_eq_some (Option.some.inj h)
    simp
  | _ => simp [leafResult?] at h

/-- A run matches no more bytes than there are. -/
theorem le_length {length : Nat} (h : Run scheme e pos rest (some length) nodes events) :
    length ≤ rest.length := by
  generalize hresult : some length = result at h
  induction h generalizing length with
  | leaf h =>
    subst hresult
    exact leafResult?_length h
  | rule _ _ ih | altHit _ ih => exact ih hresult
  | altNil | catMiss => simp at hresult
  | altMiss _ _ _ ih => exact ih hresult
  | catNil =>
    cases hresult
    exact Nat.zero_le _
  | catNext _ _ ih₁ ih₂ | repNext _ _ _ ih₁ ih₂ =>
    obtain ⟨more, rfl, rfl⟩ := Option.map_eq_some_iff.1 hresult.symm
    have h₁ := ih₁ rfl
    have h₂ := ih₂ rfl
    rw [List.length_drop] at h₂
    omega
  | repDone | repMiss | repEmpty =>
    rw [(enough_eq_some hresult.symm).2]
    exact Nat.zero_le _
  | and =>
    obtain ⟨-, -, rfl⟩ := Option.map_eq_some_iff.1 hresult.symm
    exact Nat.zero_le _
  | not =>
    split at hresult
    · simp at hresult
    · cases hresult
      exact Nat.zero_le _

/-- A run on what an input has from a position on ends in the input. -/
theorem le_size {input : Array UInt8} {length : Nat}
    (h : Run scheme e pos (input.toList.drop pos) (some length) nodes events)
    (hpos : pos ≤ input.size) : pos + length ≤ input.size := by
  have hle := h.le_length
  rw [List.length_drop, Array.length_toList] at hle
  omega

end Run

end Abnf.Engine
