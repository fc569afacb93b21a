import Abnf.Proofs.Metagrammar.Notes

/-!
# Clean runs are proper

A run that raises no alarm never takes an error alternative, so it is also a run of the
metagrammar without them.

* `proper_of_clean`: a clean run, with the same result and trees, is proper.
-/

namespace Abnf.Metagrammar

open Engine

/-! ## Guarded choices -/

/-- Whether a symbol closes a group or an option. -/
def Symbol.isClose : Symbol → Bool
  | groupClose | optionClose => true
  | _ => false

/-- Whether a symbol for malformed text raises an alarm whenever it matches. -/
def Symbol.isLoud : Symbol → Bool
  | groupError | optionError => false
  | s => s.isError

/-- Whether a symbol can stand within a definition line. -/
def Symbol.isInner : Symbol → Bool
  | file | rule => false
  | _ => true

/-- Whether an alternative fails with an alarm only. -/
def isGate : Expr Opcode → Bool
  | .atom (.rnm r) => among Symbol.isClose r
  | _ => false

/-- Whether an alternative matches with an alarm only. -/
def isLoud : Expr Opcode → Bool
  | .atom (.rnm r) | .cat (.atom (.rnm r) :: _) => among Symbol.isLoud r
  | _ => false

mutual

/-- Whether every error alternative of an expression raises an alarm if it matches, or is tried
after an alarm only. -/
def isGuarded : Expr Opcode → Bool
  | .atom _ => true
  | .alt es => guardedAlternatives es
  | .cat es => allGuarded es
  | .under _ e => isGuarded e

/-- Whether the error alternatives among some alternatives are guarded. -/
def guardedAlternatives : List (Expr Opcode) → Bool
  | [] => true
  | e :: es =>
    if isErrorAlternative e then
      isLoud e && e.isRunnable (among Symbol.isInner) && guardedAlternatives es
    else
      isGuarded e && (isGate e || guardedAlternatives es)

/-- Whether several expressions are guarded. -/
def allGuarded : List (Expr Opcode) → Bool
  | [] => true
  | e :: es => isGuarded e && allGuarded es

end

theorem isGuarded_body (s : Symbol) : isGuarded s.body = true := by
  cases s <;> decide

section

variable {e : Expr Opcode} {pos n : Nat} {rest : List UInt8} {result : Option Nat}
  {nodes : List Node} {events : List Event}

theorem not_matches_of_isAlarm {s : Symbol} (halarm : s.isAlarm .matched = true)
    (hs : s.canBeEmpty = false) : ¬ Matches scheme Clean (ref s) pos rest n nodes := by
  intro h
  obtain ⟨-, hend, inner, ⟨events, hrun, -⟩, -⟩ := (matches_rule_iff (scheme_body s)).1 h
  cases n with
  | zero =>
    have hnull := descends.closed (scheme_body s) (hrun.isNullable descends.closed)
    simp [nullable, Symbol.ofIndex?_index, hs] at hnull
  | succ n =>
    have hclean := hend s (Symbol.ofIndex?_index s)
    simp [Phase.ofResult, halarm] at hclean

theorem not_matches_of_isLoud {s : Symbol} (hs : s.isLoud = true) :
    ¬ Matches scheme Clean (ref s) pos rest n nodes := by
  cases s with
  | prosVal =>
    intro h
    obtain ⟨-, -, inner, h, -⟩ := (matches_rule_iff (scheme_body _)).1 h
    simp only [Symbol.body, matches_cat_cons_iff] at h
    obtain ⟨_, _, _, _, -, ⟨_, _, _, _, -, ⟨_, _, _, _, hclose, -⟩, -⟩, -⟩ := h
    exact not_matches_of_isAlarm rfl rfl hclose
  | stringTab | ruleError | ruleNameError | definedAsError | lineEndError | basicElementError =>
    exact not_matches_of_isAlarm rfl rfl
  | _ => cases hs

theorem exists_symbol_of_among {p : Symbol → Bool} {r : Nat} (h : among p r = true) :
    ∃ s, r = Symbol.index s ∧ p s = true := by
  obtain ⟨s, hs, hp⟩ := (Option.any_eq_true _ _).1 h
  exact ⟨s, (index_of_ofIndex? hs).symm, hp⟩

theorem not_matches_of_loud_alternative (he : isLoud e = true) :
    ¬ Matches scheme Clean e pos rest n nodes := by
  intro h
  unfold isLoud at he
  split at he
  · obtain ⟨s, rfl, hs⟩ := exists_symbol_of_among he
    exact not_matches_of_isLoud hs h
  · obtain ⟨s, rfl, hs⟩ := exists_symbol_of_among he
    obtain ⟨_, _, _, _, hfirst, -⟩ := matches_cat_cons_iff.1 h
    exact not_matches_of_isLoud hs hfirst
  · cases he

theorem not_fails_of_isGate (he : isGate e = true) : ¬ Fails scheme Clean e pos rest := by
  intro h
  unfold isGate at he
  split at he
  · obtain ⟨s, rfl, hs⟩ := exists_symbol_of_among he
    obtain ⟨-, hend, -⟩ := (fails_rule_iff (scheme_body s)).1 h
    have hclean : s.isAlarm .failed = false := hend s (Symbol.ofIndex?_index s)
    cases s with
    | groupClose | optionClose => cases hclean
    | _ => cases hs
  · cases he

theorem not_findsRule_of_isInner (he : e.isRunnable (among Symbol.isInner) = true)
    (h : Run scheme e pos rest result nodes events) : ∀ event ∈ events, ¬ FindsRule event := by
  have hclosed : ∀ s : Symbol, s.isInner = true →
      s.body.isRunnable (among Symbol.isInner) = true := by
    intro s hs
    cases s <;> first | rfl | cases hs
  intro event hevent hfinds
  have hamong := among_of_run hclosed h he event hevent
  rw [hfinds.1] at hamong
  exact absurd hamong (by decide)

/-! ## Clean runs -/

/-- Some of the events are left, among them all that find a rule. -/
structure KeepsRules (events events' : List Event) : Prop where
  subset : ∀ event ∈ events', event ∈ events
  rules : ∀ event ∈ events, FindsRule event → event ∈ events'

namespace KeepsRules

variable {events₁ events₂ events₁' events₂' : List Event}

theorem nil : KeepsRules [] [] :=
  ⟨by simp, by simp⟩

theorem append (h₁ : KeepsRules events₁ events₁') (h₂ : KeepsRules events₂ events₂') :
    KeepsRules (events₁ ++ events₂) (events₁' ++ events₂') := by
  refine ⟨fun event hevent => ?_, fun event hevent hfinds => ?_⟩
  · rw [List.mem_append] at hevent ⊢
    exact hevent.imp (h₁.subset event) (h₂.subset event)
  · rw [List.mem_append] at hevent ⊢
    exact hevent.imp (fun h => h₁.rules event h hfinds) (fun h => h₂.rules event h hfinds)

theorem append_left (h₁ : ∀ event ∈ events₁, ¬ FindsRule event)
    (h₂ : KeepsRules events₂ events₂') : KeepsRules (events₁ ++ events₂) events₂' := by
  refine ⟨fun event hevent => List.mem_append_right _ (h₂.subset event hevent), ?_⟩
  intro event hevent hfinds
  rcases List.mem_append.1 hevent with hevent | hevent
  · exact absurd hfinds (h₁ event hevent)
  · exact h₂.rules event hevent hfinds

theorem refl : KeepsRules events events :=
  ⟨fun _ h => h, fun _ h _ => h⟩

theorem bracket (h : KeepsRules events₁ events₁') (r pos : Nat) (result : Option Nat) :
    KeepsRules (bracket r pos result events₁) (bracket r pos result events₁') :=
  append (append (@refl [_]) h) refl

end KeepsRules

/-- A clean run is one of the metagrammar without error alternatives, with the same result and
trees, and finds the same rules. -/
theorem proper_of_clean (h : Run scheme e pos rest result nodes events)
    (he : isGuarded e = true) (hclean : ∀ event ∈ events, Clean event) :
    ∃ events', Run properScheme (prune e) pos rest result nodes events' ∧
      KeepsRules events events' := by
  induction h with
  | leaf h => exact ⟨[], .leaf h, .nil⟩
  | rule hbody _ ih =>
    obtain ⟨s, hs, rfl⟩ := Option.map_eq_some_iff.1 hbody
    cases index_of_ofIndex? hs
    obtain ⟨events', hrun, hkeeps⟩ := ih (isGuarded_body s)
      fun event hevent => hclean event (by simp [bracket, hevent])
    exact ⟨_, .rule (properScheme_body s) hrun, hkeeps.bracket _ _ _⟩
  | altNil => exact ⟨[], .altNil, .nil⟩
  | altHit h ih =>
    simp only [isGuarded, guardedAlternatives] at he
    simp only [prune, pruneAlternatives]
    split at he
    · simp only [Bool.and_eq_true] at he
      exact absurd ⟨_, h, hclean⟩ (not_matches_of_loud_alternative he.1.1)
    · rename_i herror
      simp only [Bool.and_eq_true] at he
      obtain ⟨events', hrun, hkeeps⟩ := ih he.1 hclean
      rw [if_neg herror]
      exact ⟨events', .altHit hrun, hkeeps⟩
  | altMiss h _ ih₁ ih₂ =>
    simp only [isGuarded, guardedAlternatives] at he
    simp only [prune, pruneAlternatives]
    obtain ⟨hclean₁, hclean₂⟩ := List.forall_mem_append.1 hclean
    split at he
    · -- An error alternative that fails leaves no trace in the proper run.
      rename_i herror
      simp only [Bool.and_eq_true] at he
      obtain ⟨events', hrun, hkeeps⟩ := ih₂ he.2 hclean₂
      rw [if_pos herror]
      exact ⟨events', hrun, hkeeps.append_left (not_findsRule_of_isInner he.1.2 h)⟩
    · rename_i herror
      simp only [Bool.and_eq_true, Bool.or_eq_true] at he
      have hrest := he.2.resolve_left fun hgate => not_fails_of_isGate hgate ⟨_, h, hclean₁⟩
      obtain ⟨events₁, hrun₁, hkeeps₁⟩ := ih₁ he.1 hclean₁
      obtain ⟨events₂, hrun₂, hkeeps₂⟩ := ih₂ hrest hclean₂
      rw [if_neg herror]
      exact ⟨_, .altMiss hrun₁ hrun₂, hkeeps₁.append hkeeps₂⟩
  | catNil => exact ⟨[], .catNil, .nil⟩
  | catMiss _ ih =>
    simp only [isGuarded, allGuarded, Bool.and_eq_true] at he
    obtain ⟨events', hrun, hkeeps⟩ := ih he.1 hclean
    exact ⟨events', .catMiss hrun, hkeeps⟩
  | catNext _ _ ih₁ ih₂ =>
    simp only [isGuarded, allGuarded, Bool.and_eq_true] at he
    obtain ⟨hclean₁, hclean₂⟩ := List.forall_mem_append.1 hclean
    obtain ⟨events₁, hrun₁, hkeeps₁⟩ := ih₁ he.1 hclean₁
    obtain ⟨events₂, hrun₂, hkeeps₂⟩ := ih₂ he.2 hclean₂
    exact ⟨_, .catNext hrun₁ hrun₂, hkeeps₁.append hkeeps₂⟩
  | repDone => exact ⟨[], .repDone, .nil⟩
  | repMiss hmax _ ih =>
    obtain ⟨events', hrun, hkeeps⟩ := ih he hclean
    exact ⟨events', .repMiss hmax hrun, hkeeps⟩
  | repEmpty hmax _ ih =>
    obtain ⟨events', hrun, hkeeps⟩ := ih he hclean
    exact ⟨events', .repEmpty hmax hrun, hkeeps⟩
  | repNext hmax _ _ ih₁ ih₂ =>
    obtain ⟨hclean₁, hclean₂⟩ := List.forall_mem_append.1 hclean
    obtain ⟨events₁, hrun₁, hkeeps₁⟩ := ih₁ he hclean₁
    obtain ⟨events₂, hrun₂, hkeeps₂⟩ := ih₂ he hclean₂
    exact ⟨_, .repNext hmax hrun₁ hrun₂, hkeeps₁.append hkeeps₂⟩
  | and _ ih =>
    obtain ⟨events', hrun, hkeeps⟩ := ih he hclean
    exact ⟨events', .and hrun, hkeeps⟩
  | not _ ih =>
    obtain ⟨events', hrun, hkeeps⟩ := ih he hclean
    exact ⟨events', .not hrun, hkeeps⟩

end

end Abnf.Metagrammar
