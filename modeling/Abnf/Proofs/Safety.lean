import Abnf.Proofs.Compile
import Abnf.Proofs.Engine.Reentry

/-!
# Compiled grammars are safe to run

A rule that leads back to itself makes recursive descent run forever. Analysis objects to every
such rule, except where the way back passes the operand of a look-ahead, which analysis does not
look into. A compiled grammar in which look-ahead hides no way back is safe.

* `Grammar.Checked.not_openLead`: no rule of a compiled grammar leads back to itself in the open.
* `Grammar.Checked.descends`: recursive descent ends on a compiled grammar.
-/

namespace Abnf

/-! ## Rules that can be empty -/

/-- A rule can be empty if the least set of rules that are found to be empty from each other has
it. -/
def Nullable (bodies : Nat → Expr Opcode) (r : Nat) : Prop :=
  ∀ known : Nat → Bool, (∀ t, (bodies t).isNullable known = true → known t = true) →
    known r = true

open Classical in
/-- Whether a rule can be empty. -/
noncomputable def nullable (bodies : Nat → Expr Opcode) (r : Nat) : Bool :=
  decide (Nullable bodies r)

theorem Expr.isNullable_mono {known known' : Nat → Bool}
    (hle : ∀ r, known r = true → known' r = true) {e : Expr Opcode}
    (h : e.isNullable known = true) : e.isNullable known' = true := by
  induction e using Expr.induction with
  | atom op =>
    cases op with
    | rnm r => exact hle r h
    | _ => exact h
  | alt es ih =>
    obtain ⟨e, he, h⟩ := someNullable_iff.1 h
    exact someNullable_iff.2 ⟨e, he, ih e he h⟩
  | cat es ih => exact allNullable_iff.2 fun e he => ih e he (allNullable_iff.1 h e he)
  | under op e ih =>
    cases op with
    | rep min max =>
      simp only [isNullable, Bool.or_eq_true] at h ⊢
      exact h.imp_right ih
    | _ => rfl

variable {bodies : Nat → Expr Opcode}

theorem nullable_iff {r : Nat} : nullable bodies r = true ↔ Nullable bodies r := by
  simp [nullable]

theorem nullable_of_isNullable {r : Nat}
    (h : (bodies r).isNullable (nullable bodies) = true) : nullable bodies r = true := by
  refine nullable_iff.2 fun known hknown => ?_
  exact hknown r (Expr.isNullable_mono (fun t ht => nullable_iff.1 ht known hknown) h)

/-- Whether a rule can be empty depends on its expression only. -/
theorem supported_nullable : Phrases.Supported bodies (nullable bodies) := by
  intro r hr
  refine nullable_iff.1 hr (fun t => (bodies t).isNullable (nullable bodies)) fun t ht => ?_
  exact Expr.isNullable_mono (fun u hu => nullable_of_isNullable hu) ht

/-! ## Ways back -/

/-- Rule `r` can enter rule `t` before it has consumed anything. -/
def Lead (count : Nat) (bodies : Nat → Expr Opcode) (r t : Nat) : Prop :=
  r < count ∧ t ∈ (bodies r).leads (nullable bodies)

/-- Look-ahead hides no way back: a rule that can enter itself before anything has been consumed
can do so other than in the operand of a look-ahead. -/
def HidesNoWayBack (rules : Array Rule) : Prop :=
  ∃ bodies, Analysis.Tabulates rules bodies ∧ ∀ r,
    Relation.TransGen (Lead rules.size bodies) r r →
      Relation.TransGen (Recursion.OpenLead rules.size bodies (nullable bodies)) r r

/-- Whether the engine has a meaning for an opcode. -/
def Opcode.isExecutable : Opcode → Bool
  | .udt .. | .bkr .. | .bka | .bkn => false
  | _ => true

theorem Expr.isRunnable_of_atoms {known : Nat → Bool} {e : Expr Opcode} (hv : e.isValid = true)
    (hexecutable : ∀ op ∈ e.atoms, op.isExecutable = true)
    (hknown : ∀ r, .rnm r ∈ e.atoms → known r = true) : e.isRunnable known = true := by
  induction e using Expr.induction with
  | atom op =>
    have hop := hexecutable op (by simp [atoms])
    cases op with
    | rnm r => exact hknown r (by simp [atoms])
    | abg | aen | tls | tbs | trg => rfl
    | udt | bkr | bka | bkn => cases hop
    | alt | cat | rep | and | not => cases hv
  | alt es ih | cat es ih =>
    simp only [isValid, Bool.and_eq_true, allValid_iff] at hv
    refine allRunnable_iff.2 fun e he => ih e he (hv.2 e he) ?_ ?_
    · exact fun op hop => hexecutable op (mem_atomsAll.2 ⟨e, he, hop⟩)
    · exact fun r hr => hknown r (mem_atomsAll.2 ⟨e, he, hr⟩)
  | under op e ih =>
    simp only [isValid, Bool.and_eq_true] at hv
    have hop := hexecutable op (by simp [atoms])
    have he := ih hv.2 (fun op hop => hexecutable op (by simp [atoms, hop]))
      (fun r hr => hknown r (by simp [atoms, hr]))
    cases op with
    | rep | and | not => exact he
    | bka | bkn => cases hop
    | _ => cases hv.1

/-! ## Compiled grammars -/

variable {grammar : Grammar}

namespace Grammar.Checked

/-- The expressions of the rules of a grammar, as the engine is to run them. -/
def schemeOf (rules : Array Rule) (bodies : Nat → Expr Opcode) (recorded : Nat → Bool) :
    Engine.Scheme where
  body r := if r < rules.size then some (bodies r) else none
  recorded := recorded

/-- A rule that recurs first would have been objected to. -/
theorem left_eq_false (h : grammar.Checked) {r : Nat} {a : Attributes}
    (hr : r < grammar.rules.size) (ha : grammar.analysis.attributes[r]? = some a) :
    a.left = false := by
  have hrule : grammar.rules[r]? = some grammar.rules[r] := Array.getElem?_eq_getElem hr
  have hmem : (grammar.rules[r], a) ∈
      grammar.rules.toList.zip grammar.analysis.attributes.toList := by
    rw [← Array.getElem?_toList] at hrule ha
    exact List.mem_of_getElem? (List.getElem?_zip_eq_some.2 ⟨hrule, ha⟩)
  have hnone : a.faults = [] := by
    simpa using List.flatMap_eq_nil_iff.1 h.faultless _ hmem
  simp only [Attributes.faults, List.append_eq_nil_iff] at hnone
  by_contra hleft
  simp [hleft] at hnone

/-- No rule of a compiled grammar leads back to itself, other than through look-ahead. -/
theorem not_openLead (h : grammar.Checked) (hbodies : Analysis.Tabulates grammar.rules bodies)
    (r : Nat) :
    ¬ Relation.TransGen (Recursion.OpenLead grammar.rules.size bodies (nullable bodies)) r r := by
  intro hcircle
  obtain ⟨analysis, hanalyze, hknows⟩ := Analysis.analyze_spec hbodies supported_nullable
  cases h.analyzed.symm.trans hanalyze
  obtain ⟨_, hlead, -⟩ := Relation.TransGen.head'_iff.1 hcircle
  have ha : grammar.analysis.attributes[r]? = some _ :=
    Array.getElem?_eq_getElem (hknows.size.symm ▸ hlead.1)
  have hleft := hknows.left r _ ha hcircle
  rw [h.left_eq_false hlead.1 ha] at hleft
  cases hleft

/-- Recursive descent ends on a compiled grammar in which look-ahead hides no way back. -/
theorem descends (h : grammar.Checked) (hbodies : Analysis.Tabulates grammar.rules bodies)
    (hexecutable : ∀ rule ∈ grammar.rules, ∀ op ∈ rule.opcodes, op.isExecutable = true)
    (hback : ∀ r, Relation.TransGen (Lead grammar.rules.size bodies) r r →
      Relation.TransGen (Recursion.OpenLead grammar.rules.size bodies (nullable bodies)) r r)
    (recorded : Nat → Bool) :
    Engine.Descends (schemeOf grammar.rules bodies recorded) grammar.rules (nullable bodies) := by
  have hbody : ∀ {r body}, (schemeOf grammar.rules bodies recorded).body r = some body →
      r < grammar.rules.size ∧ body = bodies r := by
    intro r body heq
    simpa [schemeOf, eq_comm] using heq
  exact {
    closed := fun {r body} heq hnull => by
      obtain ⟨-, rfl⟩ := hbody heq
      exact nullable_of_isNullable hnull
    runnable := fun {r body} heq => by
      obtain ⟨hr, rfl⟩ := hbody heq
      have hrule : grammar.rules[r]? = some grammar.rules[r] := Array.getElem?_eq_getElem hr
      refine Expr.isRunnable_of_atoms (hbodies.readable r hr).1 ?_ ?_
      · intro op hop
        refine hexecutable _ (Array.getElem_mem hr) op ?_
        rw [hbodies.layout r _ hrule]
        exact List.mem_toArray.2 (Expr.mem_layoutFrom_of_mem_atoms hop 0)
      · intro t ht
        simp [schemeOf, hbodies.inRange r hr t ht]
    size := fun {r body} heq => by
      obtain ⟨hr, rfl⟩ := hbody heq
      have hrule : grammar.rules[r]? = some grammar.rules[r] := Array.getElem?_eq_getElem hr
      refine ⟨_, hrule, ?_⟩
      rw [hbodies.layout r _ hrule, Expr.size_layout]
    acyclic := fun r hcircle => by
      refine h.not_openLead hbodies r (hback r (hcircle.lift id fun a b hlead => ?_))
      obtain ⟨body, heq, hb⟩ := hlead
      obtain ⟨ha, rfl⟩ := hbody heq
      exact ⟨ha, hb⟩ }

theorem depicts {σ : Type} {rules : Array Rule} (hbodies : Analysis.Tabulates rules bodies)
    (watch : Engine.Watch σ) :
    Engine.Depicts (schemeOf rules bodies watch.recorded) rules watch := by
  refine ⟨rfl, ?_⟩
  intro r e heq
  obtain ⟨hr, rfl⟩ : r < rules.size ∧ e = bodies r := by
    simpa [schemeOf, eq_comm] using heq
  have hrule : rules[r]? = some rules[r] := Array.getElem?_eq_getElem hr
  refine ⟨_, hrule, ?_⟩
  rw [hbodies.layout r _ hrule]
  exact Expr.stands_layout (hbodies.readable r hr).1

end Grammar.Checked

theorem checked_of_compile {strict : Bool} {sources : List String}
    (h : compile strict sources = .ok (.ok grammar)) : grammar.Checked := by
  obtain ⟨outcome, heq, hchecked⟩ :=
    compileText_spec strict (joinSources (if strict then "\r\n" else "\n") "" sources)
  have hsame := heq.symm.trans h
  exact hchecked grammar (Except.ok.inj hsame)

end Abnf
