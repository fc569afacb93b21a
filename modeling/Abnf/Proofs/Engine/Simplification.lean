import Abnf.Proofs.Engine.Adequacy
import Abnf.Proofs.Reduction
import Abnf.Proofs.Safety

/-!
# Reduction keeps runs

A node that stands for its only operand has just the runs of the operand, so an expression and the
simpler one have the same runs: results, trees and events. What the engine does on the tables of a
text is therefore what it does on the reduced tables.

* `run_simplify_iff`: the runs of the simpler expression are those of the expression.
* `Analysis.Tabulates.reduce`: reduction makes the table of the simpler expressions.
* `run_reduce`: matching with the tables of a text and with the reduced tables agree.
-/

namespace Abnf

namespace Expr

/-! ## Expressions with simpler parts -/

/-- An expression whose parts are simplified, but not its root. -/
def simplifyParts : Expr Opcode → Expr Opcode
  | atom op => atom op
  | alt es => alt (es.map simplify)
  | cat es => cat (es.map simplify)
  | under op e => under op e.simplify

theorem eq_alt_of_simplifyParts {e : Expr Opcode} {es' : List (Expr Opcode)}
    (h : e.simplifyParts = alt es') : ∃ es, e = alt es ∧ es.map simplify = es' := by
  cases e with
  | alt es => exact ⟨es, rfl, alt.inj h⟩
  | _ => cases h

theorem eq_cat_of_simplifyParts {e : Expr Opcode} {es' : List (Expr Opcode)}
    (h : e.simplifyParts = cat es') : ∃ es, e = cat es ∧ es.map simplify = es' := by
  cases e with
  | cat es => exact ⟨es, rfl, cat.inj h⟩
  | _ => cases h

theorem eq_under_of_simplifyParts {e e' : Expr Opcode} {op : Opcode}
    (h : e.simplifyParts = under op e') : ∃ operand, e = under op operand ∧
      operand.simplify = e' := by
  cases e with
  | under op operand =>
    cases h
    exact ⟨operand, rfl, rfl⟩
  | _ => cases h

/-- Whether the parts of an expression are valid; there may be none. -/
def hasValidParts : Expr Opcode → Bool
  | atom _ => true
  | alt es | cat es => allValid es
  | under op e => op.governsNext && isValid e

theorem hasValidParts_of_isValid {e : Expr Opcode} (h : e.isValid = true) :
    e.hasValidParts = true := by
  cases e with
  | atom op => rfl
  | alt es | cat es =>
    simp only [isValid, Bool.and_eq_true] at h
    exact h.2
  | under op e => exact h

/-- The only operator that is dropped repeats exactly once. -/
theorem eq_once_of_isRedundant {op : Opcode} (hgoverns : op.governsNext = true)
    (h : op.isRedundant = true) : op = .rep 1 (some 1) := by
  cases op with
  | rep min max =>
    simp only [Opcode.isRedundant, Bool.and_eq_true, beq_iff_eq] at h
    rw [h.1, h.2]
  | alt | cat => cases hgoverns
  | _ => cases h

end Expr

namespace Engine

open Abnf.Expr

variable {scheme scheme' : Scheme} {e : Expr Opcode} {pos : Nat} {rest : List UInt8}
  {result : Option Nat} {nodes : List Node} {events : List Event}

/-! ## Nodes that stand for their only operand -/

theorem run_alt_singleton_iff :
    Run scheme (.alt [e]) pos rest result nodes events ↔
      Run scheme e pos rest result nodes events := by
  constructor
  · intro h
    cases h with
    | altHit h => exact h
    | altMiss h h' =>
      cases h'
      simpa using h
  · intro h
    cases result with
    | some length => exact .altHit h
    | none =>
      cases h.nodes_eq_nil
      simpa using Run.altMiss h .altNil

theorem run_cat_singleton_iff :
    Run scheme (.cat [e]) pos rest result nodes events ↔
      Run scheme e pos rest result nodes events := by
  constructor
  · intro h
    cases h with
    | catMiss h => exact h
    | catNext h h' =>
      cases h'
      simpa using h
  · intro h
    cases result with
    | some length => simpa using Run.catNext h .catNil
    | none =>
      cases h.nodes_eq_nil
      exact .catMiss h

theorem run_once_iff :
    Run scheme (.under (.rep 1 (some 1)) e) pos rest result nodes events ↔
      Run scheme e pos rest result nodes events := by
  have hone : (some 1 : Option UInt32) ≠ some 0 := by decide
  constructor
  · intro h
    cases h with
    | repMiss _ h => exact h
    | repEmpty _ h => exact h
    | repNext _ h h' =>
      cases h' with
      | repDone => simpa [enough, fewer] using h
      | repMiss hmax | repEmpty hmax | repNext hmax => exact absurd rfl hmax
  · intro h
    rcases result with _ | _ | length
    · cases h.nodes_eq_nil
      exact .repMiss hone h
    · exact .repEmpty hone h
    · have hdone : Run scheme (.under (.rep (fewer 1) ((some 1 : Option UInt32).map fewer)) e)
          (pos + (length + 1)) (rest.drop (length + 1)) (enough 0 0) [] [] := .repDone
      simpa [enough] using Run.repNext hone h hdone

/-- Simplifying the root of an expression with simpler parts keeps the runs. -/
theorem run_simplifyParts_iff (hv : e.hasValidParts = true) :
    Run scheme e.simplifyParts pos rest result nodes events ↔
      Run scheme e.simplify pos rest result nodes events := by
  cases e with
  | atom op => exact Iff.rfl
  | alt es =>
    obtain ⟨e, rfl, heq, -⟩ | ⟨-, heq, -⟩ := simplify_branch es
    · rw [heq]
      exact run_alt_singleton_iff
    · rw [heq, simplifyParts]
  | cat es =>
    obtain ⟨e, rfl, -, heq⟩ | ⟨-, -, heq⟩ := simplify_branch es
    · rw [heq]
      exact run_cat_singleton_iff
    · rw [heq, simplifyParts]
  | under op e =>
    simp only [hasValidParts, Bool.and_eq_true] at hv
    rw [simplify, simplifyParts]
    split
    · rw [eq_once_of_isRedundant hv.1 ‹_›]
      exact run_once_iff
    · rfl

/-- What runs as the expression with simpler parts runs as the simpler expression. -/
theorem run_simplify
    (h : e.hasValidParts = true → Run scheme e.simplifyParts pos rest result nodes events)
    (hv : e.isValid = true) : Run scheme e.simplify pos rest result nodes events := by
  have hparts := hasValidParts_of_isValid hv
  exact (run_simplifyParts_iff hparts).1 (h hparts)

/-- What holds of the expressions with given simpler parts holds of those that are simplified to
them. -/
theorem run_of_simplify {e' : Expr Opcode}
    (h : ∀ e, e.hasValidParts = true → e.simplifyParts = e' →
      Run scheme e pos rest result nodes events)
    (hv : e.isValid = true) (heq : e.simplify = e') :
    Run scheme e pos rest result nodes events := by
  induction e using Expr.induction with
  | atom op => exact h _ rfl heq
  | alt es ih =>
    obtain ⟨e, rfl, hone, -⟩ | ⟨-, hmany, -⟩ := simplify_branch es
    · simp only [isValid, allValid, Bool.and_eq_true] at hv
      exact run_alt_singleton_iff.2 (ih e (by simp) hv.2.1 (hone.symm.trans heq))
    · exact h _ (hasValidParts_of_isValid hv) (hmany.symm.trans heq)
  | cat es ih =>
    obtain ⟨e, rfl, -, hone⟩ | ⟨-, -, hmany⟩ := simplify_branch es
    · simp only [isValid, allValid, Bool.and_eq_true] at hv
      exact run_cat_singleton_iff.2 (ih e (by simp) hv.2.1 (hone.symm.trans heq))
    · exact h _ (hasValidParts_of_isValid hv) (hmany.symm.trans heq)
  | under op e ih =>
    have hparts := hasValidParts_of_isValid hv
    simp only [isValid, Bool.and_eq_true] at hv
    rw [simplify] at heq
    split at heq
    · rw [eq_once_of_isRedundant hv.1 ‹_›]
      exact run_once_iff.2 (ih hv.2 heq)
    · exact h _ hparts heq

/-! ## Runs of simpler expressions -/

/-- A scheme has the simpler expressions of another one, whose expressions are valid. -/
structure Simplifies (scheme scheme' : Scheme) : Prop where
  body : ∀ r, scheme'.body r = (scheme.body r).map simplify
  valid : ∀ {r e}, scheme.body r = some e → e.isValid = true
  recorded : scheme'.recorded = scheme.recorded

namespace Simplifies

variable (hsimplifies : Simplifies scheme scheme')
include hsimplifies

/-- A run of an expression is a run of the simpler one. -/
theorem run_simplifyParts (h : Run scheme e pos rest result nodes events)
    (hv : e.hasValidParts = true) :
    Run scheme' e.simplifyParts pos rest result nodes events := by
  induction h with
  | leaf h => exact .leaf h
  | @rule r body pos rest result nodes events hbody _ ih =>
    have hwrap : scheme'.wrap r pos result nodes = scheme.wrap r pos result nodes := by
      simp only [Scheme.wrap, hsimplifies.recorded]
    have hbody' : scheme'.body r = some body.simplify := by
      rw [hsimplifies.body, hbody, Option.map_some]
    rw [← hwrap]
    exact .rule hbody' (run_simplify ih (hsimplifies.valid hbody))
  | altNil => exact .altNil
  | altHit _ ih =>
    simp only [hasValidParts, allValid, Bool.and_eq_true] at hv
    exact .altHit (run_simplify ih hv.1)
  | altMiss _ _ ih ih' =>
    simp only [hasValidParts, allValid, Bool.and_eq_true] at hv
    exact .altMiss (run_simplify ih hv.1) (ih' hv.2)
  | catNil => exact .catNil
  | catMiss _ ih =>
    simp only [hasValidParts, allValid, Bool.and_eq_true] at hv
    exact .catMiss (run_simplify ih hv.1)
  | catNext _ _ ih ih' =>
    simp only [hasValidParts, allValid, Bool.and_eq_true] at hv
    exact .catNext (run_simplify ih hv.1) (ih' hv.2)
  | repDone => exact .repDone
  | repMiss hmax _ ih =>
    simp only [hasValidParts, Bool.and_eq_true] at hv
    exact .repMiss hmax (run_simplify ih hv.2)
  | repEmpty hmax _ ih =>
    simp only [hasValidParts, Bool.and_eq_true] at hv
    exact .repEmpty hmax (run_simplify ih hv.2)
  | repNext hmax _ _ ih ih' =>
    simp only [hasValidParts, Bool.and_eq_true] at hv
    exact .repNext hmax (run_simplify ih hv.2)
      (ih' (by simp [hasValidParts, Opcode.governsNext, hv.2]))
  | and _ ih =>
    simp only [hasValidParts, Bool.and_eq_true] at hv
    exact .and (run_simplify ih hv.2)
  | not _ ih =>
    simp only [hasValidParts, Bool.and_eq_true] at hv
    exact .not (run_simplify ih hv.2)

/-- A run of an expression with simpler parts is a run of the expression. -/
theorem run_of_simplifyParts (hv : e.hasValidParts = true)
    (h : Run scheme' e.simplifyParts pos rest result nodes events) :
    Run scheme e pos rest result nodes events := by
  -- By induction on the run of the simpler expression, whose operator is that of the expression.
  -- What holds of a simpler part holds of the part by `run_of_simplify`.
  generalize heq : e.simplifyParts = e' at h
  induction h generalizing e with
  | leaf h =>
    cases e with
    | atom op => cases heq; exact .leaf h
    | _ => cases heq
  | @rule r body' pos rest result nodes events hbody' _ ih =>
    cases e with
    | atom op =>
      cases heq
      rw [hsimplifies.body, Option.map_eq_some_iff] at hbody'
      obtain ⟨body, hbody, rfl⟩ := hbody'
      have hwrap : scheme'.wrap r pos result nodes = scheme.wrap r pos result nodes := by
        simp only [Scheme.wrap, hsimplifies.recorded]
      rw [hwrap]
      exact .rule hbody (run_of_simplify (fun _ => ih) (hsimplifies.valid hbody) rfl)
    | _ => cases heq
  | altNil =>
    obtain ⟨es, rfl, hparts⟩ := eq_alt_of_simplifyParts heq
    rw [List.map_eq_nil_iff.1 hparts]
    exact .altNil
  | altHit _ ih =>
    obtain ⟨es, rfl, hparts⟩ := eq_alt_of_simplifyParts heq
    obtain ⟨e, es, rfl, he, -⟩ := List.map_eq_cons_iff.1 hparts
    simp only [hasValidParts, allValid, Bool.and_eq_true] at hv
    exact .altHit (run_of_simplify (fun _ => ih) hv.1 he)
  | altMiss _ _ ih ih' =>
    obtain ⟨es, rfl, hparts⟩ := eq_alt_of_simplifyParts heq
    obtain ⟨e, es, rfl, he, hes⟩ := List.map_eq_cons_iff.1 hparts
    simp only [hasValidParts, allValid, Bool.and_eq_true] at hv
    exact .altMiss (run_of_simplify (fun _ => ih) hv.1 he) (ih' hv.2 (congrArg Expr.alt hes))
  | catNil =>
    obtain ⟨es, rfl, hparts⟩ := eq_cat_of_simplifyParts heq
    rw [List.map_eq_nil_iff.1 hparts]
    exact .catNil
  | catMiss _ ih =>
    obtain ⟨es, rfl, hparts⟩ := eq_cat_of_simplifyParts heq
    obtain ⟨e, es, rfl, he, -⟩ := List.map_eq_cons_iff.1 hparts
    simp only [hasValidParts, allValid, Bool.and_eq_true] at hv
    exact .catMiss (run_of_simplify (fun _ => ih) hv.1 he)
  | catNext _ _ ih ih' =>
    obtain ⟨es, rfl, hparts⟩ := eq_cat_of_simplifyParts heq
    obtain ⟨e, es, rfl, he, hes⟩ := List.map_eq_cons_iff.1 hparts
    simp only [hasValidParts, allValid, Bool.and_eq_true] at hv
    exact .catNext (run_of_simplify (fun _ => ih) hv.1 he) (ih' hv.2 (congrArg Expr.cat hes))
  | repDone =>
    obtain ⟨e, rfl, -⟩ := eq_under_of_simplifyParts heq
    exact .repDone
  | repMiss hmax _ ih =>
    obtain ⟨e, rfl, he⟩ := eq_under_of_simplifyParts heq
    simp only [hasValidParts, Bool.and_eq_true] at hv
    exact .repMiss hmax (run_of_simplify (fun _ => ih) hv.2 he)
  | repEmpty hmax _ ih =>
    obtain ⟨e, rfl, he⟩ := eq_under_of_simplifyParts heq
    simp only [hasValidParts, Bool.and_eq_true] at hv
    exact .repEmpty hmax (run_of_simplify (fun _ => ih) hv.2 he)
  | repNext hmax _ _ ih ih' =>
    obtain ⟨e, rfl, he⟩ := eq_under_of_simplifyParts heq
    simp only [hasValidParts, Bool.and_eq_true] at hv
    exact .repNext hmax (run_of_simplify (fun _ => ih) hv.2 he)
      (ih' (by simp [hasValidParts, Opcode.governsNext, hv.2]) (congrArg (Expr.under _) he))
  | and _ ih =>
    obtain ⟨e, rfl, he⟩ := eq_under_of_simplifyParts heq
    simp only [hasValidParts, Bool.and_eq_true] at hv
    exact .and (run_of_simplify (fun _ => ih) hv.2 he)
  | not _ ih =>
    obtain ⟨e, rfl, he⟩ := eq_under_of_simplifyParts heq
    simp only [hasValidParts, Bool.and_eq_true] at hv
    exact .not (run_of_simplify (fun _ => ih) hv.2 he)

/-- The runs of the simpler expression are those of the expression. -/
theorem run_simplify_iff (hv : e.isValid = true) :
    Run scheme' e.simplify pos rest result nodes events ↔
      Run scheme e pos rest result nodes events := by
  have hparts := hasValidParts_of_isValid hv
  rw [← run_simplifyParts_iff hparts]
  exact ⟨hsimplifies.run_of_simplifyParts hparts, fun h => hsimplifies.run_simplifyParts h hparts⟩

end Simplifies

end Engine

/-! ## Reduced tables -/

/-- Reduction makes the table of the simpler expressions. -/
theorem Analysis.Tabulates.reduce {rules : Array Rule} {bodies : Nat → Expr Opcode}
    (h : Tabulates rules bodies) :
    ∃ reduced, Reduction.reduce rules = .ok reduced ∧ reduced.size = rules.size ∧
      Tabulates reduced fun r => (bodies r).simplify := by
  have hrule : ∀ (r : Nat) rule, rules[r]? = some rule →
      Reduction.reduceRule rule = .ok { rule with opcodes := (bodies r).simplify.layout } := by
    intro r rule hr
    have hvalid := (h.readable r (Array.getElem?_eq_some_iff.1 hr).1).1
    simp only [Reduction.reduceRule, h.layout r rule hr, Reduction.reduceOpcodes_layout hvalid,
      bind, Except.bind, pure, Except.pure]
  have hreduced : ∀ rule ∈ rules.toList, ∃ reduced, Reduction.reduceRule rule = .ok reduced := by
    intro rule hmem
    obtain ⟨r, hr⟩ := Array.getElem?_of_mem (Array.mem_toList_iff.1 hmem)
    exact ⟨_, hrule r rule hr⟩
  choose! reduced heq using hreduced
  have hsize : (rules.map reduced).size = rules.size := Array.size_map
  refine ⟨rules.map reduced, ?_, hsize, ?_, ?_, ?_⟩
  · rw [Reduction.reduce, Array.mapM_eq_mapM_toList, mapM_eq_ok heq, ← Array.toList_map]
    rfl
  · intro r rule hr
    rw [Array.getElem?_map] at hr
    obtain ⟨old, hold, rfl⟩ := Option.map_eq_some_iff.1 hr
    have hmem := Array.mem_toList_iff.2 (Array.mem_of_getElem? hold)
    rw [Except.ok.inj ((heq old hmem).symm.trans (hrule r old hold))]
  · intro r hr
    obtain ⟨hvalid, hnonempty⟩ := h.readable r (hsize ▸ hr)
    exact ⟨Expr.isValid_simplify hvalid, fun hmem => hnonempty (Expr.mem_atoms_simplify hmem)⟩
  · intro r hr t ht
    rw [hsize]
    exact h.inRange r (hsize ▸ hr) t (Expr.mem_atoms_simplify ht)

namespace Engine

open Grammar.Checked

variable {rules reduced : Array Rule} {bodies : Nat → Expr Opcode}

theorem covers_schemeOf (recorded : Nat → Bool) :
    Covers (schemeOf rules bodies recorded) rules := by
  intro r hr
  simp [schemeOf, hr]

theorem simplifies_schemeOf (h : Analysis.Tabulates rules bodies)
    (hsize : reduced.size = rules.size) (recorded : Nat → Bool) :
    Simplifies (schemeOf rules bodies recorded)
      (schemeOf reduced (fun r => (bodies r).simplify) recorded) := by
  refine ⟨fun r => ?_, ?_, rfl⟩
  · by_cases hr : r < rules.size <;> simp [schemeOf, hsize, hr]
  · intro r e heq
    obtain ⟨hr, rfl⟩ : r < rules.size ∧ e = bodies r := by
      simpa [schemeOf, eq_comm] using heq
    exact (h.readable r hr).1

/-- The engine finds the same with a table and with the table of the simpler expressions. -/
theorem run_simplify_eq_ok_iff {σ : Type} (h : Analysis.Tabulates rules bodies)
    (h' : Analysis.Tabulates reduced fun r => (bodies r).simplify)
    (hsize : reduced.size = rules.size) (watch : Watch σ) (start : Nat) (input : Array UInt8)
    (init : σ) (found : Match σ) :
    Engine.run reduced watch start input init = .ok found ↔
      Engine.run rules watch start input init = .ok found := by
  have hsimplifies := simplifies_schemeOf h hsize watch.recorded
  have hvalid : (Expr.atom (Opcode.rnm start)).isValid = true := rfl
  rw [(depicts h' watch).run_eq_ok_iff (covers_schemeOf _),
    (depicts h watch).run_eq_ok_iff (covers_schemeOf _)]
  refine exists_congr fun result => exists_congr fun nodes => exists_congr fun events => ?_
  exact and_congr_left fun _ => hsimplifies.run_simplify_iff hvalid

theorem exists_mapM_fetch_iff {α : Type} {table : Array α} {indices : List Nat} :
    (∃ entries, indices.mapM (fetch table) = .ok entries) ↔ ∀ i ∈ indices, i < table.size := by
  induction indices with
  | nil => simp [pure, Except.pure]
  | cons i indices ih =>
    rw [List.forall_mem_cons, ← ih, List.mapM_cons]
    cases hi : fetch table i with
    | error fault =>
      have hout : ¬ i < table.size := by
        intro hlt
        rw [fetch_eq_ok.2 (Array.getElem?_eq_getElem hlt)] at hi
        cases hi
      simp [hout, bind, Except.bind]
    | ok entry =>
      have hlt := (Array.getElem?_eq_some_iff.1 (fetch_eq_ok.1 hi)).1
      cases indices.mapM (fetch table) <;> simp [hlt, bind, Except.bind, pure, Except.pure]

theorem trace_eq_ok_iff {recorded observed : List Nat} {start : Nat} {input : Array UInt8}
    {found : Match (Array Event)} :
    trace rules recorded observed start input = .ok found ↔
      (∀ i ∈ observed, i < rules.size) ∧ (∀ i ∈ recorded, i < rules.size) ∧
        Engine.run rules (Watch.log recorded observed) start input #[] = .ok found := by
  rw [← exists_mapM_fetch_iff, ← exists_mapM_fetch_iff, trace]
  cases observed.mapM (fetch rules) <;> cases recorded.mapM (fetch rules) <;>
    simp [bind, Except.bind]

end Engine

/-- Reduction keeps what the tables of a text match. With the tables of a text without flaws of
meaning and with the reduced tables, matching ends or not alike, and it finds the same length,
records and events. The depth that the engine allows cuts neither of them short: what ends within
any depth is found. -/
theorem run_reduce {source : Source} {strict : Bool} {recognition : Metagrammar.Recognition}
    (hrecognize : Metagrammar.recognize source strict = .ok recognition)
    (hflaws : (Tables.ofRecognition source recognition).flaws = []) :
    ∃ reduced, Reduction.reduce (Tables.ofRecognition source recognition).rules = .ok reduced ∧
      (∀ (recorded observed : List Nat) (start : Nat) (input : Array UInt8)
          (found : Engine.Match (Array Engine.Event)),
        Engine.trace reduced recorded observed start input = .ok found ↔
          Engine.trace (Tables.ofRecognition source recognition).rules recorded observed start
            input = .ok found) ∧
      (∀ (σ : Type) (watch : Engine.Watch σ) (start : Nat) (input : Array UInt8) (init : σ)
          (found : Engine.Match σ),
        Engine.run reduced watch start input init = .ok found ↔
          Engine.run (Tables.ofRecognition source recognition).rules watch start input init =
            .ok found) ∧
      ∀ rules ∈ [(Tables.ofRecognition source recognition).rules, reduced],
        ∀ (σ : Type) (watch : Engine.Watch σ) (start depth : Nat) (input : Array UInt8) (init : σ)
          (out : Engine.Outcome σ), start < rules.size →
        Engine.enterRule watch start 0 (Engine.evaluate rules watch input depth start 0 0)
            ⟨#[], init⟩ = .ok out →
          Engine.run rules watch start input init = .ok ⟨out.1, out.2.records, out.2.observed⟩ := by
  obtain ⟨bodies, hbodies, -⟩ := (tabled_ofRecognition hrecognize hflaws).exists_tabulates
  obtain ⟨reduced, hreduce, hsize, hreduced⟩ := hbodies.reduce
  refine ⟨reduced, hreduce, ?_, ?_, ?_⟩
  · intro recorded observed start input found
    rw [Engine.trace_eq_ok_iff, Engine.trace_eq_ok_iff, hsize,
      Engine.run_simplify_eq_ok_iff hbodies hreduced hsize]
  · intro σ watch
    exact Engine.run_simplify_eq_ok_iff hbodies hreduced hsize watch
  · intro rules hrules σ watch start depth input init out hstart hok
    have hend : ∀ {rules : Array Rule} {bodies : Nat → Expr Opcode},
        Analysis.Tabulates rules bodies → start < rules.size →
        Engine.enterRule watch start 0 (Engine.evaluate rules watch input depth start 0 0)
          ⟨#[], init⟩ = .ok out →
        Engine.run rules watch start input init =
          .ok ⟨out.1, out.2.records, out.2.observed⟩ := fun h hstart hok =>
      ((Grammar.Checked.depicts h watch).run_eq_of_enterRule (Engine.covers_schemeOf _) hstart
        hok).2
    rcases List.mem_pair.1 hrules with rfl | rfl
    · exact hend hbodies hstart hok
    · exact hend hreduced hstart hok

/-- What stands in the brackets of `S = [("a" S)]` moves up past the nodes that are dropped. -/
theorem run_reduce_nested :
    ∃ recognition reduced found,
      Metagrammar.recognize (.ofString "S = [(\"a\" S)]\n") false = .ok recognition ∧
      (Tables.ofRecognition (.ofString "S = [(\"a\" S)]\n") recognition).flaws = [] ∧
      Reduction.reduce (Tables.ofRecognition (.ofString "S = [(\"a\" S)]\n") recognition).rules =
        .ok reduced ∧
      Engine.trace reduced [0] [0] 0 #[97] = .ok found ∧ found.matched = some 1 ∧
      found.observed =
        #[⟨0, .active, 0, 0⟩, ⟨0, .active, 1, 0⟩, ⟨0, .empty, 1, 0⟩, ⟨0, .matched, 0, 1⟩] := by
  have hstages : (Metagrammar.read? (.ofString "S = [(\"a\" S)]\n") false).any (fun found =>
      let tables := Tables.ofDefinitions
        (Definition.ofForest (.ofString "S = [(\"a\" S)]\n") found.2)
      found.1 = [] ∧ tables.flaws = [] ∧
        (Engine.trace tables.rules [0] [0] 0 #[97]).toOption.map (fun found =>
          (found.matched, found.observed)) = some (some 1,
            #[⟨0, .active, 0, 0⟩, ⟨0, .active, 1, 0⟩, ⟨0, .empty, 1, 0⟩, ⟨0, .matched, 0, 1⟩])) =
      true := by
    decide +kernel
  generalize Source.ofString "S = [(\"a\" S)]\n" = source at hstages ⊢
  obtain ⟨⟨flaws, nodes⟩, hread, hstages⟩ := (Option.any_eq_true ..).1 hstages
  simp only [decide_eq_true_eq] at hstages
  obtain ⟨rfl, hflaws, htrace⟩ := hstages
  obtain ⟨recognition, hrecognize, -, htables⟩ := Metagrammar.ofRecognition_of_read? hread
  rw [← htables] at hflaws htrace
  obtain ⟨found, htrace, hfound⟩ := Option.map_eq_some_iff.1 htrace
  obtain ⟨hmatched, hobserved⟩ := Prod.mk.inj hfound
  obtain ⟨reduced, hreduce, hsame, -⟩ := run_reduce hrecognize hflaws
  exact ⟨recognition, reduced, found, hrecognize, hflaws, hreduce,
    (hsame _ _ _ _ _).2 (eq_ok_of_toOption htrace), hmatched, hobserved⟩

end Abnf
