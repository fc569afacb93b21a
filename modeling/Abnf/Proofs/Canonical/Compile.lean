import Abnf.Proofs.Canonical.RoundTrip
import Abnf.Proofs.Compile

/-!
# Compiling canonical texts

The canonical text of a grammar has no flaws of structure or meaning, and its tables are known. So
what it compiles to is known as soon as the last two stages are: reduction and analysis work on the
tables alone, and no text has to be recognized to follow them.

* `compile_print`: what a canonical text is compiled to.
-/

namespace Abnf.Canonical

variable {lines : List Line} {rules : Array Rule} {analysis : Analysis}

/-- A canonical text is compiled to its tables, reduced, if analysis has nothing to object to. -/
theorem compile_print (hne : lines ≠ []) (hclosed : isClosed lines = true)
    (hreduce : Reduction.reduce (ruleTable lines).toArray = .ok rules)
    (hanalyze : Analysis.analyze rules = .ok analysis)
    (hfaultless : analysis.faultyRules rules = []) :
    compile false [print lines] =
      .ok (.ok ⟨rules, (udtTable lines).toArray, analysis, print lines⟩) := by
  obtain ⟨recognition, hrecognize, htables⟩ := exists_recognition_print lines hne hclosed
  rw [compile_singleton, compileText_eq_ok (characterDiagnostics_print lines) hrecognize
    (by rw [htables]) (by rw [htables]; exact hreduce) hanalyze hfaultless, htables]

theorem exists_compile_print (lines : List Line) (text : String) (hne : lines ≠ [])
    (hclosed : isClosed lines = true)
    (hreduce : Reduction.reduce (ruleTable lines).toArray = .ok rules)
    (hfaultless : ∃ analysis, Analysis.analyze rules = .ok analysis ∧
      analysis.faultyRules rules = []) (htext : print lines = text) :
    ∃ grammar, compile false [text] = .ok (.ok grammar) ∧ grammar.rules = rules := by
  obtain ⟨analysis, hanalyze, hfaultless⟩ := hfaultless
  rw [← htext]
  exact ⟨_, compile_print hne hclosed hreduce hanalyze hfaultless, rfl⟩

end Abnf.Canonical
