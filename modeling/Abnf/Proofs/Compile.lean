import Abnf.Compile
import Abnf.Proofs.Analysis.Recursion
import Abnf.Proofs.Metagrammar.Reading
import Abnf.Proofs.Metagrammar.Trial

/-!
# Compiling never meets a fault

Whatever the sources, every stage of compiling ends: recognition because the metagrammar descends,
and the later stages because the tables they work on are well formed.

* `tabled_ofRecognition`: a text without flaws of meaning has well-formed tables.
* `compile_total`: compiling gives a grammar or objections, never a fault.
-/

namespace Abnf

/-! ## Stages -/

/-- A text that means something has no flaws of structure. -/
theorem Tables.recognition_flaws {source : Source} {recognition : Metagrammar.Recognition}
    (hflaws : (Tables.ofRecognition source recognition).flaws = []) : recognition.flaws = [] := by
  unfold Tables.ofRecognition at hflaws
  split at hflaws
  · rename_i hempty
    rwa [List.isEmpty_iff] at hempty
  · simp at hflaws

/-- A text without flaws of meaning has well-formed tables. -/
theorem tabled_ofRecognition {source : Source} {strict : Bool}
    {recognition : Metagrammar.Recognition}
    (hrecognize : Metagrammar.recognize source strict = .ok recognition)
    (hflaws : (Tables.ofRecognition source recognition).flaws = []) :
    Tabled (Tables.ofRecognition source recognition).rules
      (Tables.ofRecognition source recognition).udts := by
  have hrecognized := Tables.recognition_flaws hflaws
  have heq : Tables.ofRecognition source recognition =
      Tables.ofDefinitions (Definition.ofForest source recognition.records.forest) := by
    simp [Tables.ofRecognition, hrecognized]
  rw [heq] at hflaws ⊢
  exact Tables.tabled_ofDefinitions
    (Metagrammar.sound_ofRecognition hrecognize hrecognized) hflaws

/-- The rules of well-formed tables are the layouts of readable expressions. -/
theorem Tabled.exists_tabulates {rules : Array Rule} {udts : Array Udt} (h : Tabled rules udts) :
    ∃ bodies, Analysis.Tabulates rules bodies ∧
      ∀ r < rules.size, ∀ op ∈ (bodies r).atoms, op.Fits rules.size udts := by
  have hbody : ∀ r : Nat, ∃ e : Expr Opcode, ∀ rule : Rule, rules[r]? = some rule →
      rule.opcodes = e.layout ∧ e.isValid = true ∧ ∀ op ∈ e.atoms, op.Fits rules.size udts := by
    intro r
    cases hr : rules[r]? with
    | none => exact ⟨.alt [], by simp⟩
    | some rule =>
      obtain ⟨e, he⟩ := h.body rule (Array.mem_of_getElem? hr)
      refine ⟨e, fun rule' hrule' => ?_⟩
      cases hrule'
      exact he
  choose bodies hbodies using hbody
  have hget : ∀ r, r < rules.size → ∃ rule, rules[r]? = some rule :=
    fun r hr => ⟨_, Array.getElem?_eq_getElem hr⟩
  refine ⟨bodies, ⟨fun r rule hr => (hbodies r rule hr).1, ?_, ?_⟩, ?_⟩
  · intro r hr
    obtain ⟨rule, hrule⟩ := hget r hr
    obtain ⟨-, hvalid, hfits⟩ := hbodies r rule hrule
    exact ⟨hvalid, fun hmem => hfits _ hmem rfl⟩
  · intro r hr t ht
    obtain ⟨rule, hrule⟩ := hget r hr
    exact (hbodies r rule hrule).2.2 _ ht
  · intro r hr
    obtain ⟨rule, hrule⟩ := hget r hr
    exact (hbodies r rule hrule).2.2

/-- Analysis of well-formed tables ends. -/
theorem Tabled.exists_analysis {rules : Array Rule} {udts : Array Udt} (h : Tabled rules udts) :
    ∃ analysis, Analysis.analyze rules = .ok analysis := by
  obtain ⟨bodies, hbodies, -⟩ := h.exists_tabulates
  have hnone : Phrases.Supported bodies fun _ => false := fun _ hr => absurd hr (by simp)
  obtain ⟨analysis, heq, -⟩ := Analysis.analyze_spec hbodies hnone
  exact ⟨analysis, heq⟩

/-! ## Compiling -/

/-- What is known of a grammar that was compiled: its tables are well formed, and analysis finds no
fault with them. -/
structure Grammar.Checked (grammar : Grammar) : Prop where
  tabled : Tabled grammar.rules grammar.udts
  analyzed : Analysis.analyze grammar.rules = .ok grammar.analysis
  faultless : grammar.analysis.faultyRules grammar.rules = []

/-- Compiling a text gives a grammar or objections, never a fault. -/
theorem compileText_spec (strict : Bool) (text : String) :
    ∃ outcome, compileText strict text = .ok outcome ∧
      ∀ grammar, outcome = .ok grammar → grammar.Checked := by
  obtain ⟨recognition, hrecognize⟩ := Metagrammar.exists_recognition (.ofString text) strict
  simp only [compileText, hrecognize, bind, Except.bind]
  split
  · exact ⟨_, rfl, by simp⟩
  split
  · exact ⟨_, rfl, by simp⟩
  split
  · exact ⟨_, rfl, by simp⟩
  rename_i hmeaning
  have hflaws : (Tables.ofRecognition (.ofString text) recognition).flaws = [] := by
    simpa [Tables.diagnostics] using hmeaning
  obtain ⟨reduced, hreduce, htabled⟩ := (tabled_ofRecognition hrecognize hflaws).reduce
  obtain ⟨analysis, hanalyze⟩ := htabled.exists_analysis
  simp only [hreduce, hanalyze]
  split
  · exact ⟨_, rfl, by simp⟩
  · rename_i hfaulty
    refine ⟨_, rfl, fun grammar hgrammar => ?_⟩
    cases hgrammar
    exact ⟨htabled, hanalyze, by simpa using hfaulty⟩

/-- What the stages find in a text that compiles. -/
theorem exists_stages_of_compileText {strict : Bool} {text : String} {grammar : Grammar}
    (h : compileText strict text = .ok (.ok grammar)) :
    (Source.ofString text).characterDiagnostics strict = [] ∧
      ∃ recognition rules analysis,
        Metagrammar.recognize (.ofString text) strict = .ok recognition ∧
        recognition.flaws = [] ∧
        Reduction.reduce (Tables.ofRecognition (.ofString text) recognition).rules = .ok rules ∧
        Analysis.analyze rules = .ok analysis ∧
        grammar =
          ⟨rules, (Tables.ofRecognition (.ofString text) recognition).udts, analysis, text⟩ := by
  obtain ⟨recognition, hrecognize⟩ := Metagrammar.exists_recognition (.ofString text) strict
  simp only [compileText, hrecognize, bind, Except.bind] at h
  -- A stage that objects would have ended the compilation.
  split at h
  · cases h
  split at h
  · cases h
  rename_i hcharacters hform
  split at h
  · cases h
  obtain ⟨rules, hreduce, h⟩ := exists_of_bind_eq_ok h
  obtain ⟨analysis, hanalyze, h⟩ := exists_of_bind_eq_ok h
  split at h
  · cases h
  cases h
  exact ⟨by simpa using hcharacters, recognition, rules, analysis, hrecognize,
    by simpa [Metagrammar.Recognition.diagnostics] using hform, hreduce, hanalyze, rfl⟩

theorem compile_singleton {strict : Bool} {text : String} :
    compile strict [text] = compileText strict text := by
  rw [compile, joinSources, String.empty_append]

/-- A text that no stage objects to is compiled to what its last stages find. -/
theorem compileText_eq_ok {strict : Bool} {text : String} {recognition : Metagrammar.Recognition}
    {rules : Array Rule} {analysis : Analysis}
    (hcharacters : (Source.ofString text).characterDiagnostics strict = [])
    (hrecognize : Metagrammar.recognize (.ofString text) strict = .ok recognition)
    (hmeaning : (Tables.ofRecognition (.ofString text) recognition).flaws = [])
    (hreduce : Reduction.reduce (Tables.ofRecognition (.ofString text) recognition).rules =
      .ok rules)
    (hanalyze : Analysis.analyze rules = .ok analysis)
    (hfaultless : analysis.faultyRules rules = []) :
    compileText strict text = .ok (.ok
      ⟨rules, (Tables.ofRecognition (.ofString text) recognition).udts, analysis, text⟩) := by
  have hform := Tables.recognition_flaws hmeaning
  simp only [compileText, hcharacters, hrecognize, hreduce, hanalyze, hfaultless, bind, Except.bind,
    Metagrammar.Recognition.diagnostics, hform, Tables.diagnostics, hmeaning, List.map_nil,
    List.isEmpty_nil, Bool.not_true, Bool.false_eq_true, if_false]
  rfl

/-- The grammar of a text, if the trial of the text ends and no stage objects. -/
def grammar? (strict : Bool) (text : String) : Option Grammar := do
  guard ((Source.ofString text).characterDiagnostics strict = [])
  let (flaws, nodes) ← Metagrammar.read? (.ofString text) strict
  guard (flaws = [])
  let tables := Tables.ofDefinitions (Definition.ofForest (.ofString text) nodes)
  guard (tables.flaws = [])
  let rules ← (Reduction.reduce tables.rules).toOption
  let analysis ← (Analysis.analyze rules).toOption
  guard (analysis.faultyRules rules = [])
  return ⟨rules, tables.udts, analysis, text⟩

/-- A text is compiled to the grammar that the trial finds. -/
theorem compile_of_grammar? {strict : Bool} {text : String} {grammar : Grammar}
    (h : grammar? strict text = some grammar) : compile strict [text] = .ok (.ok grammar) := by
  simp only [grammar?, Option.bind_eq_bind, Option.bind_eq_some_iff, Option.guard_eq_some',
    Option.pure_def, Option.some.injEq] at h
  obtain ⟨-, hcharacters, ⟨flaws, nodes⟩, hread, -, hflaws, -, hmeaning, rules, hreduce, analysis,
    hanalyze, -, hfaultless, rfl⟩ := h
  obtain rfl : flaws = [] := hflaws
  obtain ⟨recognition, hrecognize, -, htables⟩ := Metagrammar.ofRecognition_of_read? hread
  rw [← htables] at hmeaning hreduce ⊢
  rw [compile_singleton]
  exact compileText_eq_ok hcharacters hrecognize hmeaning (eq_ok_of_toOption hreduce)
    (eq_ok_of_toOption hanalyze) hfaultless

/-- The grammar of one rule that matches the empty phrase. -/
def emptyPhrase : Grammar where
  rules := #[⟨"A", 0, #[.tls []]⟩]
  udts := #[]
  analysis := ⟨#[⟨.nonRecursive, none, #[0]⟩], #[.ofPhrases true true false], #[]⟩
  source := "A=\"\"\n"

theorem compile_emptyPhrase : compile false ["A=\"\"\n"] = .ok (.ok emptyPhrase) := by
  refine compile_of_grammar? ?_
  decide +kernel

/-- Compiling never meets a fault, and neither does trying the file symbol, which always matches.
If a text has no flaws of meaning, then each of its lines was read, and its tables are well formed,
before and after reduction. -/
theorem compile_total :
    (∀ strict sources, ∃ outcome, compile strict sources = .ok outcome) ∧
      (∀ (source : Source) strict, ∃ found,
        Engine.run Metagrammar.rules Metagrammar.watch Metagrammar.Symbol.file.index source.bytes
          { strict := strict } = .ok found ∧ found.matched.isSome = true) ∧
      ∀ (source : Source) strict, ∃ recognition,
        Metagrammar.recognize source strict = .ok recognition ∧
        ((Tables.ofRecognition source recognition).flaws = [] →
          (∀ line ∈ recognition.records.forest.flatMap Node.children,
            (Definition.ofNode? source line).isSome = true) ∧
          WellFormed (Tables.ofRecognition source recognition).rules
            (Tables.ofRecognition source recognition).udts ∧
          ∃ reduced,
            Reduction.reduce (Tables.ofRecognition source recognition).rules = .ok reduced ∧
            WellFormed reduced (Tables.ofRecognition source recognition).udts) := by
  refine ⟨?_, Metagrammar.matched_file, ?_⟩
  · intro strict sources
    obtain ⟨outcome, heq, -⟩ :=
      compileText_spec strict (joinSources (if strict then "\r\n" else "\n") "" sources)
    exact ⟨outcome, heq⟩
  · intro source strict
    obtain ⟨_, _, _, -, hrecognize⟩ := Metagrammar.recognize_eq source strict
    refine ⟨_, hrecognize, fun hflaws => ⟨fun line hline => ?_, ?_⟩⟩
    · obtain ⟨definition, hread, -⟩ := Metagrammar.isLine_ofRecognition hrecognize
        (Tables.recognition_flaws hflaws) line hline
      simp [hread]
    · have htabled := tabled_ofRecognition hrecognize hflaws
      obtain ⟨reduced, hreduce, hreduced⟩ := htabled.reduce
      exact ⟨htabled.wellFormed, reduced, hreduce, hreduced.wellFormed⟩

end Abnf
