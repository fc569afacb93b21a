import Abnf.Proofs.Engine.Traversal
import Abnf.Proofs.Metagrammar.Reading
import Abnf.Proofs.Translation.Lines
import Abnf.Proofs.Translation.References

/-!
# The tables of a translation

The translator and the definition of the tables agree: over the records of a text without flaws the walk
meets no fault, comes to its end, and leaves the rules, the user-defined terminals and the messages
that the definition lines of the text stand for.

* `translates_ofRecognition`: the walk over the records of a text ends with its tables.
-/

namespace Abnf.Translation

open Metagrammar Definition Tables

variable {source : Source} {nodes : List Node}

/-- The tables of definition lines, made from their entries. -/
theorem ofDefinitions_eq (definitions : List Definition) :
    ofDefinitions definitions =
      let lines := contributing [] definitions
      let names : Names := ⟨known lines, udtNamesIn (lines.flatMap Definition.atoms)⟩
      ⟨(rulesOf (Atom.resolve names) (entriesOf lines)).toArray,
        udtTable (lines.flatMap Definition.atoms),
        (review [] definitions).flatMap lineFlaws ++
          (lines.flatMap Definition.atoms).filterMap (Atom.referenceFlaw? names)⟩ := by
  have hrules : ∀ (f : Atom → Opcode) (lines : List Definition), rulesOf f (entriesOf lines) =
      (defining lines).zipIdx.map fun entry =>
        ⟨entry.1.name, entry.2,
          ((Expr.alt (alternativesOf lines entry.1.lower)).map f).layout⟩ := by
    intro f lines
    rw [rulesOf, entriesOf, List.zipIdx_map, List.map_map]
    rfl
  simp only [hrules]
  rfl

/-! ## The text as a whole -/

theorem mem_of_mem_contributing {names : List String} {definitions : List Definition}
    {line : Definition} (h : line ∈ contributing names definitions) : line ∈ definitions := by
  obtain ⟨reviewed, hreviewed, rfl⟩ := List.mem_map.1 h
  rw [← review_map_fst names definitions]
  exact List.mem_map_of_mem (List.mem_of_mem_filter hreviewed)

/-- A translator that has seen no line. -/
theorem collects_nil (total : List Atom) : Collects total [] [] [] {} := by
  refine ⟨⟨rfl, fun name => ?_, rfl, fun name => ?_, rfl, rfl⟩, ⟨fun i entry hentry => ?_, ?_⟩, rfl,
    List.nodup_nil, ?_⟩
  · exact Std.HashMap.getElem?_empty
  · exact Std.HashMap.getElem?_empty
  · cases hentry
  · simp
  · simp

/-- The records of a text are those of trees in order within it. -/
theorem exists_within {strict : Bool} {recognition : Recognition}
    (h : recognize source strict = .ok recognition) :
    ∃ nodes, Within source nodes ∧ recognition.records = (Node.recordsAll 0 nodes).toArray := by
  obtain ⟨⟨matched, records, observed⟩, hrun, hrecognition⟩ := exists_of_bind_eq_ok h
  cases hrecognition
  have hleaves := Engine.leaves_of_run hrun
  cases matched with
  | none => exact ⟨[], ⟨0, 0, .nil (Nat.le_refl 0), Nat.zero_le _⟩, hleaves⟩
  | some n =>
    obtain ⟨⟨hle, nodes, hnested, hnodes⟩, -⟩ := hleaves
    exact ⟨nodes, ⟨_, _, hnested, hle⟩, by simpa using hnodes⟩

/-- The walk over lines that are arranged, and over the text around them. -/
theorem exists_walks_file {lines : List Node} {pos n : Nat}
    (hlines : ∀ line ∈ lines, ArrangedLine source line) (hwithin : Within source lines) :
    ∃ t, Walks source [.mk Symbol.file.index pos n lines] {} t ∧
      t.rules = (ofDefinitions (lines.filterMap (ofNode? source))).rules ∧
      t.udts = (ofDefinitions (lines.filterMap (ofNode? source))).udts ∧
      t.flaws = (ofDefinitions (lines.filterMap (ofNode? source))).flaws.map
        (Prod.map id MeaningFlaw.message) := by
  let total := (contributing [] (lines.filterMap (ofNode? source))).flatMap Definition.atoms
  let names : Names := ⟨known (contributing [] (lines.filterMap (ofNode? source))), udtNamesIn total⟩
  have hsound : ∀ a ∈ total, a.Sound := by
    refine sound_of_mem_atoms fun definition hdefinition => ?_
    obtain ⟨line, hline, hread⟩ := List.mem_filterMap.1 (mem_of_mem_contributing hdefinition)
    obtain ⟨definition', hread', hsound⟩ := (hlines line hline).isLine
    cases hread.symm.trans hread'
    exact hsound
  obtain ⟨t₁, placed, hwalks, hcollects⟩ := exists_walks_lines hlines hwithin hsound
    (collects_nil total) (List.prefix_refl _)
  have hatoms : placed.map Placed.atom = total := hcollects.atoms
  obtain ⟨t, hresolve, hsettles⟩ := hcollects.holds.resolveReferences names
    hcollects.booked map_lower_entriesOf.symm (congrArg udtNamesIn hatoms.symm)
  refine ⟨t, walks_phrase (s := .file) (by decide) rfl hwalks hresolve, ?_, ?_, ?_⟩
  · rw [hsettles.table, ofDefinitions_eq]
    rfl
  · rw [hsettles.udts, ofDefinitions_eq, hatoms]
  · rw [hsettles.flaws, ofDefinitions_eq, hatoms, List.map_append]
    rfl

/-- The translator and the definition of the tables agree on every text without flaws. -/
theorem translates_ofRecognition {strict : Bool} {recognition : Recognition}
    (hrecognize : recognize source strict = .ok recognition) (hflaws : recognition.flaws = []) :
    ∃ t, Translates source recognition.records 0 {} t ∧
      (∀ t', Translates source recognition.records 0 {} t' → t' = t) ∧
      t.rules = (ofRecognition source recognition).rules ∧
      t.udts = (ofRecognition source recognition).udts ∧
      t.flaws = (ofRecognition source recognition).flaws.map (Prod.map id MeaningFlaw.message) := by
  obtain ⟨-, nodes, events, hrun, -, hrecords⟩ := proper_of_flawless hrecognize hflaws
  obtain ⟨nodes', hwithin, hrecords'⟩ := exists_within hrecognize
  have hforest : recognition.records.forest = nodes := by rw [hrecords, Records.forest_ofNodes]
  obtain rfl : nodes = nodes' := by rw [← hforest, hrecords', Records.forest_ofNodes]
  obtain ⟨lines, -, rfl⟩ := (properMatch_recorded_iff rfl).1
    (show ProperMatch (ref .file) 0 source.bytes.toList source.bytes.size nodes from
      ⟨events, hrun, fun _ _ => trivial⟩)
  have hlines : ∀ line ∈ lines, ArrangedLine source line := by
    intro line hline
    refine arrangedLine_ofRecognition hrecognize hflaws line ?_
    rw [hforest]
    simpa [Node.children] using hline
  obtain ⟨t, hwalks, htables⟩ := exists_walks_file hlines hwithin.cons.2.1
  have htranslates : Translates source recognition.records 0 {} t := by
    have := hwalks.translates [] [] rfl (.done (by simp))
    simpa [hrecords] using this
  have hdefinitions : ofRecognition source recognition =
      ofDefinitions (lines.filterMap (ofNode? source)) := by
    rw [ofRecognition, hflaws, List.isEmpty_nil, if_pos rfl, ofForest, hforest]
    simp [Node.children]
  rw [hdefinitions]
  exact ⟨t, htranslates, fun t' h => h.unique htranslates, htables⟩

end Abnf.Translation
