import Abnf.Proofs.Canonical.Lines

/-!
# The round trip of canonical texts

The canonical text of a grammar whose names are defined passes every check, and the tables that it
stands for are those of the grammar.

* `ofDefinitions_readings`: definition lines that were read as they were written stand for the
  tables of the lines that were written.
* `ofRecognition_print`: the whole round trip.
-/

namespace Abnf

namespace Canonical

open Definition Engine Metagrammar
open scoped Decisions

/-! ## Marked lines -/

theorem map_fst_marked (seen : List String) (lines : List Line) :
    (marked seen lines).map Prod.fst = lines := by
  induction lines generalizing seen with
  | nil => rfl
  | cons line lines ih =>
    rw [marked]
    split <;> rw [List.map_cons, ih]

/-- The lines that define a name are the first ones of their names. -/
theorem filter_marked (seen : List String) (lines : List Line) :
    ((marked seen lines).filter fun line => !line.2).map Prod.fst =
      firstByKey Line.lower seen lines := by
  induction lines generalizing seen with
  | nil => rfl
  | cons line lines ih =>
    rw [marked, firstByKey]
    split <;> simp [ih]

/-- There is no objection to lines that were marked by the lines before them. -/
theorem consistent_readings {known seen : List String} {lines : List Line}
    {readings : List Reading} (hknown : ∀ name, name ∈ known ↔ name ∈ seen)
    (h : readings.map Reading.written = marked seen lines) :
    Tables.Consistent known (readings.map Reading.definition) := by
  induction lines generalizing known seen readings with
  | nil =>
    cases List.map_eq_nil_iff.1 h
    simp [Tables.Consistent, Definition.review]
  | cons line lines ih =>
    rw [marked] at h
    split at h <;> rename_i hseen <;>
      obtain ⟨reading, more, rfl, hfirst, hmore⟩ := List.map_eq_cons_iff.1 h <;>
      obtain ⟨rfl, hincremental⟩ := Prod.mk.inj hfirst <;>
      rw [List.map_cons, Tables.consistent_cons_iff, Reading.incremental_definition, hincremental]
    · have hmem : reading.line.lower ∈ known := (hknown _).2 (List.contains_iff_mem.1 hseen)
      refine ⟨?_, ih hknown hmore⟩
      simp [Definition.objection?, hincremental, hmem]
    · have hmem : reading.line.lower ∉ known := fun hmem =>
        hseen (List.contains_iff_mem.2 ((hknown _).1 hmem))
      refine ⟨?_, ih (fun name => ?_) hmore⟩
      · simp [Definition.objection?, hincremental, hmem]
      · simp [hknown, or_comm]

/-! ## What was read and what was written -/

section

variable (readings : List Reading)

/-- The atoms of all lines with the tokens that were written there. -/
def spellings : List Spelled :=
  readings.flatMap fun reading => Expr.atomsAll reading.alternatives

theorem atoms_definitions : (readings.map Reading.definition).flatMap Definition.atoms =
    (spellings readings).map Spelled.atom := by
  rw [List.flatMap_map, spellings, List.map_flatMap]
  refine List.flatMap_congr fun reading _ => ?_
  exact Expr.atomsAll_mapAll Spelled.atom reading.alternatives

theorem tokens_lines : tokens (readings.map Reading.line) =
    (spellings readings).map Spelled.token := by
  rw [tokens, List.flatMap_map, spellings, List.map_flatMap]
  refine List.flatMap_congr fun reading _ => ?_
  rw [← reading.spells, Expr.atomsAll_mapAll]

theorem udtsOf_definitions : Tables.udtsOf (readings.map Reading.definition) =
    udts (readings.map Reading.line) := by
  rw [Tables.udtsOf, udts, atoms_definitions, tokens_lines, List.filterMap_map,
    List.filterMap_map]
  exact congrArg _ (List.filterMap_congr fun spelled _ => spelled.udt?)

end

/-- The readings of the lines of a grammar. -/
structure Reads (lines : List Line) (readings : List Reading) : Prop where
  written : readings.map Reading.written = marked [] lines

namespace Reads

variable {lines : List Line} {readings : List Reading}

theorem lines_eq (h : Reads lines readings) : readings.map Reading.line = lines := by
  rw [← map_fst_marked [] lines, ← h.written, List.map_map]
  rfl

/-- The readings of lines that define a name. -/
theorem defining_eq (h : Reads lines readings) :
    (readings.filter fun reading => !reading.incremental).map Reading.line = defining lines := by
  rw [defining, ← filter_marked, ← h.written, List.filter_map, List.map_map]
  rfl

theorem defining_definitions (readings : List Reading) :
    Tables.defining (readings.map Reading.definition) =
      (readings.filter fun reading => !reading.incremental).map Reading.definition := by
  rw [Tables.defining, List.filter_map]
  rfl

theorem namesOf_eq (h : Reads lines readings) :
    Tables.namesOf (readings.map Reading.definition) = names lines := by
  rw [Tables.namesOf, names, udtsOf_definitions, h.lines_eq, defining_definitions,
    ← h.defining_eq, List.map_map, List.map_map]
  rfl

end Reads

/-! ## Names -/

theorem areMarked_names (lines : List Line) : AreMarked (names lines) := by
  intro name hname
  obtain ⟨udt, hudt, rfl⟩ := List.mem_map.1 hname
  obtain ⟨token, -, htoken⟩ := List.mem_filterMap.1 (Tables.mem_of_mem_firstByKey hudt)
  obtain ⟨empty, target, rfl⟩ : ∃ empty target, token = .leaf (.name (.udt empty target)) := by
    unfold Token.udt? at htoken
    split at htoken
    · exact ⟨_, _, rfl⟩
    · cases htoken
  cases htoken
  rw [lowerName, String.toList_map, String.toList_ofList]
  refine List.mem_map.2 ⟨'_', ?_, rfl⟩
  cases empty <;> simp [Reference.print]

theorem isKnown_of_isClosed {lines : List Line} (h : isClosed lines = true) {token : Token}
    (htoken : token ∈ tokens lines) : token.IsKnown (names lines) := by
  refine ⟨List.all_eq_true.1 h token htoken, fun udt hudt => ?_⟩
  have hmem : udt ∈ (tokens lines).filterMap Token.udt? :=
    List.mem_filterMap.2 ⟨token, htoken, hudt⟩
  exact (Tables.key_mem_firstByKey hmem).resolve_left (by simp)

/-! ## Tables -/

section

variable {lines : List Line} {readings : List Reading} (h : Reads lines readings)
  (hclosed : isClosed lines = true)
include h hclosed

/-- Every atom refers to something, and to what its token says. -/
theorem isKnown_of_mem {spelled : Spelled} (hspelled : spelled ∈ spellings readings) :
    spelled.token.IsKnown (names lines) := by
  refine isKnown_of_isClosed hclosed ?_
  rw [← h.lines_eq, tokens_lines]
  exact List.mem_map_of_mem hspelled

/-- The rule of a name has the expression that was written for it. -/
theorem bodyOf_eq (reading : Reading) :
    Tables.bodyOf (readings.map Reading.definition) reading.definition =
      body lines reading.line := by
  let chosen := (readings.filter fun other => other.line.lower == reading.line.lower).flatMap
    Reading.alternatives
  have hread : Tables.alternativesOf (readings.map Reading.definition) reading.line.lower =
      Expr.mapAll Spelled.atom chosen := by
    rw [Tables.alternativesOf, List.filter_map, List.flatMap_map, Expr.mapAll_eq_map,
      List.map_flatMap]
    exact List.flatMap_congr fun other _ => Expr.mapAll_eq_map _ _
  have hwritten : ((lines.filter fun other => other.lower == reading.line.lower).flatMap
      fun other => other.alternatives.exprs) = Expr.mapAll Spelled.token chosen := by
    rw [← h.lines_eq, List.filter_map, List.flatMap_map, Expr.mapAll_eq_map, List.map_flatMap]
    exact List.flatMap_congr fun other _ => by rw [← other.spells, Expr.mapAll_eq_map]
  rw [Tables.bodyOf, body, h.namesOf_eq, Reading.lower_definition, hread, hwritten]
  change (Expr.map Spelled.atom (.alt chosen)).map _ = (Expr.map Spelled.token (.alt chosen)).map _
  rw [Expr.map_map, Expr.map_map]
  refine Expr.map_congr fun spelled hspelled => ?_
  refine spelled.resolves _ (areMarked_names lines) (isKnown_of_mem h hclosed ?_)
  obtain ⟨e, he, hspelled⟩ := Expr.mem_atomsAll.1 hspelled
  obtain ⟨other, hother, he⟩ := List.mem_flatMap.1 he
  exact List.mem_flatMap.2
    ⟨other, List.mem_of_mem_filter hother, Expr.mem_atomsAll.2 ⟨e, he, hspelled⟩⟩

/-- Definition lines that were read as they were written stand for the tables of the grammar. -/
theorem ofDefinitions_readings : Tables.ofDefinitions (readings.map Reading.definition) =
    ⟨(ruleTable lines).toArray, (udtTable lines).toArray, []⟩ := by
  have hconsistent : Tables.Consistent [] (readings.map Reading.definition) :=
    consistent_readings (fun _ => Iff.rfl) h.written
  have hlocal : (spellings readings).flatMap (fun spelled => spelled.atom.localFlaws) = [] :=
    List.flatMap_eq_nil_iff.2 fun spelled _ => spelled.localFlaws
  have hreference : (spellings readings).filterMap (fun spelled =>
      spelled.atom.referenceFlaw? (names lines)) = [] :=
    List.filterMap_eq_nil_iff.2 fun spelled hspelled =>
      spelled.refers _ (areMarked_names lines) (isKnown_of_mem h hclosed hspelled)
  have hrules : ((Tables.defining (readings.map Reading.definition)).zipIdx.map fun line =>
      (⟨line.1.name, line.2, (Tables.bodyOf (readings.map Reading.definition) line.1).layout⟩ :
        Rule)) = ruleTable lines := by
    rw [ruleTable, Reads.defining_definitions, ← h.defining_eq, List.zipIdx_map, List.zipIdx_map,
      List.map_map, List.map_map]
    refine List.map_congr_left fun reading _ => ?_
    exact congrArg (fun e : Expr Opcode => Rule.mk reading.1.line.text reading.2 e.layout)
      (bodyOf_eq h hclosed reading.1)
  rw [Tables.ofDefinitions_of_consistent hconsistent, hrules, udtsOf_definitions, h.lines_eq,
    atoms_definitions, h.namesOf_eq, List.flatMap_map, List.filterMap_map]
  exact congrArg (Tables.mk _ _) (List.append_eq_nil_iff.2 ⟨hlocal, hreference⟩)

end

/-! ## The round trip -/

theorem holds_print (lines : List Line) : Holds (Source.ofString (print lines)) 0
    ((marked [] lines).flatMap fun line => line.1.print line.2) := by
  rw [Holds, print, bytes_ofString isAscii_lines, List.drop_zero]

/-- The canonical text of lines is recognized without a flaw, and its lines are read as they were
written. -/
theorem exists_readings {lines : List Line} (hne : lines ≠ []) :
    ∃ recognition readings, recognize (.ofString (print lines)) false = .ok recognition ∧
      recognition.flaws = [] ∧ Reads lines readings ∧
      Definition.ofForest (.ofString (print lines)) recognition.records.forest =
        readings.map Reading.definition := by
  have hmarked : marked [] lines ≠ [] := by
    rw [← map_fst_marked [] lines] at hne
    exact fun hnil => hne (by rw [hnil, List.map_nil])
  obtain ⟨recognition, readings, hrecognize, hflaws, hforest, hwritten⟩ :=
    recognize_lines hmarked (holds_print lines)
  exact ⟨recognition, readings, hrecognize, hflaws, ⟨hwritten⟩, hforest⟩

theorem exists_recognition_print (lines : List Line) (hne : lines ≠ [])
    (hclosed : isClosed lines = true) :
    ∃ recognition, recognize (.ofString (print lines)) false = .ok recognition ∧
      Tables.ofRecognition (.ofString (print lines)) recognition =
        ⟨(ruleTable lines).toArray, (udtTable lines).toArray, []⟩ := by
  obtain ⟨recognition, readings, hrecognize, hflaws, hreads, hforest⟩ := exists_readings hne
  refine ⟨recognition, hrecognize, ?_⟩
  rw [Tables.ofRecognition, hflaws, hforest]
  exact ofDefinitions_readings hreads hclosed

/-- The canonical text of lines whose names are defined passes the character check, recognition
and the check of meaning. Its tables have one rule for each name, in the order of first lines, and
the user-defined terminals that are named. The opcodes of a rule hold its expression from position
0 on, as a tree: the alternatives of all lines of its name in order. -/
theorem ofRecognition_print {lines : List Line} (hne : lines ≠ [])
    (hclosed : isClosed lines = true) :
    (Source.ofString (print lines)).characterDiagnostics false = [] ∧
      ∃ recognition, recognize (.ofString (print lines)) false = .ok recognition ∧
        recognition.diagnostics (.ofString (print lines)) = [] ∧
        Tables.ofRecognition (.ofString (print lines)) recognition =
          ⟨(ruleTable lines).toArray, (udtTable lines).toArray, []⟩ ∧
        ∀ line ∈ defining lines, (body lines line).Stands (body lines line).layout 0 ∧
          Opcodes.Wired (body lines line).layout := by
  obtain ⟨recognition, readings, hrecognize, hflaws, hreads, hforest⟩ := exists_readings hne
  obtain ⟨_, hrecognize', htables⟩ := exists_recognition_print lines hne hclosed
  cases hrecognize.symm.trans hrecognize'
  refine ⟨characterDiagnostics_print lines, recognition, hrecognize, ?_, htables,
    fun line hline => ?_⟩
  · rw [Recognition.diagnostics, hflaws, List.map_nil]
  · have hsound := sound_ofRecognition hrecognize hflaws
    rw [hforest] at hsound
    rw [← hreads.defining_eq] at hline
    obtain ⟨reading, hreading, rfl⟩ := List.mem_map.1 hline
    have hmem := List.mem_map_of_mem (f := Reading.definition) (List.mem_of_mem_filter hreading)
    have hvalid : (body lines reading.line).isValid = true := by
      rw [← bodyOf_eq hreads hclosed]
      exact (Tables.sound_alternativesOf hsound hmem).1 _
    exact ⟨Expr.stands_layout hvalid, Expr.wired_layout hvalid⟩

/-- Three lines for two names: brackets in brackets, names before they are defined, and a name
that is extended in other letters. -/
def nestedLines : List Line :=
  let list : Name := ⟨'L', ['i', '-', '1'], by decide, by decide⟩
  let item : Name := ⟨'b', [], by decide, by decide⟩
  let again : Name := ⟨'l', ['i', '-', '1'], by decide, by decide⟩
  [⟨list, .cons
      (.cons (.group (some (.between 2 3 (by decide)))
          (.cons (.last (.leaf none (.quoted ⟨['a', ' ', 'Z'], by decide⟩)))
            (.last (.last (.option none (.last (.cons (.leaf none (.string 1 [300]))
              (.last (.leaf none (.name (.udt false item)))))))))))
        (.last (.leaf (some .not) (.name (.rule item)))))
      (.last (.last (.leaf none .begins)))⟩,
    ⟨item, .last (.cons (.leaf none (.range 65 90 (by decide)))
      (.last (.leaf (some .lookBehind) (.back true (.rule list)))))⟩,
    ⟨again, .last (.cons (.leaf (some (.atLeast 1)) (.caseSensitive ⟨['q'], by decide⟩))
      (.cons (.leaf (some .and) (.back false (.udt false item))) (.last (.leaf none .ends))))⟩]

example : print nestedLines =
    "Li-1 = 2*3(\x22a Z\x22 / [%d1.300 u_b]) !b / %^\n" ++
    "b = %d65-90 &&\x5c%iLi-1\n" ++
    "li-1 =/ 1*'q' &\x5c%su_b %$\n" := by
  decide +kernel

theorem ofRecognition_print_nested :
    nestedLines ≠ [] ∧ isClosed nestedLines = true ∧
      (Source.ofString (print nestedLines)).characterDiagnostics false = [] ∧
      ∃ recognition, recognize (.ofString (print nestedLines)) false = .ok recognition ∧
        recognition.diagnostics (.ofString (print nestedLines)) = [] ∧
        Tables.ofRecognition (.ofString (print nestedLines)) recognition =
          ⟨(ruleTable nestedLines).toArray, (udtTable nestedLines).toArray, []⟩ ∧
        ∀ line ∈ defining nestedLines,
          (body nestedLines line).Stands (body nestedLines line).layout 0 ∧
            Opcodes.Wired (body nestedLines line).layout := by
  have hne : nestedLines ≠ [] := by simp [nestedLines]
  have hclosed : isClosed nestedLines = true := by decide +kernel
  exact ⟨hne, hclosed, ofRecognition_print hne hclosed⟩

end Canonical

end Abnf
