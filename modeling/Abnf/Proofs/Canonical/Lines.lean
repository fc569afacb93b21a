import Abnf.Proofs.Canonical.Elements

/-!
# Lines

The lines of a canonical text are taken one by one up to its end, and read as definition lines
with the names, signs and alternatives that were written. So recognition finds no flaw in it.

* `Reading`: a definition line that was read, together with the line that was written.
* `recognize_lines`: recognition of a text of lines.
-/

namespace Abnf.Canonical

open Definition Engine Metagrammar
open scoped Decisions

variable {source : Source} {pos : Nat} {rest : List Char}

/-! ## One line -/

/-- The sign of a line. -/
def sign (incremental : Bool) : List Char :=
  if incremental then ['=', '/'] else ['=']

/-- The symbol of that sign. -/
def signSymbol (incremental : Bool) : Symbol :=
  if incremental then .incAlt else .defined

theorem takes_sign (incremental : Bool) : Takes (ref .definedAsTest) pos (sign incremental)
    (' ' :: rest) [.mk (signSymbol incremental).index pos (sign incremental).length []] := by
  refine .ref _ rfl (.hit (.ref _ rfl ?_))
  cases incremental with
  | true => exact .hit (.phrase .incAlt rfl (.chars ['=', '/'] (by decide)))
  | false =>
    exact .miss (.ref (.chars (by decide) rfl))
      (.hit (.phrase .defined rfl (.chars ['='] (by decide))))

/-- A line up to its sign. -/
def head (name : Name) (incremental : Bool) : List Char :=
  name.chars ++ ([' '] ++ sign incremental)

theorem print_line (line : Line) (incremental : Bool) : line.print incremental =
    head line.name incremental ++ ([' '] ++ (line.alternatives.print ++ ['\n'])) := by
  cases incremental <;> simp [Line.print, head, sign]

/-- The phrase of a line up to its sign. -/
def lookup (pos : Nat) (name : Name) (incremental : Bool) : Node :=
  .mk Symbol.ruleLookup.index pos (head name incremental).length
    [.mk Symbol.ruleName.index pos name.chars.length [],
      .mk (signSymbol incremental).index (pos + name.chars.length + 1)
        (sign incremental).length []]

theorem takes_ruleLookup (name : Name) (incremental : Bool) :
    Takes (ref .ruleLookup) pos (head name incremental) (' ' :: rest)
      [lookup pos name incremental] := by
  have hsolid : Solid (sign incremental ++ (' ' :: rest)) := by
    cases incremental <;> exact refuses_of_head (by decide)
  have hname : Takes (ref .ruleNameTest) pos name.chars ([' '] ++ sign incremental ++ (' ' :: rest))
      [.mk Symbol.ruleName.index pos name.chars.length []] :=
    .ref .ruleNameTest rfl (.hit (.phrase .ruleName rfl
      (takes_alphanum name (by rintro _ ⟨⟩; rfl))))
  exact .phrase .ruleLookup rfl
    (Takes.cat hname (Takes.cat (takes_owsp hsolid) (.one (takes_sign incremental))))

theorem takes_rule {nodes : List Node} (line : Line) (incremental : Bool)
    (hrest : Closing ('\n' :: rest))
    (h : Takes choiceBody (pos + (head line.name incremental).length + 1) line.alternatives.print
      (['\n'] ++ rest) nodes) :
    Takes Symbol.rule.properBody pos (line.print incremental) rest
      [lookup pos line.name incremental,
        .mk Symbol.alternation.index (pos + (head line.name incremental).length + 1)
          line.alternatives.print.length nodes] := by
  have hlookup : Takes (ref .ruleLookup) pos (head line.name incremental)
      ([' '] ++ (line.alternatives.print ++ ['\n']) ++ rest) [lookup pos line.name incremental] :=
    takes_ruleLookup line.name incremental
  have hsolid : Solid (line.alternatives.print ++ ['\n'] ++ rest) := by
    rw [List.append_assoc]
    exact solid_alternatives line.alternatives _
  have hend : ∀ pos, Takes (.alt [.cat [ref .owsp, ref .lineEnd]]) pos ['\n'] rest [] := fun _ =>
    .hit (Takes.cat (takes_owsp_nil hrest.solid) (.one (.ref .lineEnd rfl takes_lineBreak)))
  rw [print_line]
  exact Takes.cat hlookup (Takes.cat (takes_owsp hsolid)
    (Takes.cat (.phrase .alternation rfl h) (.one (hend _))))

/-- A definition line that was read, and the line that was written there. -/
structure Reading where
  line : Line
  incremental : Bool
  offset : Nat
  alternatives : List (Expr Spelled)
  spells : Expr.mapAll Spelled.token alternatives = line.alternatives.exprs

namespace Reading

/-- What was read. -/
def definition (reading : Reading) : Definition :=
  ⟨reading.offset, reading.line.text, reading.incremental,
    Expr.mapAll Spelled.atom reading.alternatives⟩

@[simp] theorem lower_definition (reading : Reading) :
    reading.definition.lower = reading.line.lower := rfl

@[simp] theorem incremental_definition (reading : Reading) :
    reading.definition.incremental = reading.incremental := rfl

/-- What was written. -/
def written (reading : Reading) : Line × Bool :=
  (reading.line, reading.incremental)

end Reading

/-- A line in front of the end of the text, or of another line, is read as it was written. -/
theorem reads_line (line : Line) (incremental : Bool)
    (hrest : ∀ c ∈ rest.head?, isLetter c = true)
    (hsource : Holds source pos (line.print incremental ++ rest)) :
    ∃ (node : Node) (reading : Reading),
      Takes (ref .rule) pos (line.print incremental) rest [node] ∧
      ofNode? source node = some reading.definition ∧ reading.written = (line, incremental) := by
  have hsource : Holds source pos (head line.name incremental ++
      ([' '] ++ (line.alternatives.print ++ ('\n' :: rest)))) := by
    rw [print_line] at hsource
    simpa using hsource
  have hclosing := closing_lineFeed hrest
  obtain ⟨nodes, htakes, xs, hread, hspells⟩ :=
    reads_alternatives line.alternatives hclosing hsource.skip.skip
  refine ⟨_, ⟨line, incremental, pos, xs, hspells⟩,
    .phrase .rule rfl (takes_rule line incremental hclosing htakes), ?_, rfl⟩
  have hname : source.phrase pos line.name.chars.length = line.text := by
    rw [head, List.append_assoc] at hsource
    exact hsource.phrase (printable_name line.name)
  have hsign : ∀ pos n, decide (Atom.symbol? (.mk (signSymbol incremental).index pos n []) =
      some .incAlt) = incremental := by
    cases incremental <;> exact fun _ _ => rfl
  change some (Definition.mk _ _ (decide (Atom.symbol? (.mk (signSymbol incremental).index _ _ _) =
    some .incAlt)) (readAlternatives source nodes)) = _
  rw [hsign, hread]
  exact congrArg (fun text => some (Definition.mk pos text incremental _)) hname

/-! ## All lines -/

theorem head?_lines (lines : List (Line × Bool)) :
    ∀ c ∈ (lines.flatMap fun line => line.1.print line.2).head?, isLetter c = true := by
  cases lines with
  | nil => simp
  | cons line lines =>
    rintro _ ⟨⟩
    exact line.1.name.first_isLetter

/-- A line is no blank line. -/
theorem refuses_blankLine (h : Begins isLetter rest) : Refuses (ref .blankLine) rest :=
  refuses_of_begins (fun _ h => beginsElement_of_operand (beginsOperand_of_leaf
    (beginsLeaf_of_letter h))) (by decide +kernel) h

theorem begins_line (line : Line) (incremental : Bool) (rest : List Char) :
    Begins isLetter (line.print incremental ++ rest) :=
  begins_cons.2 line.name.first_isLetter

/-- The lines of a text are taken up to its end, and read as they were written. -/
theorem reads_lines (lines : List (Line × Bool))
    (hsource : Holds source pos (lines.flatMap fun line => line.1.print line.2)) :
    ∃ (nodes : List Node) (readings : List Reading),
      Takes (many (.alt [ref .blankLine, ref .rule])) pos
        (lines.flatMap fun line => line.1.print line.2) [] nodes ∧
      nodes.filterMap (ofNode? source) = readings.map Reading.definition ∧
      readings.map Reading.written = lines := by
  induction lines generalizing pos with
  | nil =>
    refine ⟨[], [], .none (.alt ?_ (.alt ?_ .nil)), rfl, rfl⟩ <;>
      exact .of_quiet (by decide)
  | cons line lines ih =>
    rw [List.flatMap_cons] at hsource
    obtain ⟨nodes, readings, htakes, hread, hwritten⟩ := ih hsource.skip
    obtain ⟨node, reading, hline, hnode, hfirst⟩ :=
      reads_line line.1 line.2 (head?_lines lines) hsource
    have hrule : Takes (.alt [ref .blankLine, ref .rule]) pos (line.1.print line.2)
        (lines.flatMap (fun line => line.1.print line.2) ++ []) [node] := by
      rw [List.append_nil]
      exact .miss (refuses_blankLine (begins_line line.1 line.2 _)) (.hit hline)
    refine ⟨node :: nodes, reading :: readings, ?_, ?_, ?_⟩
    · rw [List.flatMap_cons]
      exact Takes.more (List.cons_ne_nil _ _) hrule htakes
    · rw [List.filterMap_cons_some hnode, hread, List.map_cons]
    · rw [List.map_cons, hfirst, hwritten]

/-! ## Recognition -/

/-- Where the text begins with no blank line, a rule is found. -/
theorem exists_findsRule {bytes : List UInt8} {n : Nat} {nodes : List Node} {events : List Event}
    (h : Run properScheme (ref .file) 0 bytes (some n) nodes events) (hn : n ≠ 0)
    (hblank : ProperFail (ref .blankLine) 0 bytes) : ∃ event ∈ events, FindsRule event := by
  -- Otherwise the run passes no such event, yet its first line must be a rule.
  by_contra hnone
  have hquiet : Matches properScheme (fun event => ¬ FindsRule event) (ref .file) 0 bytes n nodes :=
    ⟨events, h, fun event hevent hfinds => hnone ⟨event, hevent, hfinds⟩⟩
  obtain ⟨-, -, inner, hlines, -⟩ := (matches_rule_iff (properScheme_body .file)).1 hquiet
  rcases matches_many_iff.1 hlines with ⟨hzero, -⟩ | ⟨hzero, -⟩ | ⟨m, _, _, _, hfirst, -⟩
  · exact hn hzero
  · exact hn hzero
  · have hfirst : Matches properScheme (fun event => ¬ FindsRule event)
        (.alt [ref .blankLine, ref .rule]) 0 bytes (m + 1) _ := hfirst
    simp only [matches_alt_cons_iff, not_matches_alt_nil, and_false, or_false] at hfirst
    rcases hfirst with hfirst | ⟨-, hfirst⟩
    · exact hfirst.not_fails hblank
    · obtain ⟨-, hrule, -⟩ := (matches_rule_iff (properScheme_body .rule)).1 hfirst
      exact hrule ⟨rfl, rfl⟩

/-- A text of lines is recognised without flaws, and what is recorded are the lines that were
written. -/
theorem recognize_lines {lines : List (Line × Bool)} (hne : lines ≠ [])
    (hsource : Holds source 0 (lines.flatMap fun line => line.1.print line.2)) :
    ∃ (recognition : Recognition) (readings : List Reading),
      recognize source false = .ok recognition ∧ recognition.flaws = [] ∧
      ofForest source recognition.records.forest = readings.map Reading.definition ∧
      readings.map Reading.written = lines := by
  obtain ⟨nodes, readings, htakes, hread, hwritten⟩ := reads_lines lines hsource
  have hbegins : Begins isLetter (lines.flatMap fun line => line.1.print line.2) := by
    cases lines with
    | nil => exact absurd rfl hne
    | cons line lines => exact begins_line line.1 line.2 _
  have hfile := Takes.phrase .file rfl htakes
  generalize (lines.flatMap fun line => line.1.print line.2) = text at hsource hbegins hfile
  rw [Takes, List.append_nil, hsource, List.drop_zero] at hfile
  have hlength : text.length = source.bytes.size := by
    rw [← length_encode, hsource, List.drop_zero, Array.length_toList]
  have hnonempty : source.bytes.size ≠ 0 := by
    obtain ⟨c, hc, -⟩ := hbegins
    cases text with
    | nil => cases hc
    | cons d text => simp [← hlength]
  obtain ⟨events, hrun, -⟩ := hfile
  have hblank : ProperFail (ref .blankLine) 0 source.bytes.toList := by
    have hblank := refuses_blankLine hbegins 0
    rwa [hsource, List.drop_zero] at hblank
  rw [hlength] at hrun
  obtain ⟨count, hrecognize⟩ :=
    flawless_of_proper hrun (exists_findsRule hrun hnonempty hblank) hnonempty
  refine ⟨_, readings, hrecognize, rfl, ?_, hwritten⟩
  rw [Records.forest_ofNodes, ofForest]
  simpa [Node.children] using hread

end Abnf.Canonical
