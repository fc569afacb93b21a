import Abnf.Proofs.Canonical.Leaves

/-!
# Elements and alternatives

Elements, sequences and alternatives of a canonical text are taken from it as a whole, at every
depth, and read as the expressions that they were written for. What a sequence needs to know about
the text behind it is that no further element stands there, and alternatives need to know that no
further alternative does.

* `reads_element`, `reads_alternative`, `reads_alternatives`: one statement for each kind of tree.
-/

namespace Abnf.Canonical

open Definition Engine Metagrammar
open scoped Decisions

variable {source : Source} {pos : Nat} {text rest : List Char} {nodes : List Node}

/-! ## First characters -/

theorem begins_leaf (leaf : Leaf) : Begins beginsLeaf leaf.print := by
  have hreference : ∀ reference : Reference, Begins beginsLeaf reference.print := by
    intro reference
    cases reference with
    | rule name => exact begins_cons.2 (beginsLeaf_of_letter name.first_isLetter)
    | udt empty name => cases empty <;> exact begins_cons.2 rfl
  cases leaf with
  | name reference => exact hreference reference
  | back caseInsensitive reference => cases caseInsensitive <;> exact begins_cons.2 rfl
  | _ => exact begins_cons.2 rfl

theorem begins_operator (operator : Operator) : Begins beginsElement operator.print := by
  cases operator with
  | between min _ _ | atLeast min =>
    exact ((begins_number min).imp fun _ => beginsElement_of_digit).append _
  | _ => exact begins_cons.2 rfl

/-- An element begins with its operator, if it has one. -/
theorem begins_governed (operator : Option Operator) (h : Begins beginsOperand text) :
    Begins beginsElement (printOperator operator ++ text) := by
  cases operator with
  | none => exact h.imp fun _ => beginsElement_of_operand
  | some operator => exact (begins_operator operator).append text

theorem begins_element (element : Element) : Begins beginsElement element.print := by
  cases element with
  | leaf operator leaf =>
    exact begins_governed operator ((begins_leaf leaf).imp fun _ => beginsOperand_of_leaf)
  | group operator alternatives | option operator alternatives =>
    exact begins_governed operator (begins_cons.2 rfl)

theorem begins_alternative (alternative : Alternative) :
    Begins beginsElement alternative.print := by
  cases alternative with
  | last element => exact begins_element element
  | cons element rest => exact (begins_element element).append _

theorem begins_alternatives (alternatives : Alternatives) :
    Begins beginsElement alternatives.print := by
  cases alternatives with
  | last alternative => exact begins_alternative alternative
  | cons alternative rest => exact (begins_alternative alternative).append _

/-! ## What phrases spell -/

/-- The parts of an element that are read as it was written. -/
def SpellsElement (source : Source) (nodes : List Node) (e : Expr Token) : Prop :=
  ∃ x : Expr Spelled,
    readElement source nodes = some (x.map Spelled.atom) ∧ x.map Spelled.token = e

/-- Phrases that are read as the elements of an alternative. -/
def SpellsSequence (source : Source) (nodes : List Node) (es : List (Expr Token)) : Prop :=
  ∃ xs : List (Expr Spelled),
    readElements source nodes = Expr.mapAll Spelled.atom xs ∧ Expr.mapAll Spelled.token xs = es

/-- Phrases that are read as alternatives. -/
def SpellsChoice (source : Source) (nodes : List Node) (es : List (Expr Token)) : Prop :=
  ∃ xs : List (Expr Spelled),
    readAlternatives source nodes = Expr.mapAll Spelled.atom xs ∧ Expr.mapAll Spelled.token xs = es

section

variable {e : Expr Token} {es : List (Expr Token)} {n : Nat}

theorem SpellsElement.under {node : Node} (spelled : Spelled)
    (hnode : Atom.operator? source node = some spelled.atom)
    (h : SpellsElement source nodes e) :
    SpellsElement source (node :: nodes) (.under spelled.token e) := by
  obtain ⟨x, hread, rfl⟩ := h
  exact ⟨.under spelled x, readElement_operator hnode hread, rfl⟩

theorem SpellsChoice.element (h : SpellsChoice source nodes es) (pos n : Nat) :
    SpellsElement source [.mk Symbol.alternation.index pos n nodes] (.alt es) := by
  obtain ⟨xs, hread, rfl⟩ := h
  exact ⟨.alt xs, by rw [readElement_alternation, hread]; rfl, rfl⟩

theorem SpellsElement.sequence {rule : Nat} {children : List Node}
    (h : SpellsElement source children e) (hs : SpellsSequence source nodes es) :
    SpellsSequence source (.mk rule pos n children :: nodes) (e :: es) := by
  obtain ⟨x, hread, rfl⟩ := h
  obtain ⟨xs, hreads, rfl⟩ := hs
  refine ⟨x :: xs, ?_, rfl⟩
  simp only [readElements, elementOf, hread, hreads, Expr.mapAll]

theorem SpellsSequence.choice {rule : Nat} {children : List Node}
    (h : SpellsSequence source children es) {more : List (Expr Token)}
    (hs : SpellsChoice source nodes more) :
    SpellsChoice source (.mk rule pos n children :: nodes) (.cat es :: more) := by
  obtain ⟨xs, hread, rfl⟩ := h
  obtain ⟨ys, hreads, rfl⟩ := hs
  refine ⟨.cat xs :: ys, ?_, rfl⟩
  simp only [readAlternatives, alternativeOf, hread, hreads, Expr.mapAll, Expr.map]

end

/-! ## Elements -/

/-- The symbols of an element without its operator, in the order in which they are tried. -/
def operandSymbols : List Symbol :=
  [.group, .option, .basicElement]

/-- An operator goes in front of what it governs. -/
theorem takes_repetition (operator : Option Operator) {e : Expr Token}
    (hbegins : Begins beginsOperand text)
    (hsource : Holds source pos (printOperator operator ++ (text ++ rest)))
    (htakes : Takes (.alt (operandSymbols.map ref)) (pos + (printOperator operator).length) text
      rest nodes) (hspells : SpellsElement source nodes e) :
    ∃ parts, Takes (ref .repetition) pos (printOperator operator ++ text) rest
        [.mk Symbol.repetition.index pos (printOperator operator ++ text).length parts] ∧
      SpellsElement source parts (governed operator e) := by
  have hrest := hbegins.append rest
  cases operator with
  | none =>
    exact ⟨nodes, .phrase .repetition rfl (Takes.cat (.missing (refuses_operators hrest))
      (.one htakes)), hspells⟩
  | some operator =>
    obtain ⟨node, spelled, hoperator, hread, htoken⟩ :=
      isOperatorRead_operator operator hrest hsource
    refine ⟨node :: nodes, .phrase .repetition rfl (Takes.cat (.present hoperator)
      (.one htakes)), ?_⟩
    have hunder := hspells.under spelled hread
    rwa [htoken] at hunder

/-- A leaf is no group and no option. -/
theorem takes_operand_leaf (leaf : Leaf) (hrest : Begins endsElement rest)
    (hsource : Holds source pos (leaf.print ++ rest)) :
    ∃ nodes, Takes (.alt (operandSymbols.map ref)) pos leaf.print rest nodes ∧
      SpellsElement source nodes (.atom (.leaf leaf)) := by
  obtain ⟨s, inner, spelled, hs, htakes, hread, htoken⟩ := isRead_leaf leaf hrest hsource
  have hquiet : ∀ t ∈ operandSymbols.takeWhile (· != .basicElement), ∀ i : Fin 128,
      (!beginsLeaf (Char.ofNat i) || t.isProperlyQuiet (some (byteOf (Char.ofNat i)))) = true := by
    decide +kernel
  refine ⟨_, .among (by decide) (fun t ht => ?_) htakes, .atom spelled, ?_, ?_⟩
  · exact refuses_of_begins (fun _ h => beginsElement_of_operand (beginsOperand_of_leaf h))
      (hquiet t ht) ((begins_leaf leaf).append rest)
  · exact readElement_leaf hs hread
  · rw [Expr.map, htoken]

theorem takes_opening {c : Char} (hc : c.toNat < 128) (h : Solid rest) :
    Takes (.cat [chars [c], ref .owsp]) pos [c] rest [] :=
  Takes.cat (.chars [c] (by simpa using hc)) (.one (takes_owsp_nil h))

theorem takes_closing {c : Char} (hc : c.toNat < 128) (h : Solid (c :: rest)) :
    Takes (.cat [ref .owsp, chars [c]]) pos [c] rest [] :=
  Takes.cat (takes_owsp_nil h) (.one (.chars [c] (by simpa using hc)))

/-! ## Sequences and alternatives -/

/-- The body of a sequence: an element, and then elements with space in front of each. -/
def sequenceBody : Expr Opcode :=
  .cat [ref .repetition, many (.cat [ref .catOp, ref .repetition])]

/-- The body of alternatives: one, and then more with a slash in front of each. -/
def choiceBody : Expr Opcode :=
  .cat [ref .concatenation, many (.cat [ref .owsp, ref .altOp, ref .concatenation])]

/-- No element of a sequence stands at the front of `rest`. -/
structure EndsSequence (rest : List Char) : Prop where
  begins : Begins endsElement rest
  refuses : Refuses (.cat [ref .catOp, ref .repetition]) rest

theorem Closing.endsSequence (h : Closing rest) : EndsSequence rest :=
  ⟨h.endsElement, .cat (refuses_catOp h.solid)⟩

/-- The slash between two alternatives is no element. -/
theorem endsSequence_slash : EndsSequence ([' '] ++ '/' :: rest) := by
  refine ⟨begins_cons.2 rfl, .behind (fun _ => ⟨[], takes_catOp ?_⟩) (.cat ?_)⟩
  · exact refuses_of_head (by decide)
  · exact refuses_of_head (by decide)

theorem Closing.refuses_alternative (h : Closing rest) :
    Refuses (.cat [ref .owsp, ref .altOp, ref .concatenation]) rest :=
  .behind (fun _ => ⟨[], takes_owsp_nil h.solid⟩) (.cat h.refuses_altOp)

/-- A slash between two spaces. -/
theorem takes_slash (h : Solid rest) :
    Takes (.cat [ref .owsp, ref .altOp]) pos [' ', '/', ' '] rest [] := by
  have hslash : Solid ('/' :: ' ' :: rest) := refuses_of_head (by decide)
  have haltOp : Takes (ref .altOp) (pos + 1) ['/', ' '] rest [] :=
    .ref .altOp rfl (Takes.cat (.chars ['/'] (by decide)) (.one (takes_owsp h)))
  exact Takes.cat (takes_owsp hslash) (.one haltOp)

theorem solid_alternatives (alternatives : Alternatives) (rest : List Char) :
    Solid (alternatives.print ++ rest) :=
  solid_of_begins ((begins_alternatives alternatives).append rest)

/-- Elements that are taken and read as they were written. -/
def ReadsSequence (source : Source) (pos : Nat) (alternative : Alternative) (rest : List Char) :
    Prop :=
  ∃ nodes, Takes sequenceBody pos alternative.print rest nodes ∧
    SpellsSequence source nodes alternative.exprs

/-- Alternatives that are taken and read as they were written. -/
def ReadsChoice (source : Source) (pos : Nat) (alternatives : Alternatives) (rest : List Char) :
    Prop :=
  ∃ nodes, Takes choiceBody pos alternatives.print rest nodes ∧
    SpellsChoice source nodes alternatives.exprs

/-- An element that is taken and read as it was written. -/
def ReadsElementAt (source : Source) (pos : Nat) (element : Element) (rest : List Char) : Prop :=
  ∃ parts, Takes (ref .repetition) pos element.print rest
      [.mk Symbol.repetition.index pos element.print.length parts] ∧
    SpellsElement source parts element.expr

/-- An element goes in front of the elements behind it. -/
theorem ReadsSequence.cons {element : Element} {more : Alternative}
    (h : ReadsElementAt source pos element (' ' :: (more.print ++ rest)))
    (hmore : ReadsSequence source (pos + element.print.length + 1) more rest) :
    ReadsSequence source pos (.cons element more) rest := by
  obtain ⟨parts, htakes, hspells⟩ := h
  obtain ⟨nodes, htakesMore, hspellsMore⟩ := hmore
  have hsolid : Solid (more.print ++ rest) :=
    solid_of_begins ((begins_alternative more).append rest)
  have hloop : Takes (many (.cat [ref .catOp, ref .repetition])) (pos + element.print.length)
      ([' '] ++ more.print) rest nodes :=
    Takes.separated (List.cons_ne_nil ' ' []) (.one (takes_catOp hsolid)) htakesMore
  exact ⟨_, Takes.cat htakes (.one hloop), hspells.sequence hspellsMore⟩

/-- The last element of a sequence. -/
theorem ReadsSequence.last {element : Element} (h : ReadsElementAt source pos element rest)
    (hrest : EndsSequence rest) : ReadsSequence source pos (.last element) rest := by
  obtain ⟨parts, htakes, hspells⟩ := h
  have htakes : Takes sequenceBody pos (element.print ++ []) rest _ :=
    Takes.cat htakes (.one (.none hrest.refuses))
  rw [List.append_nil] at htakes
  exact ⟨_, htakes, hspells.sequence ⟨[], rfl, rfl⟩⟩

/-- An alternative goes in front of the alternatives behind it. -/
theorem ReadsChoice.cons {alternative : Alternative} {more : Alternatives}
    (h : ReadsSequence source pos alternative (' ' :: '/' :: ' ' :: (more.print ++ rest)))
    (hmore : ReadsChoice source (pos + alternative.print.length + 3) more rest) :
    ReadsChoice source pos (.cons alternative more) rest := by
  obtain ⟨nodes, htakes, hspells⟩ := h
  obtain ⟨nodesMore, htakesMore, hspellsMore⟩ := hmore
  have hloop : Takes (many (.cat [ref .owsp, ref .altOp, ref .concatenation]))
      (pos + alternative.print.length) ([' ', '/', ' '] ++ more.print) rest nodesMore :=
    Takes.separated (List.cons_ne_nil _ _) (takes_slash (solid_alternatives more rest)) htakesMore
  exact ⟨_, Takes.cat (.phrase .concatenation rfl htakes) (.one hloop),
    hspells.choice hspellsMore⟩

/-- The last alternative. -/
theorem ReadsChoice.last {alternative : Alternative}
    (h : ReadsSequence source pos alternative rest) (hrest : Closing rest) :
    ReadsChoice source pos (.last alternative) rest := by
  obtain ⟨nodes, htakes, hspells⟩ := h
  have htakes : Takes choiceBody pos (alternative.print ++ []) rest _ :=
    Takes.cat (.phrase .concatenation rfl htakes) (.one (.none hrest.refuses_alternative))
  rw [List.append_nil] at htakes
  exact ⟨_, htakes, hspells.choice ⟨[], rfl, rfl⟩⟩

/-- Alternatives between round brackets. -/
theorem ReadsChoice.group {alternatives : Alternatives}
    (h : ReadsChoice source (pos + 1) alternatives (')' :: rest)) :
    ∃ nodes, Takes (.alt (operandSymbols.map ref)) pos ('(' :: (alternatives.print ++ [')'])) rest
        nodes ∧ SpellsElement source nodes (.alt alternatives.exprs) := by
  obtain ⟨nodes, htakes, hspells⟩ := h
  have htakes : Takes choiceBody (pos + 1) alternatives.print ([')'] ++ rest) nodes := htakes
  have hclosing : Solid (')' :: rest) := (closing_bracket (Or.inl rfl)).solid
  have hopening : Solid (alternatives.print ++ [')'] ++ rest) := by
    rw [List.append_assoc]
    exact solid_alternatives alternatives _
  have hgroup : Takes (ref .group) pos ('(' :: (alternatives.print ++ [')'])) rest
      [.mk Symbol.alternation.index (pos + 1) alternatives.print.length nodes] :=
    .ref .group rfl (Takes.cat (.ref .groupOpen rfl (takes_opening (by decide) hopening))
      (Takes.cat (.phrase .alternation rfl htakes)
        (.one (.hit (.ref .groupClose rfl (takes_closing (by decide) hclosing))))))
  exact ⟨_, .hit hgroup, hspells.element _ _⟩

/-- Alternatives between square brackets are governed by the opening one. -/
theorem ReadsChoice.option {alternatives : Alternatives}
    (h : ReadsChoice source (pos + 1) alternatives (']' :: rest)) :
    ∃ nodes, Takes (.alt (operandSymbols.map ref)) pos ('[' :: (alternatives.print ++ [']'])) rest
        nodes ∧ SpellsElement source nodes (.under .optional (.alt alternatives.exprs)) := by
  obtain ⟨nodes, htakes, hspells⟩ := h
  have htakes : Takes choiceBody (pos + 1) alternatives.print ([']'] ++ rest) nodes := htakes
  have hclosing : Solid (']' :: rest) := (closing_bracket (Or.inr rfl)).solid
  have hopening : Solid (alternatives.print ++ [']'] ++ rest) := by
    rw [List.append_assoc]
    exact solid_alternatives alternatives _
  have hoption : Takes (ref .option) pos ('[' :: (alternatives.print ++ [']'])) rest
      [.mk Symbol.optionOpen.index pos 1 [],
        .mk Symbol.alternation.index (pos + 1) alternatives.print.length nodes] :=
    .ref .option rfl (Takes.cat (.phrase .optionOpen rfl (takes_opening (by decide) hopening))
      (Takes.cat (.phrase .alternation rfl htakes)
        (.one (.hit (.ref .optionClose rfl (takes_closing (by decide) hclosing))))))
  refine ⟨_, .miss (refuses_of_head (by decide)) (.hit hoption), ?_⟩
  exact (hspells.element _ _).under (.plain (.rep 0 (some 1)) .optional rfl fun _ => rfl) rfl

/-! ## Trees

The three statements go by induction on the trees together. Only the condition on the text behind
them changes from one to the next: inside brackets the closing one follows, between alternatives a
slash, between elements a space. -/

mutual

/-- An element is taken as a whole and read as it was written. -/
theorem reads_element : (element : Element) → {pos : Nat} → {rest : List Char} →
    Begins endsElement rest → Holds source pos (element.print ++ rest) →
      ReadsElementAt source pos element rest
  | .leaf operator leaf, pos, rest, hrest, hsource => by
    rw [Element.print, List.append_assoc] at hsource
    obtain ⟨nodes, htakes, hspells⟩ := takes_operand_leaf leaf hrest hsource.skip
    exact takes_repetition operator ((begins_leaf leaf).imp fun _ => beginsOperand_of_leaf)
      hsource htakes hspells
  | .group operator alternatives, pos, rest, hrest, hsource => by
    rw [Element.print, List.append_assoc] at hsource
    have hinner : Holds source pos (printOperator operator ++
        (['('] ++ (alternatives.print ++ (')' :: rest)))) := by
      simpa using hsource
    obtain ⟨nodes, htakes, hspells⟩ :=
      (reads_alternatives alternatives (closing_bracket (Or.inl rfl)) hinner.skip.skip).group
    exact takes_repetition operator (begins_cons.2 rfl) hsource htakes hspells
  | .option operator alternatives, pos, rest, hrest, hsource => by
    rw [Element.print, List.append_assoc] at hsource
    have hinner : Holds source pos (printOperator operator ++
        (['['] ++ (alternatives.print ++ (']' :: rest)))) := by
      simpa using hsource
    obtain ⟨nodes, htakes, hspells⟩ :=
      (reads_alternatives alternatives (closing_bracket (Or.inr rfl)) hinner.skip.skip).option
    exact takes_repetition operator (begins_cons.2 rfl) hsource htakes hspells

/-- The elements of an alternative are taken as a whole and read as they were written. -/
theorem reads_alternative : (alternative : Alternative) → {pos : Nat} → {rest : List Char} →
    EndsSequence rest → Holds source pos (alternative.print ++ rest) →
      ReadsSequence source pos alternative rest
  | .last element, pos, rest, hrest, hsource => by
    exact .last (reads_element element hrest.begins hsource) hrest
  | .cons element more, pos, rest, hrest, hsource => by
    have hsource : Holds source pos (element.print ++ ([' '] ++ (more.print ++ rest))) := by
      simpa [Alternative.print] using hsource
    exact .cons (reads_element element (begins_cons.2 rfl) hsource)
      (reads_alternative more hrest hsource.skip.skip)

/-- Alternatives are taken as a whole and read as they were written. -/
theorem reads_alternatives : (alternatives : Alternatives) → {pos : Nat} → {rest : List Char} →
    Closing rest → Holds source pos (alternatives.print ++ rest) →
      ReadsChoice source pos alternatives rest
  | .last alternative, pos, rest, hrest, hsource => by
    exact .last (reads_alternative alternative hrest.endsSequence hsource) hrest
  | .cons alternative more, pos, rest, hrest, hsource => by
    have hsource : Holds source pos
        (alternative.print ++ ([' ', '/', ' '] ++ (more.print ++ rest))) := by
      simpa [Alternatives.print] using hsource
    exact .cons (reads_alternative alternative endsSequence_slash hsource)
      (reads_alternatives more hrest hsource.skip.skip)

end

end Abnf.Canonical
