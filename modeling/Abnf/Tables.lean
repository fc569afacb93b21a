import Abnf.Definition

/-!
# Tables

The rule table and the table of user-defined terminals that definition lines stand for, with the
flaws of meaning found on the way. A line that defines a name twice, or extends a name that is not
defined, is objected to and contributes nothing else; references are looked up when all lines are
known, so a rule may be used before it is defined.
-/

namespace Abnf

/-- What can be wrong with the meaning of a grammar text. -/
inductive MeaningFlaw where
  /-- The text has flaws of structure, so it means nothing yet. -/
  | notRecognized
  | redefined (name : String)
  | notYetDefined (name : String)
  | tooLarge (digits : String)
  | repetitionBounds (min max : UInt32)
  | rangeBounds (min max : UInt32)
  | undefinedRule (name : String)
  | undefinedBackReference (name : String)
  deriving Repr, DecidableEq

/-- The message of a flaw of meaning. -/
def MeaningFlaw.message : MeaningFlaw → String
  | notRecognized =>
    "cannot do semantic analysis until syntax analysis has completed without errors"
  | redefined name => "Rule name '" ++ name ++ "' previously defined."
  | notYetDefined name =>
    "Rule name '" ++ name ++ "' for incremental alternate not previously defined."
  | tooLarge digits => "numeric value '" ++ digits ++ "' does not fit in 32 bits"
  | repetitionBounds min max =>
    s!"repetition min cannot be greater than max: min: {min}: max: {max}"
  | rangeBounds min max =>
    s!"TRG, (%dmin-max), min cannot be greater than max: min: {min}: max: {max}"
  | undefinedRule name => "Rule name '" ++ name ++ "' used but not defined."
  | undefinedBackReference name =>
    "Back reference name '" ++ name ++ "' refers to an undefined rule or UDT."

/-! ## Names -/

/-- The names that can be referred to, in the order of their tables and in the form in which
names are compared. -/
structure Names where
  rules : List String
  udts : List String

namespace Names

/-- The position of a rule. -/
def rule? (names : Names) (name : String) : Option Nat :=
  names.rules.idxOf? (lowerName name)

/-- The position of a user-defined terminal. -/
def udt? (names : Names) (name : String) : Option Nat :=
  names.udts.idxOf? (lowerName name)

end Names

/-! ## Atoms -/

namespace Atom

/-- The numerals of an atom, from left to right. -/
def numerals : Atom → List Numeral
  | repetition _ min max => min.toList ++ max.toList
  | exactly count => [count]
  | string chars => chars
  | range _ min max => [min, max]
  | _ => []

/-- The flaw of bounds in the wrong order. -/
def boundsFlaw? : Atom → Option (Nat × MeaningFlaw)
  | repetition offset min (some max) =>
    let least := min.elim 0 Numeral.word
    if max.word < least then some (offset, .repetitionBounds least max.word) else none
  | range offset min max =>
    if max.word < min.word then some (offset, .rangeBounds min.word max.word) else none
  | _ => none

/-- The flaws of an atom by itself: numerals that do not fit, then bounds in the wrong order. -/
def localFlaws (atom : Atom) : List (Nat × MeaningFlaw) :=
  (atom.numerals.filter fun numeral => !numeral.fits).map
      (fun numeral => (numeral.offset, .tooLarge numeral.digits)) ++
    atom.boundsFlaw?.toList

/-- The flaw of referring to a name that stands for nothing. -/
def referenceFlaw? (names : Names) : Atom → Option (Nat × MeaningFlaw)
  | ruleName offset name =>
    if (names.rule? name).isNone then some (offset, .undefinedRule name) else none
  | backReference offset name _ =>
    if (names.udt? name).isNone && (names.rule? name).isNone then
      some (offset, .undefinedBackReference name)
    else
      none
  | _ => none

/-- The opcode that an atom stands for. A back-reference looks among the user-defined terminals
first; a name that stands for nothing refers to rule 0. -/
def resolve (names : Names) : Atom → Opcode
  | plain op => op
  | ruleName _ name => .rnm ((names.rule? name).getD 0)
  | udtName name empty => .udt ((names.udt? name).getD 0) empty
  | backReference _ name caseInsensitive =>
    match names.udt? name with
    | some index => .bkr index true caseInsensitive
    | none => .bkr ((names.rule? name).getD 0) false caseInsensitive
  | repetition _ min max => .rep (min.elim 0 Numeral.word) (max.map Numeral.word)
  | exactly count => .rep count.word (some count.word)
  | string chars => .tbs (chars.map Numeral.word)
  | range _ min max => .trg min.word max.word

/-- The user-defined terminal that an atom names. -/
def udt? : Atom → Option (String × Bool)
  | udtName name empty => some (name, empty)
  | _ => none

end Atom

/-! ## Definition lines -/

namespace Definition

/-- The objection to a line when the names in `known` are defined by the lines before it. -/
def objection? (known : List String) (definition : Definition) : Option MeaningFlaw :=
  match definition.incremental, known.contains definition.lower with
  | false, true => some (.redefined definition.name)
  | true, false => some (.notYetDefined definition.name)
  | _, _ => none

/-- Each line with the objection to it, if there is one, when the names in `known` are defined
before all of them. -/
def review (known : List String) :
    List Definition → List (Definition × Option MeaningFlaw)
  | [] => []
  | definition :: rest =>
    let objection := definition.objection? known
    let known' :=
      if objection.isNone && !definition.incremental then known ++ [definition.lower] else known
    (definition, objection) :: review known' rest

end Definition

/-- The elements whose key occurs for the first time. -/
def firstByKey {α : Type} (key : α → String) (seen : List String) : List α → List α
  | [] => []
  | a :: rest =>
    if seen.contains (key a) then
      firstByKey key seen rest
    else
      a :: firstByKey key (key a :: seen) rest

/-! ## Tables -/

/-- Rules and user-defined terminals, and the flaws of meaning with their offsets. -/
structure Tables where
  rules : Array Rule
  udts : Array Udt
  flaws : List (Nat × MeaningFlaw)

namespace Tables

/-- The tables of some definition lines. -/
def ofDefinitions (definitions : List Definition) : Tables :=
  let reviewed := Definition.review [] definitions
  let contributing := (reviewed.filter fun line => line.2.isNone).map Prod.fst
  let defining := contributing.filter fun line => !line.incremental
  let atoms := contributing.flatMap Definition.atoms
  let udts := firstByKey (fun udt => lowerName udt.1) [] (atoms.filterMap Atom.udt?)
  let names : Names := ⟨defining.map Definition.lower, udts.map fun udt => lowerName udt.1⟩
  let body := fun (line : Definition) =>
    (contributing.filter fun other => other.lower == line.lower).flatMap Definition.alternatives
  let rules := defining.zipIdx.map fun (line, index) =>
    (⟨line.name, index, ((Expr.alt (body line)).map (Atom.resolve names)).layout⟩ : Rule)
  let localFlaws := reviewed.flatMap fun (line, objection) =>
    match objection with
    | some flaw => [(line.offset, flaw)]
    | none => line.atoms.flatMap Atom.localFlaws
  ⟨rules.toArray, (udts.zipIdx.map fun (udt, index) => ⟨udt.1, index, udt.2⟩).toArray,
    localFlaws ++ atoms.filterMap (Atom.referenceFlaw? names)⟩

/-- The tables of a source in which recognition found no flaw; a source with flaws has none. -/
def ofRecognition (source : Source) (recognition : Metagrammar.Recognition) : Tables :=
  if recognition.flaws.isEmpty then
    ofDefinitions (Definition.ofForest source recognition.records.forest)
  else
    ⟨#[], #[], [(0, .notRecognized)]⟩

/-- The diagnostics of the flaws of meaning. -/
def diagnostics (tables : Tables) (source : Source) : List Diagnostic :=
  tables.flaws.map fun (offset, flaw) => source.diagnostic offset flaw.message

end Tables

end Abnf
