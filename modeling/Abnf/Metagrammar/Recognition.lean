import Abnf.Engine
import Abnf.Metagrammar.Table
import Abnf.Source

/-!
# Recognition of grammar texts

Matches a source against the metagrammar. The metagrammar also matches malformed text, so faults
of structure show as matches of its error symbols, or as delimiters that do not close; an observer
of the match notes them at the offset of the construct that went wrong. Strict recognition also
notes every operator that plain ABNF does not have.
-/

namespace Abnf.Metagrammar

/-! ## Flaws of structure -/

/-- An operator that plain ABNF does not have. -/
inductive Extension where
  | and
  | not
  | lookBehind
  | notLookBehind
  | beginAnchor
  | endAnchor
  | backReference
  | userTerminal
  | caseSensitiveString
  deriving Repr, DecidableEq

/-- How messages name an extension. -/
def Extension.name : Extension → String
  | and => "AND operator(&)"
  | not => "NOT operator(!)"
  | lookBehind => "Positive look-behind operator(&&)"
  | notLookBehind => "Negative look-behind operator(!!)"
  | beginAnchor => "Beginning of string anchor(%^)"
  | endAnchor => "End of string anchor(%$)"
  | backReference => "Back reference operator(\\name)"
  | userTerminal => "UDT operator(u_name)"
  | caseSensitiveString => "Case-sensitive string operator('...')"

/-- What can be wrong with the structure of a grammar text. -/
inductive Flaw where
  | emptyFile
  | noRules
  | unrecognizedLine
  | badRuleName
  | badDefinedAs
  | extension (found : Extension)
  | tabInString
  | tabInProse
  | unclosedString
  | unclosedCaseSensitiveString
  | proseFound
  | unclosedProse
  | unclosedGroup
  | unclosedOption
  | unrecognizedElement
  | unrecognizedEnding
  /-- The metagrammar does not match the whole text. -/
  | unreadable
  deriving Repr, DecidableEq

/-- The message of a flaw. -/
def Flaw.message : Flaw → String
  | emptyFile => "grammar file is empty"
  | noRules => "no rules defined"
  | unrecognizedLine => "Unrecognized SABNF line. Invalid rule, comment or blank line."
  | badRuleName => "Rule names must be alphanum and begin with alphabetic character."
  | badDefinedAs => "Expected '=' or '=/'. Not found."
  | extension found => found.name ++ " found - strict ABNF specified."
  | tabInString =>
    "Tab character (\\t, x09) not allowed in literal string " ++
      "(see 'quoted-string' definition, RFC 7405.)"
  | tabInProse => "Tab character (\\t, x09) not allowed in prose value string."
  | unclosedString => "Case-insensitive literal string(\"...\") opened but not closed."
  | unclosedCaseSensitiveString =>
    "Case-sensitive literal string('...') opened but not closed."
  | proseFound =>
    "Prose value operator(<...>) found. The ABNF syntax is valid, " ++
      "but a parser cannot be generated from this grammar."
  | unclosedProse => "Prose value operator(<...>) opened but not closed."
  | unclosedGroup => "Group \"(...)\" opened but not closed."
  | unclosedOption => "Option \"[...]\" opened but not closed."
  | unrecognizedElement => "Unrecognized SABNF element."
  | unrecognizedEnding => "Unrecognized grammar element or characters."
  | unreadable => "syntax analysis of input grammar failed"

/-! ## The observer -/

/-- Where the delimiters of one level were opened. A level is the body of a rule, or one open
group or option. -/
structure Level where
  /-- Offset of the bracket that opened the level. -/
  bracket : Nat
  string : Nat := 0
  caseSensitiveString : Nat := 0
  prose : Nat := 0
  /-- An unclosed string or prose value of this level was noted; the stray characters that follow
  it are the same mistake. -/
  noted : Bool := false
  deriving Repr, Inhabited

/-- What the observer remembers while a text is matched. -/
structure Notes where
  strict : Bool
  ruleCount : Nat := 0
  /-- The open levels, innermost first. -/
  levels : List Level := []
  /-- The last tab in the string that is being matched. -/
  tab : Option Nat := none
  flaws : Array (Nat × Flaw) := #[]

namespace Notes

/-- Notes a flaw once: a place that is matched again shows the same flaw again. -/
def note (notes : Notes) (offset : Nat) (flaw : Flaw) : Notes :=
  if notes.flaws.contains (offset, flaw) then
    notes
  else
    { notes with flaws := notes.flaws.push (offset, flaw) }

/-- Notes an extension if recognition is strict. -/
def noteExtension (notes : Notes) (offset : Nat) (found : Extension) : Notes :=
  if notes.strict then notes.note offset (.extension found) else notes

/-- The innermost level. -/
def level (notes : Notes) : Level :=
  notes.levels.headD { bracket := 0 }

/-- Changes the innermost level. -/
def modifyLevel (notes : Notes) (f : Level → Level) : Notes :=
  { notes with levels := f notes.level :: notes.levels.tail }

/-- Opens a level inside the innermost one. -/
def enterLevel (notes : Notes) (bracket : Nat) : Notes :=
  { notes with levels := { bracket := bracket } :: notes.levels }

/-- Leaves the innermost level; the body of a rule is never left. -/
def leaveLevel (notes : Notes) : Notes :=
  match notes.levels with
  | _ :: outer :: levels => { notes with levels := outer :: levels }
  | _ => notes

/-- Notes the last tab of the string that has been matched, if it had one. -/
def noteTab (notes : Notes) (flaw : Flaw) : Notes :=
  match notes.tab with
  | some tab => notes.note tab flaw
  | none => notes

/-- Notes a delimiter opened at `offset` that does not close. -/
def noteUnclosed (notes : Notes) (offset : Nat) (flaw : Flaw) : Notes :=
  (notes.modifyLevel fun level => { level with noted := true }).note offset flaw

/-- What a symbol that begins or ends at `offset` changes. -/
def observe (notes : Notes) (symbol : Symbol) (phase : Engine.Phase) (offset : Nat) : Notes :=
  match symbol, phase with
  | .file, .active => { notes with ruleCount := 0, levels := [], tab := none }
  | .file, .empty => notes.note offset .emptyFile
  | .file, .matched => if notes.ruleCount = 0 then notes.note offset .noRules else notes
  | .rule, .active => { notes with levels := [{ bracket := offset }] }
  | .rule, .matched => { notes with ruleCount := notes.ruleCount + 1 }
  | .ruleError, .matched => notes.note offset .unrecognizedLine
  | .ruleNameError, .matched => notes.note offset .badRuleName
  | .definedAsError, .matched => notes.note offset .badDefinedAs
  | .andOp, .matched => notes.noteExtension offset .and
  | .notOp, .matched => notes.noteExtension offset .not
  | .bkaOp, .matched => notes.noteExtension offset .lookBehind
  | .bknOp, .matched => notes.noteExtension offset .notLookBehind
  | .abgOp, .matched => notes.noteExtension offset .beginAnchor
  | .aenOp, .matched => notes.noteExtension offset .endAnchor
  | .bkrOp, .matched => notes.noteExtension offset .backReference
  | .udtOp, .matched => notes.noteExtension offset .userTerminal
  | .tlsOpen, .matched => notes.modifyLevel fun level => { level with string := offset }
  | .clsOpen, .matched =>
    notes.modifyLevel fun level => { level with caseSensitiveString := offset }
  | .prosValOpen, .matched => notes.modifyLevel fun level => { level with prose := offset }
  | .stringTab, .matched => { notes with tab := some offset }
  | .tlsString, .active | .clsString, .active | .prosValString, .active =>
    { notes with tab := none }
  | .tlsString, .matched | .clsString, .matched => notes.noteTab .tabInString
  | .prosValString, .matched => notes.noteTab .tabInProse
  | .tlsClose, .failed => notes.noteUnclosed notes.level.string .unclosedString
  | .clsClose, .failed =>
    notes.noteUnclosed notes.level.caseSensitiveString .unclosedCaseSensitiveString
  | .clsClose, .matched =>
    notes.noteExtension notes.level.caseSensitiveString .caseSensitiveString
  | .prosValClose, .failed => notes.noteUnclosed notes.level.prose .unclosedProse
  | .prosValClose, .matched => notes.note notes.level.prose .proseFound
  | .group, .active | .option, .active => notes.enterLevel offset
  | .group, _ | .option, _ => notes.leaveLevel
  | .groupClose, .failed => notes.note notes.level.bracket .unclosedGroup
  | .optionClose, .failed => notes.note notes.level.bracket .unclosedOption
  | .basicElementError, .matched =>
    if notes.level.noted then
      notes.modifyLevel fun level => { level with noted := false }
    else
      notes.note offset .unrecognizedElement
  | .lineEndError, .matched => notes.note offset .unrecognizedEnding
  | _, _ => notes

end Notes

/-! ## Recognition -/

/-- Whether the phrases of a symbol are needed to read the definitions of a text. -/
def Symbol.isRecorded : Symbol → Bool
  | file | rule | ruleLookup | ruleName | defined | incAlt | alternation | concatenation
  | repetition | optionOpen | repOp | repMin | repMax | repMinMax | andOp | notOp | bkaOp | bknOp
  | abgOp | aenOp | bkrOp | bkrCs | bkrCi | bkrName | rnmOp | udtEmpty | udtNonEmpty | tlsOp
  | clsOp | tbsOp | dString | xString | bString | trgOp | dmin | dmax | xmin | xmax | bmin
  | bmax => true
  | _ => false

/-- The watch that recognition runs under. -/
def watch : Engine.Watch Notes where
  recorded rule := (Symbol.ofIndex? rule).any Symbol.isRecorded
  observe rule phase offset _ notes :=
    match Symbol.ofIndex? rule with
    | some symbol => notes.observe symbol phase offset
    | none => notes

/-- What recognition found in a text. -/
structure Recognition where
  /-- Flaws of structure with their offsets, in the order found. -/
  flaws : List (Nat × Flaw)
  /-- Definition lines recognised. -/
  ruleCount : Nat
  /-- The phrases of the recorded symbols. -/
  records : Records

/-- Matches a source against the metagrammar. -/
def recognize (source : Source) (strict : Bool) : Except Fault Recognition := do
  let found ← Engine.run rules watch Symbol.file.index source.bytes { strict := strict }
  let unread :=
    if found.isComplete source.bytes then [] else [(found.matched.getD 0, Flaw.unreadable)]
  return ⟨found.observed.flaws.toList ++ unread, found.observed.ruleCount, found.records⟩

/-- The diagnostics of recognition. -/
def Recognition.diagnostics (recognition : Recognition) (source : Source) : List Diagnostic :=
  recognition.flaws.map fun (offset, flaw) => source.diagnostic offset flaw.message

end Abnf.Metagrammar
