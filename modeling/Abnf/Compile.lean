import Abnf.Grammar
import Abnf.Reduction
import Abnf.Tables

/-!
# Compiling grammar text

Text becomes a grammar in stages: the characters are checked, the text is recognized, its
definitions become tables, and the tables are reduced and analyzed. The first stage that objects
ends the work, with all its objections.
-/

namespace Abnf

/-! ## Objections -/

/-- Why a text is no grammar: the objections of the first stage that has any. -/
inductive CompileError where
  /-- Characters that cannot stand in a grammar, or line ends that are not allowed. -/
  | characters (diagnostics : List Diagnostic)
  /-- Text that does not have the form of definition lines. -/
  | form (diagnostics : List Diagnostic)
  /-- Definitions that do not mean anything. -/
  | meaning (diagnostics : List Diagnostic)
  /-- Rules of no use to a recursive-descent matcher. -/
  | rules (faulty : List FaultyRule)
  deriving Repr, DecidableEq

namespace CompileError

/-- The located objections; faulty rules are objected to as a whole. -/
def diagnostics : CompileError → List Diagnostic
  | characters ds | form ds | meaning ds => ds
  | rules _ => []

/-- The rules objected to. -/
def faultyRules : CompileError → List FaultyRule
  | rules faulty => faulty
  | _ => []

/-- What was wrong, in general. -/
def heading : CompileError → String
  | characters _ => "invalid grammar input:"
  | form _ => "grammar syntax errors:"
  | meaning _ => "grammar semantic errors:"
  | rules _ => "grammar attribute errors:"

/-- The objections, one text each. -/
def items (error : CompileError) : List String :=
  error.diagnostics.map Diagnostic.text ++ error.faultyRules.map FaultyRule.text

/-- The heading and, each on a line of its own, the objections. -/
def message (error : CompileError) : String :=
  error.heading ++ String.join (error.items.map fun item => "\n  " ++ item)

end CompileError

/-! ## Several sources -/

/-- Whether a text can be followed by another one: it is empty or its last line has ended. -/
def endsLine (text : String) : Bool :=
  match text.toList.getLast? with
  | some c => c == '\n' || c == '\r'
  | none => true

/-- Puts texts one after the other behind `before`. A text that stops within a line gets a line
end, except the last one. -/
def joinSources (lineEnd before : String) : List String → String
  | [] => before
  | [last] => before ++ last
  | source :: rest =>
    let text := before ++ source
    joinSources lineEnd (if endsLine text then text else text ++ lineEnd) rest

/-! ## Stages -/

/-- Compiles one text. A strict text may use no extension and has CRLF line ends only. -/
def compileText (strict : Bool) (text : String) : Except Fault (Except CompileError Grammar) := do
  let source := Source.ofString text
  let rejected := source.characterDiagnostics strict
  if !rejected.isEmpty then
    return .error (.characters rejected)
  let recognition ← Metagrammar.recognize source strict
  let misshapen := recognition.diagnostics source
  if !misshapen.isEmpty then
    return .error (.form misshapen)
  let tables := Tables.ofRecognition source recognition
  let meaningless := tables.diagnostics source
  if !meaningless.isEmpty then
    return .error (.meaning meaningless)
  let rules ← Reduction.reduce tables.rules
  let analysis ← Analysis.analyze rules
  let faulty := analysis.faultyRules rules
  if !faulty.isEmpty then
    return .error (.rules faulty)
  return .ok ⟨rules, tables.udts, analysis, text⟩

/-- Compiles the text that several sources form together. -/
def compile (strict : Bool) (sources : List String) : Except Fault (Except CompileError Grammar) :=
  compileText strict (joinSources (if strict then "\r\n" else "\n") "" sources)

end Abnf
