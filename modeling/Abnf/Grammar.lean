import Abnf.Analysis

/-!
# Grammars

A grammar is a table of rules, the user-defined terminals they use, what the analysis found out
about the rules, and the text they were read from.
-/

namespace Abnf

/-- Rules and user-defined terminals with the analysis and the text that belong to them. -/
structure Grammar where
  rules : Array Rule
  udts : Array Udt
  analysis : Analysis
  source : String
  deriving Repr, DecidableEq

namespace Grammar

/-- The one-line text of a grammar: how large it is. -/
def text (grammar : Grammar) : String :=
  s!"Grammar({grammar.rules.size} rules, {grammar.udts.size} udts, " ++
    s!"{opcodeCount grammar.rules} opcodes)"

/-- The first rule with the name, which is compared without regard to case. -/
def rule? (grammar : Grammar) (name : String) : Option Rule :=
  grammar.rules.find? fun rule => rule.lower == lowerName name

/-- The names of the rules that a rule reaches, in the order of the rules. -/
def dependencies (grammar : Grammar) (rule : Rule) : Except Fault (List String) := do
  let found ← fetch grammar.analysis.classes rule.index
  found.references.mapM fun index => Rule.name <$> fetch grammar.rules index

/-- The names of the rules that the named rule reaches, or nothing if there is no such rule. -/
def dependenciesOf (grammar : Grammar) (name : String) : Except Fault (Option (List String)) :=
  match grammar.rule? name with
  | some rule => some <$> grammar.dependencies rule
  | none => .ok none

/-- The names under which an application registers callbacks: those of all rules and user-defined
terminals, in lower case and in ascending order. -/
def callbackNames (grammar : Grammar) : List String :=
  (grammar.rules.toList.map Rule.lower ++ grammar.udts.toList.map Udt.lower).mergeSort
    fun a b => !decide (b < a)

end Grammar

end Abnf
