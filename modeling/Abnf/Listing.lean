import Abnf.Summary
import Abnf.Text.Quoted

/-!
# Listings

A grammar as the text of a module of source code that builds its tables anew: the names for
callbacks, the rules with one constructor expression an opcode, the user-defined terminals and
the grammar text, below a comment with the summary. Each opcode has a comment in which references
are spelled out by name.
-/

namespace Abnf.Listing

open Text

/-! ## Expressions -/

/-- Numbers in brackets, separated by commas. -/
def numberList (numbers : List Nat) : String :=
  "[" ++ ", ".intercalate (numbers.map toString) ++ "]"

/-- A truth value. -/
def truth (b : Bool) : String :=
  if b then "true" else "false"

/-- The fields of an opcode's constructor expression. -/
def fields : Opcode → List (String × String)
  | .alt children | .cat children => [("children", "vec!" ++ numberList children)]
  | .rep min max =>
    [("min", toString min), ("max", max.elim "None" fun max => s!"Some({max})")]
  | .rnm rule => [("index", toString rule)]
  | .udt index empty => [("index", toString index), ("empty", truth empty)]
  | .bkr index toUdt caseInsensitive =>
    [("index", toString index), ("udt", truth toUdt), ("case_insensitive", truth caseInsensitive)]
  | .tls chars | .tbs chars => [("string", "vec!" ++ numberList (chars.map UInt32.toNat))]
  | .trg min max => [("min", toString min), ("max", toString max)]
  | .and | .not | .bka | .bkn | .abg | .aen => []

/-- The constructor of an opcode: its mnemonic with only the first letter in upper case. -/
def constructor (op : Opcode) : String :=
  "Opcode::" ++ op.mnemonic.toLower.capitalize

/-- The constructor expression of an opcode. -/
def expression (op : Opcode) : String :=
  match fields op with
  | [] => constructor op
  | entries =>
    constructor op ++ " \x7b " ++
      ", ".intercalate (entries.map fun (name, value) => name ++ ": " ++ value) ++ " \x7d"

/-- The text of an opcode with references spelled out by name. -/
def comment (grammar : Grammar) (op : Opcode) : Except Fault String := do
  match op with
  | .rnm rule => return "RNM(" ++ (← fetch grammar.rules rule).name ++ ")"
  | .udt index _ => return "UDT(" ++ (← fetch grammar.udts index).name ++ ")"
  | .bkr index toUdt caseInsensitive =>
    let name ← if toUdt then Udt.name <$> fetch grammar.udts index
      else Rule.name <$> fetch grammar.rules index
    return "BKR(\\" ++ (if caseInsensitive then "%i" else "%s") ++ name ++ ")"
  | _ => return op.text

/-! ## Lines -/

/-- The line of the opcode at position `index` of its rule. -/
def opcodeLine (grammar : Grammar) (op : Opcode) (index : Nat) : Except Fault String := do
  return "                " ++ expression op ++ s!", // {index}: " ++ (← comment grammar op)

/-- The lines of a rule. -/
def ruleLines (grammar : Grammar) (rule : Rule) : Except Fault (List String) := do
  let opcodes ← rule.opcodes.toList.zipIdx.mapM fun (op, index) => opcodeLine grammar op index
  return ["        Rule::new(", "            " ++ quoted rule.name ++ ",",
    s!"            {rule.index},", "            vec!["] ++ opcodes ++
    ["            ],", "        ),"]

/-- The line of a user-defined terminal. -/
def udtLine (udt : Udt) : String :=
  "        Udt::new(" ++ quoted udt.name ++ s!", {udt.index}, " ++ truth udt.empty ++ "),"

/-- The lines that make up the list of user-defined terminals. -/
def udtLines (udts : List Udt) : List String :=
  if udts.isEmpty then ["    Vec::new()"] else ["    vec!["] ++ udts.map udtLine ++ ["    ]"]

/-- The lines of a listing. -/
def lines (grammar : Grammar) : Except Fault (List String) := do
  let rules ← grammar.rules.toList.mapM (ruleLines grammar)
  return ["// Generated by sabnf 0.1.0.", "//", "// SUMMARY"] ++
    (Summary.ofGrammar grammar).lines.map ("// " ++ ·) ++
    ["", "use sabnf::\x7bOpcode, Rule, Udt\x7d;", "",
      "/// Lowercased rule and UDT names, sorted.",
      "pub const CALLBACK_NAMES: &[&str] = &["] ++
    grammar.callbackNames.map (fun name => "    " ++ quoted name ++ ",") ++
    ["];", "", "pub fn rules() -> Vec<Rule> \x7b", "    vec!["] ++ rules.flatten ++
    ["    ]", "\x7d", "", "pub fn udts() -> Vec<Udt> \x7b"] ++ udtLines grammar.udts.toList ++
    ["\x7d", "", "/// The grammar these tables were generated from.",
      "pub const SOURCE: &str = " ++ quoted grammar.source ++ ";"]

/-- The text of a listing; every line ends in a line feed. -/
def text (grammar : Grammar) : Except Fault String := do
  return String.join ((← lines grammar).map (· ++ "\n"))

end Abnf.Listing

namespace Abnf.Grammar

/-- The source code that builds the tables of a grammar anew. -/
def listing (grammar : Grammar) : Except Fault String :=
  Listing.text grammar

/-- The summary of a grammar. -/
def summary (grammar : Grammar) : Summary :=
  Summary.ofGrammar grammar

end Abnf.Grammar
