import Abnf.Tables

/-!
# Canonical grammar texts

Grammars as trees, the canonical text of such a grammar, and the tables that it stands for. Trees
carry what makes them well formed: names are names, bounds are in order, and nothing that has to
have parts can be without them.
-/

namespace Abnf.Canonical

/-! ## Names, numbers and quoted text -/

/-- Whether a character can begin a name. -/
def isLetter (c : Char) : Bool :=
  ('a' ≤ c && c ≤ 'z') || ('A' ≤ c && c ≤ 'Z')

/-- Whether a character is a decimal digit. -/
def isDigit (c : Char) : Bool :=
  '0' ≤ c && c ≤ '9'

/-- Whether a character can continue a name. -/
def isNameCharacter (c : Char) : Bool :=
  isLetter c || isDigit c || c == '-'

/-- A letter, and then letters, digits and hyphens. -/
structure Name where
  first : Char
  rest : List Char
  first_isLetter : isLetter first = true
  rest_isName : ∀ c ∈ rest, isNameCharacter c = true

/-- The characters of a name. -/
def Name.chars (name : Name) : List Char :=
  name.first :: name.rest

theorem isNameCharacter_of_mem_nil : ∀ c ∈ ([] : List Char), isNameCharacter c = true :=
  List.forall_mem_nil _

/-- The name of one letter. -/
def Name.ofLetter (c : Char) (h : isLetter c = true) : Name :=
  ⟨c, [], h, isNameCharacter_of_mem_nil⟩

/-- A name of a rule, or of a user-defined terminal, which tells whether that may be empty. -/
inductive Reference where
  | rule (name : Name)
  | udt (empty : Bool) (name : Name)

namespace Reference

/-- The text of a reference. -/
def print : Reference → List Char
  | rule name => name.chars
  | udt true name => 'e' :: '_' :: name.chars
  | udt false name => 'u' :: '_' :: name.chars

/-- The form of a reference that is compared. -/
def lower (reference : Reference) : String :=
  lowerName (String.ofList reference.print)

end Reference

/-- Printable characters other than the delimiter. -/
structure Quoted (delimiter : Char) where
  chars : List Char
  printable : ∀ c ∈ chars, ' ' ≤ c ∧ c ≤ '~' ∧ c ≠ delimiter

/-- A number in decimal digits. -/
def printNumber (n : UInt32) : List Char :=
  Nat.toDigits 10 n.toNat

/-- Numbers, each behind a dot. -/
def printDotted : List UInt32 → List Char
  | [] => []
  | n :: ns => '.' :: printNumber n ++ printDotted ns

/-! ## Operators and leaves -/

/-- What can stand in front of an element. -/
inductive Operator where
  | between (min max : UInt32) (le : min ≤ max)
  | atLeast (min : UInt32)
  | and
  | not
  | lookBehind
  | notLookBehind

/-- The text of an operator. -/
def Operator.print : Operator → List Char
  | between min max _ => printNumber min ++ '*' :: printNumber max
  | atLeast min => printNumber min ++ ['*']
  | and => ['&']
  | not => ['!']
  | lookBehind => ['&', '&']
  | notLookBehind => ['!', '!']

/-- What is an element by itself. -/
inductive Leaf where
  | name (reference : Reference)
  | string (first : UInt32) (rest : List UInt32)
  | range (min max : UInt32) (le : min ≤ max)
  | quoted (text : Quoted '\x22')
  | caseSensitive (text : Quoted '\x27')
  | begins
  | ends
  | back (caseInsensitive : Bool) (reference : Reference)

/-- The text of a leaf. -/
def Leaf.print : Leaf → List Char
  | name reference => reference.print
  | string first rest => '%' :: 'd' :: printNumber first ++ printDotted rest
  | range min max _ => '%' :: 'd' :: printNumber min ++ '-' :: printNumber max
  | quoted text => '\x22' :: text.chars ++ ['\x22']
  | caseSensitive text => '\x27' :: text.chars ++ ['\x27']
  | begins => ['%', '^']
  | ends => ['%', '$']
  | back true reference => '\x5c' :: '%' :: 'i' :: reference.print
  | back false reference => '\x5c' :: '%' :: 's' :: reference.print

/-! ## Elements and alternatives -/

mutual

/-- A leaf, or alternatives in brackets, with an operator in front of it or not. -/
inductive Element where
  | leaf (operator : Option Operator) (leaf : Leaf)
  | group (operator : Option Operator) (alternatives : Alternatives)
  | option (operator : Option Operator) (alternatives : Alternatives)

/-- Elements in sequence, at least one. -/
inductive Alternative where
  | last (element : Element)
  | cons (element : Element) (rest : Alternative)

/-- Alternatives, at least one. -/
inductive Alternatives where
  | last (alternative : Alternative)
  | cons (alternative : Alternative) (rest : Alternatives)

end

/-- The element that refers to a rule. -/
def Element.rule (name : Name) : Element :=
  .leaf none (.name (.rule name))

/-- Whether a character can stand between double quotes. -/
def isQuotable (c : Char) : Bool :=
  decide (' ' ≤ c ∧ c ≤ '~' ∧ c ≠ '\x22')

/-- The element of one character between double quotes. -/
def Element.character (c : Char) (h : isQuotable c = true) : Element :=
  .leaf none (.quoted ⟨[c], List.forall_mem_singleton.2 (of_decide_eq_true h)⟩)

/-- The text of an operator that may be missing. -/
def printOperator (operator : Option Operator) : List Char :=
  operator.elim [] Operator.print

mutual

/-- The text of an element. -/
def Element.print : Element → List Char
  | .leaf operator leaf => printOperator operator ++ leaf.print
  | .group operator alternatives =>
    printOperator operator ++ '(' :: (alternatives.print ++ [')'])
  | .option operator alternatives =>
    printOperator operator ++ '[' :: (alternatives.print ++ [']'])

/-- The text of elements in sequence: one space between two of them. -/
def Alternative.print : Alternative → List Char
  | .last element => element.print
  | .cons element rest => element.print ++ ' ' :: rest.print

/-- The text of alternatives: a slash between two spaces between two of them. -/
def Alternatives.print : Alternatives → List Char
  | .last alternative => alternative.print
  | .cons alternative rest => alternative.print ++ ' ' :: '/' :: ' ' :: rest.print

end

/-! ## Lines -/

/-- A definition line. -/
structure Line where
  name : Name
  alternatives : Alternatives

namespace Line

/-- The name that a line defines or extends, as it is written. -/
def text (line : Line) : String :=
  String.ofList line.name.chars

/-- The form of the name that is compared. -/
def lower (line : Line) : String :=
  lowerName line.text

/-- The text of a line that defines a name or, if `incremental`, extends it. -/
def print (line : Line) (incremental : Bool) : List Char :=
  line.name.chars ++ ' ' :: '=' ::
    ((if incremental then ['/', ' '] else [' ']) ++ (line.alternatives.print ++ ['\n']))

end Line

/-- Each line with whether it extends a name, when the names in `seen` are defined before all of
them: the first line of a name defines it, later ones extend it. -/
def marked (seen : List String) : List Line → List (Line × Bool)
  | [] => []
  | line :: rest =>
    if seen.contains line.lower then
      (line, true) :: marked seen rest
    else
      (line, false) :: marked (line.lower :: seen) rest

/-- The canonical text of a grammar. -/
def print (lines : List Line) : String :=
  String.ofList ((marked [] lines).flatMap fun line => line.1.print line.2)

/-! ## Expressions -/

/-- A leaf or a governing operator of a grammar tree. -/
inductive Token where
  | operator (op : Operator)
  | optional
  | leaf (value : Leaf)

/-- An expression behind an operator that may be missing. -/
def governed (operator : Option Operator) (e : Expr Token) : Expr Token :=
  operator.elim e fun op => .under (.operator op) e

mutual

/-- The expression of an element. An option is a repetition of at most one time. -/
def Element.expr : Element → Expr Token
  | .leaf operator leaf => governed operator (.atom (.leaf leaf))
  | .group operator alternatives => governed operator (.alt alternatives.exprs)
  | .option operator alternatives =>
    governed operator (.under .optional (.alt alternatives.exprs))

/-- The expressions of elements in sequence. -/
def Alternative.exprs : Alternative → List (Expr Token)
  | .last element => [element.expr]
  | .cons element rest => element.expr :: rest.exprs

/-- The expressions of alternatives, each a sequence. -/
def Alternatives.exprs : Alternatives → List (Expr Token)
  | .last alternative => [.cat alternative.exprs]
  | .cons alternative rest => .cat alternative.exprs :: rest.exprs

end

/-! ## Opcodes -/

/-- The opcode of an operator. -/
def Operator.opcode : Operator → Opcode
  | between min max _ => .rep min (some max)
  | atLeast min => .rep min none
  | and => .and
  | not => .not
  | lookBehind => .bka
  | notLookBehind => .bkn

/-- The opcode of a leaf, where names stand for their positions. Quoted text is compared without
case, so its characters are in lower case; case-sensitive text without characters is the empty
literal. -/
def Leaf.opcode (names : Names) : Leaf → Opcode
  | name (.rule target) => .rnm (names.rules.idxOf (Reference.rule target).lower)
  | name (.udt empty target) => .udt (names.udts.idxOf (Reference.udt empty target).lower) empty
  | string first rest => .tbs (first :: rest)
  | range min max _ => .trg min max
  | quoted text => .tls (text.chars.map fun c => c.toLower.val)
  | caseSensitive text =>
    if text.chars.isEmpty then .tls [] else .tbs (text.chars.map Char.val)
  | begins => .abg
  | ends => .aen
  | back caseInsensitive (.rule target) =>
    .bkr (names.rules.idxOf (Reference.rule target).lower) false caseInsensitive
  | back caseInsensitive (.udt empty target) =>
    .bkr (names.udts.idxOf (Reference.udt empty target).lower) true caseInsensitive

namespace Token

/-- The opcode of a token. -/
def opcode (names : Names) : Token → Opcode
  | operator op => op.opcode
  | optional => .rep 0 (some 1)
  | leaf value => value.opcode names

/-- The user-defined terminal that a token names. -/
def udt? : Token → Option (String × Bool)
  | leaf (.name (.udt empty name)) => some (String.ofList (Reference.udt empty name).print, empty)
  | _ => none

/-- Whether the name in a token, if it has one, is defined. A user-defined terminal is defined by
naming it; a back-reference does not define what it names. -/
def isDefined (names : Names) : Token → Bool
  | leaf (.name (.rule name)) => names.rules.contains (Reference.rule name).lower
  | leaf (.back _ (.rule name)) => names.rules.contains (Reference.rule name).lower
  | leaf (.back _ (.udt empty name)) => names.udts.contains (Reference.udt empty name).lower
  | _ => true

end Token

/-! ## Tables -/

/-- The first line of each name. -/
def defining (lines : List Line) : List Line :=
  firstByKey Line.lower [] lines

/-- The leaves and governing operators of all lines, from left to right. -/
def tokens (lines : List Line) : List Token :=
  lines.flatMap fun line => Expr.atomsAll line.alternatives.exprs

/-- The user-defined terminals that are named, each once, in order. -/
def udts (lines : List Line) : List (String × Bool) :=
  firstByKey (fun udt => lowerName udt.1) [] ((tokens lines).filterMap Token.udt?)

/-- What names stand for: a rule for the position of its first line among the first lines, a
user-defined terminal for its position among the named ones. -/
def names (lines : List Line) : Names :=
  ⟨(defining lines).map Line.lower, (udts lines).map fun udt => lowerName udt.1⟩

/-- The expression of the rule that a line defines: the alternatives of all lines of its name. -/
def body (lines : List Line) (line : Line) : Expr Opcode :=
  (Expr.alt ((lines.filter fun other => other.lower == line.lower).flatMap fun other =>
    other.alternatives.exprs)).map (Token.opcode (names lines))

/-- The rules of a grammar: one for each name, in the order of first lines. -/
def ruleTable (lines : List Line) : List Rule :=
  (defining lines).zipIdx.map fun (line, index) => ⟨line.text, index, (body lines line).layout⟩

/-- The user-defined terminals of a grammar. -/
def udtTable (lines : List Line) : List Udt :=
  (udts lines).zipIdx.map fun (udt, index) => ⟨udt.1, index, udt.2⟩

/-- Whether every name that is referred to is defined. -/
def isClosed (lines : List Line) : Bool :=
  (tokens lines).all (Token.isDefined (names lines))

end Abnf.Canonical
