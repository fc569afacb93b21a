import Abnf.Expr
import Abnf.Rule
import Abnf.Metagrammar.Symbol

/-!
# The table of the metagrammar

The definition of every symbol as an expression, and the rule table they are laid out to.
-/

namespace Abnf.Metagrammar

/-! ## Building blocks -/

/-- A reference to a symbol. -/
def ref (symbol : Symbol) : Expr Opcode :=
  .atom (.rnm symbol.index)

/-- The given characters, in order. -/
def chars (cs : List Char) : Expr Opcode :=
  .atom (.tbs (cs.map Char.val))

/-- One character between `low` and `high`. -/
def range (low high : Char) : Expr Opcode :=
  .atom (.trg low.val high.val)

/-- Any number of times. -/
def many (e : Expr Opcode) : Expr Opcode :=
  .under (.rep 0 none) e

/-- At least once. -/
def oneOrMore (e : Expr Opcode) : Expr Opcode :=
  .under (.rep 1 none) e

/-- Once or not at all. -/
def optional (e : Expr Opcode) : Expr Opcode :=
  .under (.rep 0 (some 1)) e

/-- Once or twice. -/
def onceOrTwice (e : Expr Opcode) : Expr Opcode :=
  .under (.rep 1 (some 2)) e

/-- The characters that recovery passes over: none of them closes a group or an option or
separates alternatives. -/
def strayCharacters : Expr Opcode :=
  oneOrMore (.alt [range '!' '(', range '*' '.', range '0' '\x5c', range '^' '~'])

/-- Two numerals of one base with a hyphen between them. -/
def interval (base low high : Symbol) : Expr Opcode :=
  .cat [ref base, ref low, chars ['-'], ref high]

/-- Numerals of one base with dots between them. -/
def dotted (base numeral : Symbol) : Expr Opcode :=
  .cat [ref base, ref numeral, many (.cat [chars ['.'], ref numeral])]

/-- The end of a line, CRLF before its parts. -/
def lineBreak : Expr Opcode :=
  .alt [chars ['\r', '\n'], chars ['\n'], chars ['\r']]

/-! ## Definitions -/

/-- The definition of a symbol. -/
def Symbol.body : Symbol → Expr Opcode
  | .file => many (.alt [ref .blankLine, ref .rule, ref .ruleError])
  | .blankLine =>
    .cat [many (.alt [chars [' '], chars ['\t']]), optional (ref .comment), ref .lineEnd]
  | .rule =>
    .cat [ref .ruleLookup, ref .owsp, ref .alternation,
      .alt [.cat [ref .owsp, ref .lineEnd], .cat [ref .lineEndError, ref .lineEnd]]]
  | .ruleLookup => .cat [ref .ruleNameTest, ref .owsp, ref .definedAsTest]
  | .ruleNameTest => .alt [ref .ruleName, ref .ruleNameError]
  | .ruleName => ref .alphanum
  | .ruleNameError => oneOrMore (.alt [range '!' '<', range '>' '~'])
  | .definedAsTest => .alt [ref .definedAs, ref .definedAsError]
  | .definedAsError => onceOrTwice (range '!' '~')
  | .definedAs => .alt [ref .incAlt, ref .defined]
  | .defined => chars ['=']
  | .incAlt => chars ['=', '/']
  | .ruleError =>
    .cat [oneOrMore (.alt [range ' ' '~', chars ['\t'], ref .lineContinue]), ref .lineEnd]
  | .lineEndError => oneOrMore (.alt [range ' ' '~', chars ['\t'], ref .lineContinue])
  | .alternation =>
    .cat [ref .concatenation, many (.cat [ref .owsp, ref .altOp, ref .concatenation])]
  | .concatenation => .cat [ref .repetition, many (.cat [ref .catOp, ref .repetition])]
  | .repetition =>
    .cat [optional (.alt [ref .bkaOp, ref .bknOp, ref .andOp, ref .notOp, ref .repOp]),
      .alt [ref .group, ref .option, ref .basicElement, ref .basicElementError]]
  | .basicElement =>
    .alt [ref .udtOp, ref .rnmOp, ref .trgOp, ref .tbsOp, ref .abgOp, ref .aenOp, ref .bkrOp,
      ref .tlsOp, ref .clsOp, ref .prosVal]
  | .basicElementError => strayCharacters
  | .group => .cat [ref .groupOpen, ref .alternation, .alt [ref .groupClose, ref .groupError]]
  | .groupError => strayCharacters
  | .groupOpen => .cat [chars ['('], ref .owsp]
  | .groupClose => .cat [ref .owsp, chars [')']]
  | .option => .cat [ref .optionOpen, ref .alternation, .alt [ref .optionClose, ref .optionError]]
  | .optionError => strayCharacters
  | .optionOpen => .cat [chars ['['], ref .owsp]
  | .optionClose => .cat [ref .owsp, chars [']']]
  | .rnmOp => ref .alphanum
  | .udtOp => .alt [ref .udtEmpty, ref .udtNonEmpty]
  | .udtNonEmpty => .cat [chars ['u', '_'], ref .alphanum]
  | .udtEmpty => .cat [chars ['e', '_'], ref .alphanum]
  | .repOp =>
    .alt [.cat [ref .repMin, ref .starOp, ref .repMax], .cat [ref .repMin, ref .starOp],
      .cat [ref .starOp, ref .repMax], ref .starOp, ref .repMinMax]
  | .altOp => .cat [chars ['/'], ref .owsp]
  | .catOp => ref .wsp
  | .starOp => chars ['*']
  | .andOp => chars ['&']
  | .notOp => chars ['!']
  | .trgOp =>
    .cat [chars ['%'],
      .alt [interval .dec .dmin .dmax, interval .hex .xmin .xmax, interval .bin .bmin .bmax]]
  | .tbsOp =>
    .cat [chars ['%'], .alt [dotted .dec .dString, dotted .hex .xString, dotted .bin .bString]]
  | .tlsOp => .cat [ref .tlsOpen, ref .tlsString, ref .tlsClose]
  | .tlsOpen => chars ['\x22']
  | .tlsClose => chars ['\x22']
  | .tlsString => many (.alt [range ' ' '!', range '#' '~', ref .stringTab])
  | .stringTab => chars ['\t']
  | .clsOp => .cat [ref .clsOpen, ref .clsString, ref .clsClose]
  | .clsOpen => chars ['\x27']
  | .clsClose => chars ['\x27']
  | .clsString => many (.alt [range ' ' '&', range '(' '~', ref .stringTab])
  | .prosVal => .cat [ref .prosValOpen, ref .prosValString, ref .prosValClose]
  | .prosValOpen => chars ['<']
  | .prosValString => many (.alt [range ' ' '=', range '?' '~', ref .stringTab])
  | .prosValClose => chars ['>']
  | .repMin => ref .repNum
  | .repMinMax => ref .repNum
  | .repMax => ref .repNum
  | .repNum => oneOrMore (range '0' '9')
  | .dString => ref .dnum
  | .xString => ref .xnum
  | .bString => ref .bnum
  | .dec => .alt [chars ['D'], chars ['d']]
  | .hex => .alt [chars ['X'], chars ['x']]
  | .bin => .alt [chars ['B'], chars ['b']]
  | .dmin => ref .dnum
  | .dmax => ref .dnum
  | .bmin => ref .bnum
  | .bmax => ref .bnum
  | .xmin => ref .xnum
  | .xmax => ref .xnum
  | .dnum => oneOrMore (range '0' '9')
  | .bnum => oneOrMore (range '0' '1')
  | .xnum => oneOrMore (.alt [range '0' '9', range 'A' 'F', range 'a' 'f'])
  | .alphanum =>
    .cat [.alt [range 'a' 'z', range 'A' 'Z'],
      many (.alt [range 'a' 'z', range 'A' 'Z', range '0' '9', chars ['-']])]
  | .owsp => many (ref .space)
  | .wsp => oneOrMore (ref .space)
  | .space => .alt [chars [' '], chars ['\t'], ref .comment, ref .lineContinue]
  | .comment => .cat [chars [';'], many (.alt [range ' ' '~', chars ['\t']])]
  | .lineEnd => lineBreak
  | .lineContinue => .cat [lineBreak, .alt [chars [' '], chars ['\t']]]
  | .bkaOp => chars ['&', '&']
  | .bknOp => chars ['!', '!']
  | .abgOp => chars ['%', '^']
  | .aenOp => chars ['%', '$']
  | .bkrOp => .cat [chars ['\x5c'], optional (ref .bkrModifier), ref .bkrName]
  | .bkrModifier => .cat [chars ['%'], .alt [ref .bkrCi, ref .bkrCs]]
  | .bkrCi => .alt [chars ['i'], chars ['I']]
  | .bkrCs => .alt [chars ['s'], chars ['S']]
  | .bkrName => .cat [optional (.alt [chars ['u', '_'], chars ['e', '_']]), ref .alphanum]

/-- The rule of a symbol. -/
def Symbol.toRule (symbol : Symbol) : Rule :=
  ⟨symbol.name, symbol.index, symbol.body.layout⟩

/-- The rule table of the metagrammar. -/
def rules : Array Rule :=
  Symbol.all.map Symbol.toRule

end Abnf.Metagrammar
