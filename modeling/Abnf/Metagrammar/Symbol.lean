/-!
# Symbols of the metagrammar

The rules of the grammar of grammar texts. Beside the well-formed constructs it has rules that
match malformed text (their names end in "Error"), so that reading goes on behind a mistake.
-/

namespace Abnf.Metagrammar

/-- A rule of the metagrammar; each is described by its own definition. -/
inductive Symbol where
  /-- File = *(BlankLine / Rule / RuleError) -/
  | file
  /-- BlankLine = *(%d32/%d9) [comment] LineEnd -/
  | blankLine
  /-- Rule = RuleLookup owsp Alternation ((owsp LineEnd) / (LineEndError LineEnd)) -/
  | rule
  /-- RuleLookup = RuleNameTest owsp DefinedAsTest -/
  | ruleLookup
  /-- RuleNameTest = RuleName/RuleNameError -/
  | ruleNameTest
  /-- RuleName = alphanum -/
  | ruleName
  /-- RuleNameError = 1*(%d33-60/%d62-126) -/
  | ruleNameError
  /-- DefinedAsTest = DefinedAs / DefinedAsError -/
  | definedAsTest
  /-- DefinedAsError = 1*2%d33-126 -/
  | definedAsError
  /-- DefinedAs = IncAlt / Defined -/
  | definedAs
  /-- Defined = %d61 -/
  | defined
  /-- IncAlt = %d61.47 -/
  | incAlt
  /-- RuleError = 1*(%d32-126 / %d9 / LineContinue) LineEnd -/
  | ruleError
  /-- LineEndError = 1*(%d32-126 / %d9 / LineContinue) -/
  | lineEndError
  /-- Alternation = Concatenation *(owsp AltOp Concatenation) -/
  | alternation
  /-- Concatenation = Repetition *(CatOp Repetition) -/
  | concatenation
  /-- Repetition = [BkaOp / BknOp / AndOp / NotOp / RepOp] (Group / Option / BasicElement /
  BasicElementError) -/
  | repetition
  /-- BasicElement = UdtOp / RnmOp / TrgOp / TbsOp / AbgOp / AenOp / BkrOp / TlsOp / ClsOp /
  ProsVal -/
  | basicElement
  /-- BasicElementError = 1*(%d33-40/%d42-46/%d48-92/%d94-126) -/
  | basicElementError
  /-- Group = GroupOpen Alternation (GroupClose / GroupError) -/
  | group
  /-- GroupError = 1*(%d33-40/%d42-46/%d48-92/%d94-126) -/
  | groupError
  /-- GroupOpen = %d40 owsp -/
  | groupOpen
  /-- GroupClose = owsp %d41 -/
  | groupClose
  /-- Option = OptionOpen Alternation (OptionClose / OptionError) -/
  | option
  /-- OptionError = 1*(%d33-40/%d42-46/%d48-92/%d94-126) -/
  | optionError
  /-- OptionOpen = %d91 owsp -/
  | optionOpen
  /-- OptionClose = owsp %d93 -/
  | optionClose
  /-- RnmOp = alphanum -/
  | rnmOp
  /-- UdtOp = udt-empty / udt-non-empty -/
  | udtOp
  /-- udt-non-empty = %d117.95 alphanum -/
  | udtNonEmpty
  /-- udt-empty = %d101.95 alphanum -/
  | udtEmpty
  /-- RepOp = (rep-min StarOp rep-max) / (rep-min StarOp) / (StarOp rep-max) / StarOp /
  rep-min-max -/
  | repOp
  /-- AltOp = %d47 owsp -/
  | altOp
  /-- CatOp = wsp -/
  | catOp
  /-- StarOp = %d42 -/
  | starOp
  /-- AndOp = %d38 -/
  | andOp
  /-- NotOp = %d33 -/
  | notOp
  /-- TrgOp = %d37 ((Dec dmin %d45 dmax) / (Hex xmin %d45 xmax) / (Bin bmin %d45 bmax)) -/
  | trgOp
  /-- TbsOp = %d37 ((Dec dString *(%d46 dString)) / (Hex xString *(%d46 xString)) / (Bin bString
  *(%d46 bString))) -/
  | tbsOp
  /-- TlsOp = TlsOpen TlsString TlsClose -/
  | tlsOp
  /-- TlsOpen = %d34 -/
  | tlsOpen
  /-- TlsClose = %d34 -/
  | tlsClose
  /-- TlsString = *(%d32-33/%d35-126/StringTab) -/
  | tlsString
  /-- StringTab = %d9 -/
  | stringTab
  /-- ClsOp = ClsOpen ClsString ClsClose -/
  | clsOp
  /-- ClsOpen = %d39 -/
  | clsOpen
  /-- ClsClose = %d39 -/
  | clsClose
  /-- ClsString = *(%d32-38/%d40-126/StringTab) -/
  | clsString
  /-- ProsVal = ProsValOpen ProsValString ProsValClose -/
  | prosVal
  /-- ProsValOpen = %d60 -/
  | prosValOpen
  /-- ProsValString = *(%d32-61/%d63-126/StringTab) -/
  | prosValString
  /-- ProsValClose = %d62 -/
  | prosValClose
  /-- rep-min = rep-num -/
  | repMin
  /-- rep-min-max = rep-num -/
  | repMinMax
  /-- rep-max = rep-num -/
  | repMax
  /-- rep-num = 1*(%d48-57) -/
  | repNum
  /-- dString = dnum -/
  | dString
  /-- xString = xnum -/
  | xString
  /-- bString = bnum -/
  | bString
  /-- Dec = (%d68/%d100) -/
  | dec
  /-- Hex = (%d88/%d120) -/
  | hex
  /-- Bin = (%d66/%d98) -/
  | bin
  /-- dmin = dnum -/
  | dmin
  /-- dmax = dnum -/
  | dmax
  /-- bmin = bnum -/
  | bmin
  /-- bmax = bnum -/
  | bmax
  /-- xmin = xnum -/
  | xmin
  /-- xmax = xnum -/
  | xmax
  /-- dnum = 1*(%d48-57) -/
  | dnum
  /-- bnum = 1*%d48-49 -/
  | bnum
  /-- xnum = 1*(%d48-57 / %d65-70 / %d97-102) -/
  | xnum
  /-- alphanum = (%d97-122/%d65-90) *(%d97-122/%d65-90/%d48-57/%d45) -/
  | alphanum
  /-- owsp = *space -/
  | owsp
  /-- wsp = 1*space -/
  | wsp
  /-- space = %d32 / %d9 / comment / LineContinue -/
  | space
  /-- comment = %d59 *(%d32-126 / %d9) -/
  | comment
  /-- LineEnd = %d13.10 / %d10 / %d13 -/
  | lineEnd
  /-- LineContinue = (%d13.10 / %d10 / %d13) (%d32 / %d9) -/
  | lineContinue
  /-- BkaOp = %d38.38 -/
  | bkaOp
  /-- BknOp = %d33.33 -/
  | bknOp
  /-- AbgOp = %d37.94 -/
  | abgOp
  /-- AenOp = %d37.36 -/
  | aenOp
  /-- BkrOp = %d92 [bkr-modifier] bkr-name -/
  | bkrOp
  /-- bkr-modifier = %d37 (bkr-ci / bkr-cs) -/
  | bkrModifier
  /-- bkr-ci = %d105 / %d73 -/
  | bkrCi
  /-- bkr-cs = %d115 / %d83 -/
  | bkrCs
  /-- bkr-name = [%d117.95 / %d101.95] alphanum -/
  | bkrName
  deriving Repr, DecidableEq, Inhabited

namespace Symbol

/-- Every symbol, in the order of the table. -/
def all : Array Symbol := #[
  .file, .blankLine, .rule, .ruleLookup, .ruleNameTest, .ruleName, .ruleNameError,
  .definedAsTest, .definedAsError, .definedAs, .defined, .incAlt, .ruleError, .lineEndError,
  .alternation, .concatenation, .repetition, .basicElement, .basicElementError, .group,
  .groupError, .groupOpen, .groupClose, .option, .optionError, .optionOpen, .optionClose,
  .rnmOp, .udtOp, .udtNonEmpty, .udtEmpty, .repOp, .altOp, .catOp, .starOp, .andOp, .notOp,
  .trgOp, .tbsOp, .tlsOp, .tlsOpen, .tlsClose, .tlsString, .stringTab, .clsOp, .clsOpen,
  .clsClose, .clsString, .prosVal, .prosValOpen, .prosValString, .prosValClose, .repMin,
  .repMinMax, .repMax, .repNum, .dString, .xString, .bString, .dec, .hex, .bin, .dmin, .dmax,
  .bmin, .bmax, .xmin, .xmax, .dnum, .bnum, .xnum, .alphanum, .owsp, .wsp, .space, .comment,
  .lineEnd, .lineContinue, .bkaOp, .bknOp, .abgOp, .aenOp, .bkrOp, .bkrModifier, .bkrCi, .bkrCs,
  .bkrName]

/-- The position of a symbol in the table. -/
def index (symbol : Symbol) : Nat :=
  symbol.ctorIdx

/-- The symbol at a position of the table. -/
def ofIndex? (index : Nat) : Option Symbol :=
  all[index]?

theorem ofIndex?_index (symbol : Symbol) : ofIndex? symbol.index = some symbol := by
  cases symbol <;> rfl

/-- The name of a symbol in the metagrammar. -/
def name : Symbol → String
  | file => "File"
  | blankLine => "BlankLine"
  | rule => "Rule"
  | ruleLookup => "RuleLookup"
  | ruleNameTest => "RuleNameTest"
  | ruleName => "RuleName"
  | ruleNameError => "RuleNameError"
  | definedAsTest => "DefinedAsTest"
  | definedAsError => "DefinedAsError"
  | definedAs => "DefinedAs"
  | defined => "Defined"
  | incAlt => "IncAlt"
  | ruleError => "RuleError"
  | lineEndError => "LineEndError"
  | alternation => "Alternation"
  | concatenation => "Concatenation"
  | repetition => "Repetition"
  | basicElement => "BasicElement"
  | basicElementError => "BasicElementError"
  | group => "Group"
  | groupError => "GroupError"
  | groupOpen => "GroupOpen"
  | groupClose => "GroupClose"
  | option => "Option"
  | optionError => "OptionError"
  | optionOpen => "OptionOpen"
  | optionClose => "OptionClose"
  | rnmOp => "RnmOp"
  | udtOp => "UdtOp"
  | udtNonEmpty => "udt-non-empty"
  | udtEmpty => "udt-empty"
  | repOp => "RepOp"
  | altOp => "AltOp"
  | catOp => "CatOp"
  | starOp => "StarOp"
  | andOp => "AndOp"
  | notOp => "NotOp"
  | trgOp => "TrgOp"
  | tbsOp => "TbsOp"
  | tlsOp => "TlsOp"
  | tlsOpen => "TlsOpen"
  | tlsClose => "TlsClose"
  | tlsString => "TlsString"
  | stringTab => "StringTab"
  | clsOp => "ClsOp"
  | clsOpen => "ClsOpen"
  | clsClose => "ClsClose"
  | clsString => "ClsString"
  | prosVal => "ProsVal"
  | prosValOpen => "ProsValOpen"
  | prosValString => "ProsValString"
  | prosValClose => "ProsValClose"
  | repMin => "rep-min"
  | repMinMax => "rep-min-max"
  | repMax => "rep-max"
  | repNum => "rep-num"
  | dString => "dString"
  | xString => "xString"
  | bString => "bString"
  | dec => "Dec"
  | hex => "Hex"
  | bin => "Bin"
  | dmin => "dmin"
  | dmax => "dmax"
  | bmin => "bmin"
  | bmax => "bmax"
  | xmin => "xmin"
  | xmax => "xmax"
  | dnum => "dnum"
  | bnum => "bnum"
  | xnum => "xnum"
  | alphanum => "alphanum"
  | owsp => "owsp"
  | wsp => "wsp"
  | space => "space"
  | comment => "comment"
  | lineEnd => "LineEnd"
  | lineContinue => "LineContinue"
  | bkaOp => "BkaOp"
  | bknOp => "BknOp"
  | abgOp => "AbgOp"
  | aenOp => "AenOp"
  | bkrOp => "BkrOp"
  | bkrModifier => "bkr-modifier"
  | bkrCi => "bkr-ci"
  | bkrCs => "bkr-cs"
  | bkrName => "bkr-name"

end Symbol

end Abnf.Metagrammar
