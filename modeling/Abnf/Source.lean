import Abnf.Diagnostic

/-!
# Grammar sources

A source is the bytes of a grammar text together with its catalog of lines. The catalog turns the
byte offset of every later diagnostic into a line number. Only tabs and printable characters may
stand in a line, every line ends in CRLF, LF or CR, and a strict source has CRLF line ends only.
-/

namespace Abnf

/-! ## Lines -/

/-- What ends a line. -/
inductive LineEnd where
  | crlf
  | lf
  | cr
  /-- Only the last line can lack a line end. -/
  | missing
  deriving Repr, DecidableEq

/-- How many bytes a line end takes. -/
def LineEnd.length : LineEnd → Nat
  | .crlf => 2
  | .lf | .cr => 1
  | .missing => 0

/-- One line of a source, from byte `start` on. -/
structure Line where
  number : Nat
  start : Nat
  /-- Bytes before the line end. -/
  textLength : Nat
  ending : LineEnd
  deriving Repr, DecidableEq

/-- The bytes of the line, its line end included. -/
def Line.length (line : Line) : Nat :=
  line.textLength + line.ending.length

/-- The lines of `bytes`, when `textLength` bytes of line `number`, which begins at `start`, have
been passed already. -/
def Line.catalog (number start textLength : Nat) : List UInt8 → List Line
  | [] => if textLength = 0 then [] else [⟨number, start, textLength, .missing⟩]
  | 13 :: 10 :: rest =>
    ⟨number, start, textLength, .crlf⟩ :: catalog (number + 1) (start + textLength + 2) 0 rest
  | byte :: rest =>
    if byte = 10 then
      ⟨number, start, textLength, .lf⟩ :: catalog (number + 1) (start + textLength + 1) 0 rest
    else if byte = 13 then
      ⟨number, start, textLength, .cr⟩ :: catalog (number + 1) (start + textLength + 1) 0 rest
    else
      catalog number start (textLength + 1) rest

/-! ## Characters -/

/-- Why a byte of a source is rejected before the text is read at all. -/
inductive CharacterFlaw where
  | invalid (byte : UInt8)
  | bareLineFeed
  | bareCarriageReturn
  | missingLineEnd
  deriving Repr, DecidableEq

namespace CharacterFlaw

/-- A byte as two hexadecimal digits. -/
def hexByte (byte : UInt8) : String :=
  String.ofList [Nat.digitChar (byte.toNat / 16), Nat.digitChar (byte.toNat % 16)]

/-- The message of a rejected character. -/
def message : CharacterFlaw → String
  | invalid byte => "invalid character found 'x" ++ hexByte byte ++ "'"
  | bareLineFeed => "line end character is new line only (\\n, x0A) - strict ABNF specified"
  | bareCarriageReturn =>
    "line end character is carriage return only (\\r, x0D) - strict ABNF specified"
  | missingLineEnd => "last line has no line end characters"

end CharacterFlaw

/-- Tabs and the printable characters from space to tilde may stand in a line. -/
def isGrammarCharacter (byte : UInt8) : Bool :=
  byte == 9 || (32 ≤ byte && byte ≤ 126)

/-- The rejected characters of `bytes`, which continue line `line` at `offset`; `started` says
whether the line has text before `offset`. -/
def characterFlaws (strict : Bool) (line offset : Nat) (started : Bool) :
    List UInt8 → List (Nat × Nat × CharacterFlaw)
  | [] => if started then [(line, offset, .missingLineEnd)] else []
  | 13 :: 10 :: rest => characterFlaws strict (line + 1) (offset + 2) false rest
  | byte :: rest =>
    if byte = 10 then
      let flaws := characterFlaws strict (line + 1) (offset + 1) false rest
      if strict then (line, offset, .bareLineFeed) :: flaws else flaws
    else if byte = 13 then
      let flaws := characterFlaws strict (line + 1) (offset + 1) false rest
      if strict then (line, offset, .bareCarriageReturn) :: flaws else flaws
    else
      let flaws := characterFlaws strict line (offset + 1) true rest
      if isGrammarCharacter byte then flaws else (line, offset, .invalid byte) :: flaws

/-! ## Sources -/

/-- The bytes of a grammar text and the lines they form. -/
structure Source where
  bytes : Array UInt8
  lines : Array Line
  deriving Repr, DecidableEq

namespace Source

/-- Catalogs the lines of some bytes. -/
def ofBytes (bytes : Array UInt8) : Source :=
  ⟨bytes, (Line.catalog 0 0 0 bytes.toList).toArray⟩

/-- Catalogs the lines of a text. -/
def ofString (text : String) : Source :=
  ofBytes text.toUTF8.data

/-- The number of the line that holds `offset`. Offsets past the end belong to the last line, and
a source without lines has line 0 only. -/
def findLine (source : Source) (offset : Nat) : Nat :=
  source.lines.findIdx (fun line => decide (offset < line.start)) - 1

/-- A diagnostic about the byte at `offset`. -/
def diagnostic (source : Source) (offset : Nat) (message : String) : Diagnostic :=
  ⟨source.findLine offset, offset, message⟩

/-- The diagnostics of the character check, in order of offset. -/
def characterDiagnostics (source : Source) (strict : Bool) : List Diagnostic :=
  (characterFlaws strict 0 0 false source.bytes.toList).map fun (line, offset, flaw) =>
    ⟨line, offset, flaw.message⟩

end Source

end Abnf
