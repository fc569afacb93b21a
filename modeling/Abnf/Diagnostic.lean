/-!
# Diagnostics

A located message about grammar text.
-/

namespace Abnf

/-- A message about the byte at `offset`, which lies on line `line`; both count from zero. -/
structure Diagnostic where
  line : Nat
  offset : Nat
  message : String
  deriving Repr, DecidableEq

namespace Diagnostic

/-- The one-line text of a diagnostic. -/
def text (d : Diagnostic) : String :=
  s!"line {d.line}: char {d.offset}: " ++ d.message

end Diagnostic

end Abnf
