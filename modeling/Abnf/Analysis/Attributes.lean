import Abnf.Opcode

/-!
# Attributes

What can be said of an expression or a rule without running it: whether it matches some finite
phrase, the empty phrase and a phrase that is not empty, and where it recurs into the rule that is
being looked at. The attributes of an expression follow from those of its parts.
-/

namespace Abnf

/-- Attributes of a rule or an expression. The first four say where it recurs into itself: first,
between phrases that are not empty, last, or as the whole phrase. -/
structure Attributes where
  left : Bool := false
  nested : Bool := false
  right : Bool := false
  cyclic : Bool := false
  finite : Bool := false
  empty : Bool := false
  notEmpty : Bool := false
  deriving Repr, DecidableEq, Inhabited

namespace Attributes

/-! ## Leaves -/

/-- The attributes of an expression that does not recur, by the phrases it matches. -/
def ofPhrases (finite empty notEmpty : Bool) : Attributes :=
  { finite := finite, empty := empty, notEmpty := notEmpty }

/-- The attributes of an opcode as a leaf; the operand of a look-around consumes nothing and does
not count. -/
def ofLeaf : Opcode → Attributes
  | .udt _ empty => ofPhrases true empty true
  | .and | .not | .bka | .bkn | .abg | .aen => ofPhrases true true false
  | .bkr .. => ofPhrases true true true
  | .tls chars => ofPhrases true chars.isEmpty !chars.isEmpty
  | .tbs _ | .trg .. => ofPhrases true false true
  | .alt _ | .cat _ | .rep .. | .rnm _ => ofPhrases false false false

/-- The attributes without the recursion flags. -/
def phrasePart (a : Attributes) : Attributes :=
  ofPhrases a.finite a.empty a.notEmpty

/-- Takes over what `b` says about phrases. -/
def withPhrases (a b : Attributes) : Attributes :=
  { a with finite := b.finite, empty := b.empty, notEmpty := b.notEmpty }

/-- Takes over what `b` says about recursion. -/
def withRecursion (a b : Attributes) : Attributes :=
  { a with left := b.left, nested := b.nested, right := b.right, cyclic := b.cyclic }

/-! ## Repetition and choice -/

/-- Repetition: one that may repeat zero times matches the empty phrase, whatever it repeats. -/
def repeated (min : UInt32) (a : Attributes) : Attributes :=
  if min = 0 then { a with finite := true, empty := true } else a

/-- What one of two expressions has. -/
def either (a b : Attributes) : Attributes where
  left := a.left || b.left
  nested := a.nested || b.nested
  right := a.right || b.right
  cyclic := a.cyclic || b.cyclic
  finite := a.finite || b.finite
  empty := a.empty || b.empty
  notEmpty := a.notEmpty || b.notEmpty

/-- Choice: what some alternative has. -/
def alternation (alternatives : List Attributes) : Attributes :=
  alternatives.foldl either {}

/-! ## Sequence -/

/-- Whether `flag` holds of a part that is reached by passing only parts that can be empty. -/
def leadsWith (flag : Attributes → Bool) : List Attributes → Bool
  | [] => false
  | a :: rest => flag a || (a.empty && leadsWith flag rest)

/-- Whether, behind the first part with `flag`, there is a part that can be non-empty. -/
def thenPhrase (flag : Attributes → Bool) : List Attributes → Bool
  | [] => false
  | a :: rest => if flag a then rest.any notEmpty else thenPhrase flag rest

/-- Whether the part recurs at an end of its phrase or as its whole phrase. -/
def recurs (a : Attributes) : Bool :=
  a.left || a.right || a.cyclic

/-- Whether a part that recurs stands between two parts that can be non-empty. -/
def betweenPhrases (parts : List Attributes) : Bool :=
  let behindPhrase := (parts.dropWhile fun a => !a.notEmpty).tail
  let behindRecursion := (behindPhrase.dropWhile fun a => !a.recurs).tail
  behindRecursion.any notEmpty

/-- Nested recursion in a sequence: a part is nested by itself, a part that recurs at one end only
has a phrase at its other side, or a part that recurs has phrases at both sides. -/
def isNested (parts : List Attributes) : Bool :=
  parts.any nested ||
    thenPhrase (fun a => a.right && !a.left && a.notEmpty) parts ||
    thenPhrase (fun a => a.left && !a.right && a.notEmpty) parts.reverse ||
    betweenPhrases parts

/-- Sequence. -/
def concatenation (parts : List Attributes) : Attributes where
  left := leadsWith left parts
  nested := isNested parts
  right := leadsWith right parts.reverse
  cyclic := parts.all cyclic
  finite := parts.all finite
  empty := parts.all empty
  notEmpty := parts.any notEmpty

end Attributes

end Abnf
