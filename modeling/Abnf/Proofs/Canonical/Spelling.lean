import Abnf.Proofs.Canonical.Words

/-!
# Spelling

A canonical text spells tokens, and reading it gives atoms back. A spelled atom has no flaw by
itself, and where names stand for what the grammar says it has the opcode of its token.

* `Spelled`: an atom together with the token that it was written for.
* `Holds`: the text that stands at a place of a source, and the phrases within it.
-/

namespace Abnf.Canonical

open Metagrammar

/-! ## Phrases -/

/-- `text` stands at `pos` in a source and goes to its end. -/
def Holds (source : Source) (pos : Nat) (text : List Char) : Prop :=
  encode text = source.bytes.toList.drop pos

namespace Holds

variable {source : Source} {pos : Nat} {text rest : List Char}

theorem skip (h : Holds source pos (text ++ rest)) : Holds source (pos + text.length) rest := by
  rw [Holds, ← drop_eq_drop h, drop_encode]

theorem phrase (h : Holds source pos (text ++ rest)) (htext : Printable text) :
    source.phrase pos text.length = String.ofList text := by
  rw [phrase_eq h, encode_append, List.take_left' (length_encode text),
    decode_encode htext.isAscii]

/-- The bytes between two delimiters. -/
theorem quoted {delimiter : Char} (h : Holds source pos (delimiter :: (text ++ rest)))
    (rule : Nat) (nodes : List Node) :
    Atom.quoted source (.mk rule pos (text.length + 2) nodes) = encode text := by
  have hskip : Holds source (pos + [delimiter].length) (text ++ rest) := skip h
  have hlength : pos + (text.length + 2) - 1 - (pos + 1) = text.length := by omega
  rw [Atom.quoted, Node.offset, Node.length, Array.toList_extract, List.extract_eq_take_drop,
    hlength]
  rw [Holds, List.length_singleton] at hskip
  rw [← hskip, encode_append, List.take_left' (length_encode text)]

end Holds

/-! ## Numerals -/

/-- A numeral that was written for `n`. -/
structure Writes (n : UInt32) (numeral : Numeral) : Prop where
  fits : numeral.fits = true
  word : numeral.word = n

/-- Numerals that were written for some numbers. -/
structure WritesAll (ns : List UInt32) (numerals : List Numeral) : Prop where
  fits : ∀ numeral ∈ numerals, numeral.fits = true
  words : numerals.map Numeral.word = ns

theorem WritesAll.cons {n : UInt32} {ns : List UInt32} {numeral : Numeral}
    {numerals : List Numeral} (h : Writes n numeral) (hs : WritesAll ns numerals) :
    WritesAll (n :: ns) (numeral :: numerals) :=
  ⟨List.forall_mem_cons.2 ⟨h.fits, hs.fits⟩, by rw [List.map_cons, h.word, hs.words]⟩

theorem Holds.writes {source : Source} {pos : Nat} {n : UInt32} {rest : List Char}
    (h : Holds source pos (printNumber n ++ rest)) (rule : Nat) (nodes : List Node) :
    Writes n (Atom.numeral source 10 (.mk rule pos (printNumber n).length nodes)) := by
  have hvalue : (Atom.numeral source 10 (.mk rule pos (printNumber n).length nodes)).toNat =
      n.toNat := by
    rw [Numeral.toNat, Atom.numeral, Node.offset, Node.length, h.phrase (printable_number n),
      String.toList_ofList]
    exact @valueOfDigits_toDigits 10 (by decide) (by decide) _
  have hfits : (Atom.numeral source 10 (.mk rule pos (printNumber n).length nodes)).fits =
      true := by
    rw [Numeral.fits, hvalue]
    exact decide_eq_true n.toNat_lt
  refine ⟨hfits, ?_⟩
  rw [Numeral.word, if_pos hfits, hvalue]
  exact UInt32.ofNat_toNat

/-! ## Spelled atoms -/

/-- Whether the names of user-defined terminals are told from those of rules. -/
def AreMarked (names : Names) : Prop :=
  ∀ name ∈ names.udts, '_' ∈ name.toList

/-- Whether the name in a token, if it has one, is in the tables. -/
structure Token.IsKnown (names : Names) (token : Token) : Prop where
  defined : token.isDefined names = true
  udt : ∀ udt, token.udt? = some udt → lowerName udt.1 ∈ names.udts

/-- An atom that was read, and the token that was written there. -/
structure Spelled where
  atom : Atom
  token : Token
  localFlaws : atom.localFlaws = []
  udt? : atom.udt? = token.udt?
  /-- The atom refers to nothing that is not there. -/
  refers : ∀ names, AreMarked names → token.IsKnown names → atom.referenceFlaw? names = none
  resolves : ∀ names, AreMarked names → token.IsKnown names →
    atom.resolve names = token.opcode names

namespace Spelled

/-- An atom that is an opcode already. -/
def plain (op : Opcode) (token : Token) (hudt : token.udt? = none)
    (hop : ∀ names, op = token.opcode names) : Spelled where
  atom := .plain op
  token := token
  localFlaws := rfl
  udt? := hudt.symm
  refers _ _ _ := rfl
  resolves names _ _ := hop names

/-- A repetition between two bounds. -/
def between (offset : Nat) {min max : UInt32} (le : min ≤ max) {low high : Numeral}
    (hlow : Writes min low) (hhigh : Writes max high) : Spelled where
  atom := .repetition offset (some low) (some high)
  token := .operator (.between min max le)
  localFlaws := by
    have hlt : ¬ max < min := UInt32.not_lt.2 le
    simp [Atom.localFlaws, Atom.numerals, Atom.boundsFlaw?, hlow.fits, hhigh.fits, hlow.word,
      hhigh.word, hlt]
  udt? := rfl
  refers _ _ _ := rfl
  resolves _ _ _ := by simp [Atom.resolve, Token.opcode, Operator.opcode, hlow.word, hhigh.word]

/-- A repetition with a lower bound only. -/
def atLeast (offset : Nat) {min : UInt32} {low : Numeral} (hlow : Writes min low) : Spelled where
  atom := .repetition offset (some low) none
  token := .operator (.atLeast min)
  localFlaws := by simp [Atom.localFlaws, Atom.numerals, Atom.boundsFlaw?, hlow.fits]
  udt? := rfl
  refers _ _ _ := rfl
  resolves _ _ _ := by simp [Atom.resolve, Token.opcode, Operator.opcode, hlow.word]

/-- A range of characters. -/
def range (offset : Nat) {min max : UInt32} (le : min ≤ max) {low high : Numeral}
    (hlow : Writes min low) (hhigh : Writes max high) : Spelled where
  atom := .range offset low high
  token := .leaf (.range min max le)
  localFlaws := by
    have hlt : ¬ max < min := UInt32.not_lt.2 le
    simp [Atom.localFlaws, Atom.numerals, Atom.boundsFlaw?, hlow.fits, hhigh.fits, hlow.word,
      hhigh.word, hlt]
  udt? := rfl
  refers _ _ _ := rfl
  resolves _ _ _ := by simp [Atom.resolve, Token.opcode, Leaf.opcode, hlow.word, hhigh.word]

/-- Characters by their numbers. -/
def string {first : UInt32} {rest : List UInt32} {numerals : List Numeral}
    (h : WritesAll (first :: rest) numerals) : Spelled where
  atom := .string numerals
  token := .leaf (.string first rest)
  localFlaws := by
    simpa [Atom.localFlaws, Atom.numerals, Atom.boundsFlaw?] using h.fits
  udt? := rfl
  refers _ _ _ := rfl
  resolves _ _ _ := by simp [Atom.resolve, Token.opcode, Leaf.opcode, h.words]

/-! ## Names -/

section

variable {names : Names}

theorem idxOf?_of_mem {name : String} {list : List String} (h : name ∈ list) :
    list.idxOf? name = some (list.idxOf name) := by
  obtain ⟨i, hi⟩ := Option.isSome_iff_exists.1 (List.isSome_idxOf?.2 h)
  rw [List.idxOf_eq_getD_idxOf?, hi]
  rfl

theorem rule?_of_mem {reference : Reference} (h : reference.lower ∈ names.rules) :
    names.rule? (String.ofList reference.print) = some (names.rules.idxOf reference.lower) :=
  idxOf?_of_mem h

theorem udt?_of_mem {reference : Reference} (h : reference.lower ∈ names.udts) :
    names.udt? (String.ofList reference.print) = some (names.udts.idxOf reference.lower) :=
  idxOf?_of_mem h

theorem toLower_ne_underscore {c : Char} (h : isNameCharacter c = true) : c.toLower ≠ '_' := by
  have hall : ∀ i : Fin 128, isNameCharacter (Char.ofNat i) = true →
      (Char.ofNat i).toLower ≠ '_' := by
    decide
  have hc := isPrintable_iff.1 (isPrintable_of_isNameCharacter h)
  simpa [h] using hall ⟨c.toNat, by omega⟩

/-- The name of a rule is not that of a user-defined terminal. -/
theorem udt?_rule (hnames : AreMarked names) (name : Name) :
    names.udt? (String.ofList (Reference.rule name).print) = none := by
  refine List.idxOf?_eq_none_iff.2 fun hmem => ?_
  have hmark := hnames _ hmem
  rw [lowerName, String.toList_map, String.toList_ofList] at hmark
  obtain ⟨c, hc, hlower⟩ := List.mem_map.1 hmark
  refine toLower_ne_underscore ?_ hlower
  rcases List.mem_cons.1 hc with rfl | hc
  · simp [isNameCharacter, name.first_isLetter]
  · exact name.rest_isName c hc

end

/-- The name of a rule. -/
def ruleName (offset : Nat) (name : Name) : Spelled where
  atom := .ruleName offset (String.ofList (Reference.rule name).print)
  token := .leaf (.name (.rule name))
  localFlaws := rfl
  udt? := rfl
  refers names _ hknown := by
    simp [Atom.referenceFlaw?, rule?_of_mem (List.contains_iff_mem.1 hknown.defined)]
  resolves names _ hknown := by
    simp [Atom.resolve, Token.opcode, Leaf.opcode,
      rule?_of_mem (List.contains_iff_mem.1 hknown.defined)]

/-- The name of a user-defined terminal. -/
def udtName (empty : Bool) (name : Name) : Spelled where
  atom := .udtName (String.ofList (Reference.udt empty name).print) empty
  token := .leaf (.name (.udt empty name))
  localFlaws := rfl
  udt? := rfl
  refers _ _ _ := rfl
  resolves names _ hknown := by
    simp [Atom.resolve, Token.opcode, Leaf.opcode, udt?_of_mem (hknown.udt _ rfl)]

/-- A reference to what a name matched before. -/
def backReference (offset : Nat) (caseInsensitive : Bool) (reference : Reference) : Spelled where
  atom := .backReference offset (String.ofList reference.print) caseInsensitive
  token := .leaf (.back caseInsensitive reference)
  localFlaws := rfl
  udt? := rfl
  refers names _ hknown := by
    cases reference with
    | rule name =>
      simp [Atom.referenceFlaw?, rule?_of_mem (List.contains_iff_mem.1 hknown.defined)]
    | udt empty name =>
      simp [Atom.referenceFlaw?, udt?_of_mem (List.contains_iff_mem.1 hknown.defined)]
  resolves names hnames hknown := by
    cases reference with
    | rule name =>
      simp [Atom.resolve, Token.opcode, Leaf.opcode, udt?_rule hnames,
        rule?_of_mem (List.contains_iff_mem.1 hknown.defined)]
    | udt empty name =>
      simp [Atom.resolve, Token.opcode, Leaf.opcode,
        udt?_of_mem (List.contains_iff_mem.1 hknown.defined)]

end Spelled

end Abnf.Canonical
