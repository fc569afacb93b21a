import Mathlib.Data.List.Basic
import Mathlib.Data.List.Flatten
import Abnf.Proofs.Canonical.Syntax

/-!
# Characters of canonical texts

Canonical texts consist of printable ASCII characters and line feeds, so a character is a byte, and
decimal digits read back as the number that they were written for.

* `bytes_ofString`: the bytes of a text.
* `valueOfDigits_toDigits`: the number that some digits stand for.
* `characterDiagnostics_print`: the character check has no objection to a canonical text.
-/

namespace Abnf.Canonical

/-! ## Characters and bytes -/

/-- Whether a character is one from space to tilde. -/
def isPrintable (c : Char) : Bool :=
  ' ' ≤ c && c ≤ '~'

theorem isPrintable_iff {c : Char} :
    isPrintable c = true ↔ 32 ≤ c.toNat ∧ c.toNat ≤ 126 := by
  simp [isPrintable, Char.le_def, UInt32.le_iff_toNat_le]

theorem isLetter_iff {c : Char} : isLetter c = true ↔
    (97 ≤ c.toNat ∧ c.toNat ≤ 122) ∨ (65 ≤ c.toNat ∧ c.toNat ≤ 90) := by
  simp [isLetter, Char.le_def, UInt32.le_iff_toNat_le]

theorem isDigit_iff {c : Char} : isDigit c = true ↔ 48 ≤ c.toNat ∧ c.toNat ≤ 57 := by
  simp [isDigit, Char.le_def, UInt32.le_iff_toNat_le]

/-- The byte of an ASCII character. Other characters do not get the byte of one. -/
def byteOf (c : Char) : UInt8 :=
  UInt8.ofNat (min c.toNat 255)

/-- The bytes of ASCII characters. -/
def encode (text : List Char) : List UInt8 :=
  text.map byteOf

@[simp] theorem encode_nil : encode [] = [] := rfl

@[simp] theorem encode_cons (c : Char) (text : List Char) :
    encode (c :: text) = byteOf c :: encode text := rfl

@[simp] theorem encode_append (text text' : List Char) :
    encode (text ++ text') = encode text ++ encode text' :=
  List.map_append

@[simp] theorem length_encode (text : List Char) : (encode text).length = text.length :=
  List.length_map _

theorem toNat_byteOf (c : Char) : (byteOf c).toNat = min c.toNat 255 := by
  rw [byteOf, UInt8.toNat_ofNat']
  exact Nat.mod_eq_of_lt (by omega)

section

variable {c : Char} (h : c.toNat < 128)
include h

theorem toUInt32_byteOf : (byteOf c).toUInt32 = c.val := by
  refine UInt32.toNat.inj ?_
  rw [UInt8.toNat_toUInt32, toNat_byteOf, Nat.min_eq_left (by omega)]
  rfl

theorem ofNat_byteOf : Char.ofNat (byteOf c).toNat = c := by
  rw [toNat_byteOf, Nat.min_eq_left (by omega), Char.ofNat_toNat]

theorem utf8EncodeChar_eq : String.utf8EncodeChar c = [byteOf c] := by
  have hle : c.toNat ≤ 127 := by omega
  have hmin : min c.toNat 255 = c.toNat := by omega
  simp [String.utf8EncodeChar, hle, hmin, byteOf]

end

/-- The characters of a text, from its bytes. -/
theorem decode_encode {text : List Char} (h : ∀ c ∈ text, c.toNat < 128) :
    (encode text).map (fun byte => Char.ofNat byte.toNat) = text := by
  rw [encode, List.map_map]
  exact (List.map_congr_left fun c hc => ofNat_byteOf (h c hc)).trans (List.map_id text)

/-- The bytes of a text are those of its characters. -/
theorem toList_toUTF8 (text : String) :
    text.toUTF8.data.toList = text.toList.flatMap String.utf8EncodeChar := by
  obtain ⟨characters, rfl⟩ : ∃ characters, text = String.ofList characters :=
    ⟨text.toList, String.ofList_toList.symm⟩
  simp [String.toUTF8, String.toByteArray_ofList, List.utf8Encode]

theorem bytes_ofString {text : List Char} (h : ∀ c ∈ text, c.toNat < 128) :
    (Source.ofString (String.ofList text)).bytes.toList = encode text := by
  rw [Source.ofString, Source.ofBytes, toList_toUTF8, String.toList_ofList, encode,
    List.flatMap_congr fun c hc => utf8EncodeChar_eq (h c hc), List.map_eq_flatMap]

/-! ## Numbers -/

theorem digitValue_digitChar {n : Nat} (h : n < 16) : digitValue n.digitChar = n := by
  revert n
  decide

/-- Digits stand for the number that they were written for. -/
theorem valueOfDigits_toDigits {base : Nat} (hlow : 1 < base) (hhigh : base ≤ 16) (n : Nat) :
    valueOfDigits base (Nat.toDigits base n) = n := by
  induction n using Nat.strongRecOn with
  | ind n ih =>
    rw [Nat.toDigits_eq_if hlow]
    split
    · rename_i hlt
      simp [valueOfDigits, digitValue_digitChar (Nat.lt_of_lt_of_le hlt hhigh)]
    · rename_i hge
      have hvalue := ih (n / base) (Nat.div_lt_self (by omega) hlow)
      have hdigit : n % base < 16 := Nat.lt_of_lt_of_le (Nat.mod_lt _ (by omega)) hhigh
      rw [valueOfDigits] at hvalue
      rw [valueOfDigits, List.foldl_append, hvalue, List.foldl_cons, List.foldl_nil,
        digitValue_digitChar hdigit]
      exact Nat.div_add_mod' n base

theorem isDigit_of_mem_printNumber {n : UInt32} {c : Char} (h : c ∈ printNumber n) :
    isDigit c = true := by
  have hdigit := Nat.isDigit_of_mem_toDigits (by decide) (by decide) h
  simpa [Char.isDigit, isDigit, Char.le_def] using hdigit

theorem printNumber_ne_nil (n : UInt32) : printNumber n ≠ [] :=
  Nat.toDigits_ne_nil

/-! ## Printable texts -/

/-- Whether all characters are printable. -/
def Printable (text : List Char) : Prop :=
  ∀ c ∈ text, isPrintable c = true

@[simp] theorem printable_nil : Printable [] := by
  simp [Printable]

@[simp] theorem printable_cons {c : Char} {text : List Char} :
    Printable (c :: text) ↔ isPrintable c = true ∧ Printable text :=
  List.forall_mem_cons

@[simp] theorem printable_append {text text' : List Char} :
    Printable (text ++ text') ↔ Printable text ∧ Printable text' :=
  List.forall_mem_append

theorem Printable.isAscii {text : List Char} (h : Printable text) : ∀ c ∈ text, c.toNat < 128 := by
  intro c hc
  have hrange := isPrintable_iff.1 (h c hc)
  omega

theorem isPrintable_of_isLetter {c : Char} (h : isLetter c = true) : isPrintable c = true := by
  have hrange := isLetter_iff.1 h
  exact isPrintable_iff.2 (by omega)

theorem isPrintable_of_isDigit {c : Char} (h : isDigit c = true) : isPrintable c = true := by
  have hrange := isDigit_iff.1 h
  exact isPrintable_iff.2 (by omega)

theorem isPrintable_of_isNameCharacter {c : Char} (h : isNameCharacter c = true) :
    isPrintable c = true := by
  simp only [isNameCharacter, Bool.or_eq_true, beq_iff_eq] at h
  rcases h with (h | h) | rfl
  · exact isPrintable_of_isLetter h
  · exact isPrintable_of_isDigit h
  · decide

@[simp] theorem printable_name (name : Name) : Printable name.chars :=
  printable_cons.2 ⟨isPrintable_of_isLetter name.first_isLetter, fun c hc =>
    isPrintable_of_isNameCharacter (name.rest_isName c hc)⟩

@[simp] theorem printable_number (n : UInt32) : Printable (printNumber n) :=
  fun _ hc => isPrintable_of_isDigit (isDigit_of_mem_printNumber hc)

@[simp] theorem printable_dotted (ns : List UInt32) : Printable (printDotted ns) := by
  induction ns with
  | nil => simp [printDotted]
  | cons n ns ih => simpa [printDotted, ih] using by decide

@[simp] theorem printable_quoted {delimiter : Char} (text : Quoted delimiter) :
    Printable text.chars := by
  intro c hc
  obtain ⟨hlow, hhigh, -⟩ := text.printable c hc
  simp [isPrintable, hlow, hhigh]

@[simp] theorem printable_reference (reference : Reference) : Printable reference.print := by
  cases reference with
  | rule name => exact printable_name name
  | udt empty name => cases empty <;> simpa [Reference.print] using by decide

@[simp] theorem printable_operator (operator : Option Operator) :
    Printable (printOperator operator) := by
  cases operator with
  | none => exact printable_nil
  | some operator => cases operator <;> simpa [printOperator, Operator.print] using by decide

@[simp] theorem printable_leaf (leaf : Leaf) : Printable leaf.print := by
  cases leaf with
  | name reference => exact printable_reference reference
  | back caseInsensitive reference =>
    cases caseInsensitive <;> simpa [Leaf.print] using by decide
  | _ => simpa [Leaf.print] using by decide

mutual

theorem printable_element : (element : Element) → Printable element.print
  | .leaf operator leaf => by simp [Element.print]
  | .group operator alternatives | .option operator alternatives => by
    simpa [Element.print, printable_alternatives alternatives] using by decide

theorem printable_alternative : (alternative : Alternative) → Printable alternative.print
  | .last element => printable_element element
  | .cons element rest => by
    simpa [Alternative.print, printable_element element, printable_alternative rest] using
      by decide

theorem printable_alternatives : (alternatives : Alternatives) → Printable alternatives.print
  | .last alternative => printable_alternative alternative
  | .cons alternative rest => by
    simpa [Alternatives.print, printable_alternative alternative, printable_alternatives rest]
      using by decide

end

/-- A line is printable up to the line feed that ends it. -/
theorem exists_printable_line (line : Line) (incremental : Bool) :
    ∃ text, Printable text ∧ line.print incremental = text ++ ['\n'] := by
  refine ⟨line.name.chars ++ ' ' :: '=' :: ((if incremental then ['/', ' '] else [' ']) ++
    line.alternatives.print), ?_, by simp [Line.print]⟩
  cases incremental <;> simpa [printable_alternatives line.alternatives] using by decide

/-! ## The character check -/

/-- Printable characters and the line feed behind them pass the character check. -/
theorem characterFlaws_line {text : List Char} (h : Printable text) (line offset : Nat)
    (started : Bool) (rest : List UInt8) :
    characterFlaws false line offset started (encode (text ++ ['\n']) ++ rest) =
      characterFlaws false (line + 1) (offset + text.length + 1) false rest := by
  induction text generalizing offset started with
  | nil => rfl
  | cons c text ih =>
    obtain ⟨hc, htext⟩ := printable_cons.1 h
    have hrange := isPrintable_iff.1 hc
    have hbyte : (byteOf c).toNat = c.toNat := by rw [toNat_byteOf]; omega
    have hfeed : byteOf c ≠ 10 := fun heq => by simp [heq] at hbyte; omega
    have hreturn : byteOf c ≠ 13 := fun heq => by simp [heq] at hbyte; omega
    have hgood : isGrammarCharacter (byteOf c) = true := by
      simp [isGrammarCharacter, UInt8.le_iff_toNat_le, hbyte, hrange]
    rw [List.cons_append, encode_cons, List.cons_append, characterFlaws]
    · simp only [hfeed, hreturn, hgood, if_false, if_true]
      rw [ih htext, List.length_cons]
      congr 1
      omega
    · exact fun _ hcrlf => absurd hcrlf (by simp [hreturn])

theorem characterFlaws_lines (lines : List (Line × Bool)) (line offset : Nat) :
    characterFlaws false line offset false
      (encode (lines.flatMap fun line => line.1.print line.2)) = [] := by
  induction lines generalizing line offset with
  | nil => rfl
  | cons first lines ih =>
    obtain ⟨text, htext, hprint⟩ := exists_printable_line first.1 first.2
    rw [List.flatMap_cons, encode_append, hprint, characterFlaws_line htext]
    exact ih _ _

theorem isAscii_lines {lines : List (Line × Bool)} :
    ∀ c ∈ lines.flatMap fun line => line.1.print line.2, c.toNat < 128 := by
  intro c hc
  obtain ⟨line, -, hc⟩ := List.mem_flatMap.1 hc
  obtain ⟨text, htext, hprint⟩ := exists_printable_line line.1 line.2
  rw [hprint, List.mem_append, List.mem_singleton] at hc
  rcases hc with hc | rfl
  · exact htext.isAscii c hc
  · decide

/-- The character check has no objection to a canonical text. -/
theorem characterDiagnostics_print (lines : List Line) :
    (Source.ofString (print lines)).characterDiagnostics false = [] := by
  rw [Source.characterDiagnostics, print, bytes_ofString isAscii_lines, characterFlaws_lines]
  rfl

end Abnf.Canonical
