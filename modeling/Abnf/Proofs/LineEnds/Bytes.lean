import Abnf.Proofs.Catalog
import Abnf.Proofs.Strictness

/-!
# Other line ends

Bytes in which CRLF or CR stands in the place of every line feed. Where a byte goes depends on the
number of line feeds before it; no two bytes go to the same place, and lines and objections to
characters go where their first bytes go.

* `drop_convert`: what follows a byte is converted to what follows the place where it goes.
* `characterFlaws_convert`: the objections to the characters of converted bytes.
* `findLine_convert`: bytes stay on their lines.
-/

namespace Abnf

/-! ## Conversion -/

/-- A line end other than a line feed. -/
inductive Ending where
  | crlf
  | cr

namespace Ending

/-- The bytes of a line end. -/
def bytes : Ending → List UInt8
  | crlf => [13, 10]
  | cr => [13]

/-- How many bytes it has more than a line feed. -/
def extra : Ending → Nat
  | crlf => 1
  | cr => 0

variable (ending : Ending)

/-- The bytes that stand in the place of a byte. -/
def inPlaceOf (byte : UInt8) : List UInt8 :=
  if byte = 10 then ending.bytes else [byte]

/-- Puts another line end in the place of every line feed. -/
def convert (bytes : List UInt8) : List UInt8 :=
  bytes.flatMap ending.inPlaceOf

/-- Where the byte at `offset` goes. -/
def shift (bytes : List UInt8) (offset : Nat) : Nat :=
  offset + ending.extra * (bytes.take offset).count 10

@[simp] theorem convert_nil : ending.convert [] = [] :=
  rfl

@[simp] theorem convert_lineFeed (bytes : List UInt8) :
    ending.convert (10 :: bytes) = ending.bytes ++ ending.convert bytes :=
  rfl

theorem convert_cons {byte : UInt8} (h : byte ≠ 10) (bytes : List UInt8) :
    ending.convert (byte :: bytes) = byte :: ending.convert bytes := by
  rw [convert, List.flatMap_cons, inPlaceOf, if_neg h]
  rfl

/-- Converted bytes do not begin with a line feed, so a carriage return in front of them is a line
end by itself. -/
theorem head?_convert_ne (bytes : List UInt8) : (ending.convert bytes).head? ≠ some 10 := by
  cases bytes with
  | nil => simp
  | cons byte bytes =>
    by_cases hbyte : byte = 10
    · subst hbyte
      cases ending <;> simp [Ending.bytes]
    · simp [convert_cons ending hbyte, hbyte]

/-! ## Offsets -/

@[simp] theorem shift_zero (bytes : List UInt8) : ending.shift bytes 0 = 0 := by
  simp [shift]

@[simp] theorem shift_nil (offset : Nat) : ending.shift [] offset = offset := by
  simp [shift]

theorem shift_add (bytes : List UInt8) (offset n : Nat) :
    ending.shift bytes (offset + n) =
      ending.shift bytes offset + ending.shift (bytes.drop offset) n := by
  simp only [shift, List.take_add, List.count_append, Nat.mul_add]
  omega

theorem shift_lineFeed (bytes : List UInt8) (n : Nat) :
    ending.shift (10 :: bytes) (n + 1) = ending.bytes.length + ending.shift bytes n := by
  cases ending <;> simp [shift, extra, Ending.bytes] <;> omega

theorem shift_cons {byte : UInt8} (h : byte ≠ 10) (bytes : List UInt8) (n : Nat) :
    ending.shift (byte :: bytes) (n + 1) = 1 + ending.shift bytes n := by
  simp only [shift, List.take_succ_cons, List.count_cons_of_ne h]
  omega

theorem le_shift (bytes : List UInt8) (offset : Nat) : offset ≤ ending.shift bytes offset :=
  Nat.le_add_right _ _

theorem shift_lt_shift_iff {bytes : List UInt8} {a b : Nat} :
    ending.shift bytes a < ending.shift bytes b ↔ a < b := by
  have hmono : ∀ {a b : Nat}, a < b → ending.shift bytes a < ending.shift bytes b := by
    intro a b hlt
    obtain ⟨n, rfl⟩ := Nat.exists_eq_add_of_lt hlt
    rw [Nat.add_assoc, shift_add]
    have := ending.le_shift (bytes.drop a) (n + 1)
    omega
  refine ⟨fun h => ?_, hmono⟩
  by_contra hge
  rcases Nat.lt_or_eq_of_le (Nat.le_of_not_lt hge) with hlt | rfl
  · exact Nat.lt_asymm h (hmono hlt)
  · exact Nat.lt_irrefl _ h

theorem shift_injective (bytes : List UInt8) : Function.Injective (ending.shift bytes) := by
  intro a b h
  have hab : ending.shift bytes a < ending.shift bytes b ↔ a < b := ending.shift_lt_shift_iff
  have hba : ending.shift bytes b < ending.shift bytes a ↔ b < a := ending.shift_lt_shift_iff
  omega

theorem shift_sub (bytes : List UInt8) (offset n : Nat) :
    ending.shift bytes (offset + n) - ending.shift bytes offset =
      ending.shift (bytes.drop offset) n := by
  rw [shift_add, Nat.add_sub_cancel_left]

/-- Bytes without line feeds keep their distances. -/
theorem shift_of_not_mem {bytes : List UInt8} {n : Nat} (h : 10 ∉ bytes.take n) :
    ending.shift bytes n = n := by
  rw [shift, List.count_eq_zero.2 h]
  rfl

theorem convert_of_not_mem {bytes : List UInt8} (h : 10 ∉ bytes) : ending.convert bytes = bytes := by
  induction bytes with
  | nil => rfl
  | cons byte bytes ih =>
    rw [List.mem_cons, not_or] at h
    rw [convert_cons ending (Ne.symm h.1), ih h.2]

/-- What follows a byte is converted to what follows the place where it goes. -/
theorem drop_convert (bytes : List UInt8) (n : Nat) :
    (ending.convert bytes).drop (ending.shift bytes n) = ending.convert (bytes.drop n) := by
  induction bytes generalizing n with
  | nil => simp
  | cons byte bytes ih =>
    cases n with
    | zero => simp
    | succ n =>
      by_cases hbyte : byte = 10
      · subst hbyte
        rw [shift_lineFeed, convert_lineFeed, List.drop_append, Nat.add_sub_cancel_left, ih,
          List.drop_of_length_le (Nat.le_add_right _ _), List.nil_append, List.drop_succ_cons]
      · rw [shift_cons ending hbyte, convert_cons ending hbyte, Nat.add_comm, List.drop_succ_cons,
          ih, List.drop_succ_cons]

theorem length_convert (bytes : List UInt8) :
    (ending.convert bytes).length = ending.shift bytes bytes.length := by
  induction bytes with
  | nil => simp
  | cons byte bytes ih =>
    by_cases hbyte : byte = 10
    · subst hbyte
      rw [convert_lineFeed, List.length_append, ih, List.length_cons, shift_lineFeed]
    · rw [convert_cons ending hbyte, List.length_cons, List.length_cons, ih,
        shift_cons ending hbyte, Nat.add_comm]

/-- Bytes without line feeds stay as they are. -/
theorem take_convert {bytes : List UInt8} {n : Nat} (h : 10 ∉ bytes.take n) :
    (ending.convert bytes).take n = bytes.take n := by
  induction bytes generalizing n with
  | nil => simp
  | cons byte bytes ih =>
    cases n with
    | zero => simp
    | succ n =>
      rw [List.take_succ_cons, List.mem_cons, not_or] at h
      rw [convert_cons ending (Ne.symm h.1), List.take_succ_cons, List.take_succ_cons, ih h.2]

/-! ## Characters -/

/-- The objections to the characters of converted bytes are those to the bytes, each where the byte
goes. -/
theorem characterFlaws_convert {bytes : List UInt8} (hbytes : 13 ∉ bytes) {move : Nat → Nat}
    {offset offset' : Nat} (hmove : ∀ n, move (offset + n) = offset' + ending.shift bytes n)
    (line : Nat) (started : Bool) :
    characterFlaws false line offset' started (ending.convert bytes) =
      (characterFlaws false line offset started bytes).map fun flaw =>
        (flaw.1, move flaw.2.1, flaw.2.2) := by
  induction bytes generalizing offset offset' line started with
  | nil =>
    have hoffset := hmove 0
    simp only [shift_zero, Nat.add_zero] at hoffset
    cases started <;> simp [characterFlaws, hoffset]
  | cons byte bytes ih =>
    rw [List.mem_cons, not_or] at hbytes
    -- A line feed becomes the other line end, behind which a line begins; other bytes stay as they
    -- are.
    by_cases hbyte : byte = 10
    · subst hbyte
      have hnext : ∀ n, move (offset + 1 + n) =
          offset' + ending.bytes.length + ending.shift bytes n := by
        intro n
        rw [Nat.add_assoc, Nat.add_comm 1 n, hmove, shift_lineFeed, Nat.add_assoc]
      have hrest := ih hbytes.2 hnext (line + 1) false
      rw [convert_lineFeed]
      cases ending with
      | crlf => simpa [characterFlaws, Ending.bytes] using hrest
      | cr =>
        have hcr := characterFlaws_cr (head?_convert_ne .cr bytes) false line offset' started
        simpa [characterFlaws, Ending.bytes, hcr] using hrest
    · have hnext : ∀ n, move (offset + 1 + n) = offset' + 1 + ending.shift bytes n := by
        intro n
        rw [Nat.add_assoc, Nat.add_comm 1 n, hmove, shift_cons ending hbyte, Nat.add_assoc]
      have hoffset := hmove 0
      simp only [shift_zero, Nat.add_zero] at hoffset
      have hrest := ih hbytes.2 hnext line true
      have hcr : byte ≠ 13 := Ne.symm hbytes.1
      rw [convert_cons ending hbyte]
      simp only [characterFlaws, hbyte, hcr, if_false, false_implies, implies_true, hrest]
      split
      · rfl
      · rw [List.map_cons, hoffset]

/-! ## Lines -/

theorem catalog_cr {bytes : List UInt8} (h : bytes.head? ≠ some 10) (number start length : Nat) :
    Line.catalog number start length (13 :: bytes) =
      ⟨number, start, length, .cr⟩ :: Line.catalog (number + 1) (start + length + 1) 0 bytes := by
  cases bytes with
  | nil => simp [Line.catalog]
  | cons byte bytes =>
    have hbyte : byte ≠ 10 := by simpa using h
    simp [Line.catalog, hbyte]

/-- The lines of converted bytes begin where the first bytes of the lines go. -/
theorem starts_convert {bytes : List UInt8} (hbytes : 13 ∉ bytes) {move : Nat → Nat}
    {start start' length : Nat} (hstart : move start = start')
    (hmove : ∀ n, move (start + length + n) = start' + length + ending.shift bytes n)
    (number : Nat) :
    (Line.catalog number start' length (ending.convert bytes)).map Line.start =
      (Line.catalog number start length bytes).map fun line => move line.start := by
  induction bytes generalizing number start start' length with
  | nil =>
    rw [convert_nil, Line.catalog, Line.catalog]
    split
    · rfl
    · simp [hstart]
  | cons byte bytes ih =>
    rw [List.mem_cons, not_or] at hbytes
    -- A line feed becomes the other line end, behind which the next line starts.
    by_cases hbyte : byte = 10
    · subst hbyte
      have hnext : ∀ n, move (start + length + 1 + 0 + n) =
          start' + length + ending.bytes.length + 0 + ending.shift bytes n := by
        intro n
        rw [Nat.add_zero, Nat.add_assoc, Nat.add_comm 1 n, hmove, shift_lineFeed, ← Nat.add_assoc]
        rfl
      have hstart' : move (start + length + 1) = start' + length + ending.bytes.length := hnext 0
      have hrest := ih hbytes.2 hstart' hnext (number + 1)
      rw [convert_lineFeed]
      cases ending with
      | crlf => simpa [Line.catalog, Ending.bytes, hstart] using hrest
      | cr =>
        have hcr := catalog_cr (head?_convert_ne .cr bytes) number start' length
        simpa [Line.catalog, Ending.bytes, hcr, hstart] using hrest
    · have hnext : ∀ n, move (start + (length + 1) + n) =
          start' + (length + 1) + ending.shift bytes n := by
        intro n
        rw [← Nat.add_assoc, Nat.add_assoc, Nat.add_comm 1 n, hmove, shift_cons ending hbyte]
        omega
      have hcr : byte ≠ 13 := Ne.symm hbytes.1
      rw [convert_cons ending hbyte]
      simp only [Line.catalog, hbyte, hcr, if_false, false_implies, implies_true]
      exact ih hbytes.2 hstart hnext number

end Ending

/-! ## Sources -/

/-- A diagnostic for a byte that has gone to another place on its line. -/
def Diagnostic.move (place : Nat → Nat) (d : Diagnostic) : Diagnostic :=
  { d with offset := place d.offset }

namespace Ending

variable (ending : Ending)

/-- The source of converted bytes. -/
def source (bytes : Array UInt8) : Source :=
  .ofBytes (ending.convert bytes.toList).toArray

variable {bytes : Array UInt8} (hbytes : 13 ∉ bytes)
include hbytes

theorem characterDiagnostics_convert : (ending.source bytes).characterDiagnostics false =
    ((Source.ofBytes bytes).characterDiagnostics false).map
      (Diagnostic.move (ending.shift bytes.toList)) := by
  have hlist : 13 ∉ bytes.toList := by simpa using hbytes
  have hmove : ∀ n, ending.shift bytes.toList (0 + n) = 0 + ending.shift bytes.toList n := by simp
  have hflaws := characterFlaws_convert ending hlist hmove 0 false
  simp only [Source.characterDiagnostics, source, Source.ofBytes, List.map_map]
  rw [hflaws, List.map_map]
  rfl

/-- Bytes stay on their lines. -/
theorem findLine_convert (offset : Nat) :
    (ending.source bytes).findLine (ending.shift bytes.toList offset) =
      (Source.ofBytes bytes).findLine offset := by
  have hlist : 13 ∉ bytes.toList := by simpa using hbytes
  have hmove : ∀ n, ending.shift bytes.toList (0 + 0 + n) =
      0 + 0 + ending.shift bytes.toList n := by simp
  have hstarts := starts_convert ending hlist (shift_zero ending _) hmove 0
  let lines := Line.catalog 0 0 0 bytes.toList
  let lines' := Line.catalog 0 0 0 (ending.convert bytes.toList)
  let before := fun start => decide (ending.shift bytes.toList offset < start)
  have hidx : lines'.findIdx (before ∘ Line.start) =
      lines.findIdx fun line => decide (offset < line.start) := by
    calc lines'.findIdx (before ∘ Line.start)
        = (lines'.map Line.start).findIdx before := (List.findIdx_map _ _ _).symm
      _ = (lines.map fun line => ending.shift bytes.toList line.start).findIdx before := by
          rw [hstarts]
      _ = lines.findIdx fun line => decide (offset < line.start) := by
          rw [List.findIdx_map]
          simp only [before, Function.comp_def, shift_lt_shift_iff]
  simp only [Source.findLine, source, Source.ofBytes, List.findIdx_toArray]
  exact congrArg (· - 1) hidx

/-- The diagnostics of flaws that have gone where their bytes go. -/
theorem diagnostics_convert {α : Type} (message : α → String) (flaws : List (Nat × α)) :
    (flaws.map fun flaw => (ending.shift bytes.toList flaw.1, flaw.2)).map
        (fun flaw => (ending.source bytes).diagnostic flaw.1 (message flaw.2)) =
      (flaws.map fun flaw => (Source.ofBytes bytes).diagnostic flaw.1 (message flaw.2)).map
        (Diagnostic.move (ending.shift bytes.toList)) := by
  rw [List.map_map, List.map_map]
  refine List.map_congr_left fun flaw _ => ?_
  simp only [Function.comp_apply, Source.diagnostic, findLine_convert ending hbytes, Diagnostic.move]

end Ending

end Abnf
