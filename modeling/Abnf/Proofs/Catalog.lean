import Mathlib.Algebra.Ring.Nat
import Mathlib.Data.List.Chain
import Mathlib.Data.List.Pairwise
import Abnf.Source

/-!
# The catalog of lines

The bytes of a source fall into lines: text without line feeds and carriage returns, then CRLF, a
line feed, or a carriage return that no line feed follows. Only the text of the last line may go on
to the end of the source. What is found of a byte through the catalog rests on this: the line that
holds it, and whether the character check objects to it.

* `Splits`, `splits_catalog`: how bytes fall into the lines of the catalog.
* `Source.catalog_exact`: lines, bytes and objections of a source.
-/

namespace Abnf

/-! ## Falling into lines -/

/-- The bytes of a line end. -/
def LineEnd.bytes : LineEnd → List UInt8
  | .crlf => [13, 10]
  | .lf => [10]
  | .cr => [13]
  | .missing => []

@[simp] theorem LineEnd.length_bytes (ending : LineEnd) : ending.bytes.length = ending.length := by
  cases ending <;> rfl

/-- Neither a line feed nor a carriage return. -/
def IsText (byte : UInt8) : Prop := byte ≠ 10 ∧ byte ≠ 13

/-- Bytes fall into lines, the first of which has the number `number` and begins at `start`. -/
inductive Splits : (number start : Nat) → List UInt8 → List Line → Prop
  | done {number start : Nat} : Splits number start [] []
  | last {number start : Nat} {text : List UInt8} : (∀ byte ∈ text, IsText byte) → text ≠ [] →
    Splits number start text [⟨number, start, text.length, .missing⟩]
  | line {number start : Nat} {text rest : List UInt8} {ending : LineEnd} {lines : List Line} :
    (∀ byte ∈ text, IsText byte) → ending ≠ .missing → (ending = .cr → rest.head? ≠ some 10) →
      Splits (number + 1) (start + (text.length + ending.length)) rest lines →
        Splits number start (text ++ (ending.bytes ++ rest))
          (⟨number, start, text.length, ending⟩ :: lines)

/-- Bytes fall into the lines of their catalog. -/
theorem splits_catalog {number start textLength : Nat} {bytes text : List UInt8}
    (htext : ∀ byte ∈ text, IsText byte) (hlength : text.length = textLength) :
    Splits number start (text ++ bytes) (Line.catalog number start textLength bytes) := by
  fun_induction Line.catalog number start textLength bytes generalizing text with
  | case1 number start =>
    obtain rfl : text = [] := List.eq_nil_of_length_eq_zero hlength
    exact .done
  | case2 number start textLength hne =>
    subst hlength
    rw [List.append_nil]
    exact .last htext fun hnil => hne (by simp [hnil])
  | case3 number start textLength rest ih =>
    subst hlength
    exact @Splits.line number start text rest .crlf _ htext nofun nofun
      (ih (List.forall_mem_nil _) rfl)
  | case4 number start textLength rest hcrlf ih =>
    subst hlength
    exact @Splits.line number start text rest .lf _ htext nofun nofun
      (ih (List.forall_mem_nil _) rfl)
  | case5 number start textLength rest hcrlf _ ih =>
    subst hlength
    refine @Splits.line number start text rest .cr _ htext nofun (fun _ hhead => ?_)
      (ih (List.forall_mem_nil _) rfl)
    obtain ⟨tail, rfl⟩ := List.head?_eq_some_iff.1 hhead
    exact hcrlf tail rfl rfl
  | case6 number start textLength byte rest hcrlf hlf hcr ih =>
    have hmore : ∀ b ∈ text ++ [byte], IsText b :=
      List.forall_mem_append.2 ⟨htext, List.forall_mem_singleton.2 ⟨hlf, hcr⟩⟩
    simpa using ih hmore (by simp [hlength])

/-! ## Lines -/

/-- The offset is that of a byte of the line. -/
def Line.Holds (line : Line) (offset : Nat) : Prop :=
  line.start ≤ offset ∧ offset < line.start + line.length

/-- The bytes of a line are what its entry says: text, and a line end. -/
structure Line.Describes (line : Line) (bytes : Array UInt8) : Prop where
  text : ∀ i, line.start ≤ i → i < line.start + line.textLength →
    ∃ byte, bytes[i]? = some byte ∧ IsText byte
  ending : match line.ending with
    | .crlf => bytes[line.start + line.textLength]? = some 13 ∧
        bytes[line.start + line.textLength + 1]? = some 10
    | .lf => bytes[line.start + line.textLength]? = some 10
    | .cr => bytes[line.start + line.textLength]? = some 13 ∧
        bytes[line.start + line.textLength + 1]? ≠ some 10
    | .missing => line.start + line.textLength = bytes.size ∧ line.textLength ≠ 0

namespace Splits

variable {number start offset k : Nat} {bytes : List UInt8} {lines : List Line} {line : Line}

theorem number_eq (h : Splits number start bytes lines) (hline : lines[k]? = some line) :
    line.number = number + k := by
  induction h generalizing k with
  | done => simp at hline
  | last =>
    obtain ⟨rfl, rfl⟩ : k = 0 ∧ _ := by simpa [List.getElem?_singleton] using hline
    rfl
  | line _ _ _ _ ih =>
    cases k with
    | zero =>
      cases hline
      rfl
    | succ k =>
      rw [ih hline]
      omega

/-- The first line begins where the bytes begin. -/
theorem start_eq (h : Splits number start bytes lines) (hline : lines.head? = some line) :
    line.start = start := by
  cases h with
  | done => cases hline
  | last | line =>
    cases hline
    rfl

/-- Every line begins where the one before it ends. -/
theorem isChain (h : Splits number start bytes lines) :
    lines.IsChain fun line next => next.start = line.start + line.length := by
  induction h with
  | done => exact .nil
  | last => exact .singleton _
  | line _ _ _ hrest ih => exact List.isChain_cons.2 ⟨fun next hnext => hrest.start_eq hnext, ih⟩

theorem sum_length (h : Splits number start bytes lines) :
    (lines.map Line.length).sum = bytes.length := by
  induction h with
  | done => rfl
  | last => simp [Line.length, LineEnd.length]
  | line _ _ _ _ ih => simp [ih, Line.length, Nat.add_assoc]

/-- Only the last line goes on to the end of the bytes. -/
theorem eq_last (h : Splits number start bytes lines) (hline : lines[k]? = some line)
    (hending : line.ending = .missing) : k + 1 = lines.length := by
  induction h generalizing k with
  | done => simp at hline
  | last =>
    obtain ⟨rfl, -⟩ : k = 0 ∧ _ := by simpa [List.getElem?_singleton] using hline
    rfl
  | line _ hne _ _ ih =>
    cases k with
    | zero =>
      cases hline
      exact absurd hending hne
    | succ k => rw [List.length_cons, ih hline]

theorem getElem?_behind {text rest : List UInt8} {ending : LineEnd} (k : Nat) :
    (text ++ (ending.bytes ++ rest))[text.length + k]? = (ending.bytes ++ rest)[k]? := by
  rw [List.getElem?_append_right (Nat.le_add_right _ _), Nat.add_sub_cancel_left]

theorem getElem?_rest {whole : Array UInt8} {text rest : List UInt8} {ending : LineEnd}
    (hwhole : ∀ k : Nat, whole[start + k]? = (text ++ (ending.bytes ++ rest))[k]?) (k : Nat) :
    whole[start + (text.length + ending.length) + k]? = rest[k]? := by
  rw [Nat.add_assoc, hwhole, Nat.add_assoc, getElem?_behind,
    List.getElem?_append_right (by simp), LineEnd.length_bytes, Nat.add_sub_cancel_left]

/-- The bytes of lines are what the entries of the lines say. -/
theorem describes {whole : Array UInt8} (h : Splits number start bytes lines)
    (hwhole : ∀ k : Nat, whole[start + k]? = bytes[k]?) : ∀ line ∈ lines, line.Describes whole := by
  have htext : ∀ {text rest : List UInt8} {start : Nat}, (∀ byte ∈ text, IsText byte) →
      (∀ k : Nat, whole[start + k]? = (text ++ rest)[k]?) → ∀ i, start ≤ i →
        i < start + text.length → ∃ byte, whole[i]? = some byte ∧ IsText byte := by
    intro text rest start htext hwhole i hle hlt
    obtain ⟨k, rfl⟩ := Nat.exists_eq_add_of_le hle
    have hk : k < text.length := by omega
    refine ⟨text[k], ?_, htext _ (List.getElem_mem hk)⟩
    rw [hwhole, List.getElem?_append_left hk, List.getElem?_eq_getElem hk]
  induction h with
  | done => simp
  | @last number start text hclean hne =>
    refine List.forall_mem_singleton.2 ⟨@htext text [] start hclean (by simpa using hwhole), ?_, ?_⟩
    · have hpos := List.length_pos_iff.2 hne
      have hend : whole[start + text.length]? = none := by simp [hwhole]
      have hlast : whole[start + (text.length - 1)]? ≠ none := by
        rw [hwhole, List.getElem?_eq_getElem (by omega)]
        nofun
      simp only [ne_eq, Array.getElem?_eq_none_iff] at hend hlast
      show start + text.length = whole.size
      omega
    · simpa using hne
  | @line number start text rest ending lines hclean hne hcr _ ih =>
    refine List.forall_mem_cons.2 ⟨⟨htext hclean hwhole, ?_⟩, ih (getElem?_rest hwhole)⟩
    have hbehind : ∀ k, whole[start + text.length + k]? = (ending.bytes ++ rest)[k]? := by
      intro k
      rw [Nat.add_assoc, hwhole, getElem?_behind]
    have hfirst := hbehind 0
    have hsecond := hbehind 1
    -- A carriage return alone ends a line only if no line feed follows it.
    cases ending with
    | crlf => exact ⟨hfirst, hsecond⟩
    | lf => exact hfirst
    | cr =>
      refine ⟨hfirst, ?_⟩
      show whole[start + text.length + 1]? ≠ some 10
      rw [hsecond]
      simpa [LineEnd.bytes, List.head?_eq_getElem?] using hcr rfl
    | missing => exact absurd rfl hne

/-! ## Finding lines -/

/-- Lines lie within their bytes. -/
theorem within (h : Splits number start bytes lines) (hline : line ∈ lines) :
    start ≤ line.start ∧ line.start + line.length ≤ start + bytes.length := by
  induction h with
  | done => simp at hline
  | last =>
    obtain rfl := List.mem_singleton.1 hline
    simp [Line.length, LineEnd.length]
  | line _ _ _ _ ih =>
    rcases List.mem_cons.1 hline with rfl | hline
    · simp [Line.length]
    · obtain ⟨hle, hge⟩ := ih hline
      simp only [List.length_append, LineEnd.length_bytes]
      omega

/-- Every byte is on a line. -/
theorem exists_holds (h : Splits number start bytes lines) (hle : start ≤ offset)
    (hlt : offset < start + bytes.length) : ∃ (k : Nat) (line : Line), lines[k]? = some line ∧
      line.Holds offset := by
  induction h with
  | done =>
    simp at hlt
    omega
  | last => exact ⟨0, _, rfl, hle, by simpa [Line.length, LineEnd.length] using hlt⟩
  | @line number start text rest ending lines _ _ _ _ ih =>
    by_cases hhere : offset < start + (text.length + ending.length)
    · exact ⟨0, _, rfl, hle, hhere⟩
    · simp only [List.length_append, LineEnd.length_bytes] at hlt
      obtain ⟨k, line, hline, hholds⟩ := ih (by omega) (by omega)
      exact ⟨k + 1, line, hline, hholds⟩

/-- The lines up to the one that holds an offset are those that do not begin behind it. -/
theorem findIdx_of_holds (h : Splits number start bytes lines) (hline : lines[k]? = some line)
    (hholds : line.Holds offset) :
    lines.findIdx (fun line => decide (offset < line.start)) = k + 1 := by
  obtain ⟨hle, hlt⟩ := hholds
  induction h generalizing k with
  | done => simp at hline
  | last =>
    obtain ⟨rfl, rfl⟩ : k = 0 ∧ _ := by simpa [List.getElem?_singleton] using hline
    simp [List.findIdx_cons, Nat.not_lt.2 hle]
  | @line number start text rest ending lines _ _ _ hrest ih =>
    rw [List.findIdx_cons]
    cases k with
    | zero =>
      cases hline
      have hnot : ¬ offset < start := Nat.not_lt.2 hle
      have hnone : lines.findIdx (fun line => decide (offset < line.start)) = 0 := by
        cases lines with
        | nil => rfl
        | cons next lines =>
          have hnext : offset < next.start := hrest.start_eq rfl ▸ hlt
          simp [List.findIdx_cons, hnext]
      simp [hnot, hnone]
    | succ k =>
      have hbehind := (hrest.within (List.mem_of_getElem? hline)).1
      have hnot : ¬ offset < start := by omega
      simp [hnot, ih hline]

/-- No line begins behind the end of the bytes. -/
theorem findIdx_of_le (h : Splits number start bytes lines) (hle : start + bytes.length ≤ offset) :
    lines.findIdx (fun line => decide (offset < line.start)) = lines.length := by
  refine List.findIdx_eq_length.2 fun line hline => decide_eq_false ?_
  have := (h.within hline).2
  omega

end Splits

/-! ## Objections -/

/-- What is objected to on a line, and where: characters other than tabs and printable ones, line
ends other than CRLF in a strict source, and the lack of a line end. -/
inductive Line.Objects (line : Line) (bytes : Array UInt8) (strict : Bool) :
    Nat → CharacterFlaw → Prop
  | invalid {i : Nat} {byte : UInt8} : line.start ≤ i → i < line.start + line.textLength →
    bytes[i]? = some byte → byte ≠ 9 → ¬ (32 ≤ byte ∧ byte ≤ 126) →
      line.Objects bytes strict i (.invalid byte)
  | bareLineFeed : strict = true → line.ending = .lf →
    line.Objects bytes strict (line.start + line.textLength) .bareLineFeed
  | bareCarriageReturn : strict = true → line.ending = .cr →
    line.Objects bytes strict (line.start + line.textLength) .bareCarriageReturn
  | missingLineEnd : line.ending = .missing → line.Objects bytes strict bytes.size .missingLineEnd

theorem isGrammarCharacter_eq_false_iff {byte : UInt8} : isGrammarCharacter byte = false ↔
    byte ≠ 9 ∧ ¬ (32 ≤ byte ∧ byte ≤ 126) := by
  simp [isGrammarCharacter]

theorem Line.objects_iff {line : Line} {bytes : Array UInt8} {strict : Bool} {i : Nat}
    {found : CharacterFlaw} : line.Objects bytes strict i found ↔
      (∃ byte, line.start ≤ i ∧ i < line.start + line.textLength ∧ bytes[i]? = some byte ∧
        isGrammarCharacter byte = false ∧ found = .invalid byte) ∨
      (strict = true ∧ i = line.start + line.textLength ∧
        (line.ending = .lf ∧ found = .bareLineFeed ∨
          line.ending = .cr ∧ found = .bareCarriageReturn)) ∨
      line.ending = .missing ∧ i = bytes.size ∧ found = .missingLineEnd := by
  simp only [isGrammarCharacter_eq_false_iff]
  constructor
  · intro h
    cases h with
    | invalid hle hlt hbyte htab hprintable =>
      exact Or.inl ⟨_, hle, hlt, hbyte, ⟨htab, hprintable⟩, rfl⟩
    | bareLineFeed hstrict hending =>
      exact Or.inr (Or.inl ⟨hstrict, rfl, Or.inl ⟨hending, rfl⟩⟩)
    | bareCarriageReturn hstrict hending =>
      exact Or.inr (Or.inl ⟨hstrict, rfl, Or.inr ⟨hending, rfl⟩⟩)
    | missingLineEnd hending => exact Or.inr (Or.inr ⟨hending, rfl, rfl⟩)
  · rintro (⟨byte, hle, hlt, hbyte, hbad, rfl⟩ | ⟨hstrict, rfl, ⟨hending, rfl⟩ | ⟨hending, rfl⟩⟩ |
      ⟨hending, rfl, rfl⟩)
    · exact .invalid hle hlt hbyte hbad.1 hbad.2
    · exact .bareLineFeed hstrict hending
    · exact .bareCarriageReturn hstrict hending
    · exact .missingLineEnd hending

section

variable {strict started : Bool} {number offset : Nat} {flaw : Nat × Nat × CharacterFlaw}

/-- Objections stand at `offset` or behind it, each behind the one before. -/
structure Ascends (offset : Nat) (flaws : List (Nat × Nat × CharacterFlaw)) : Prop where
  le : ∀ flaw ∈ flaws, offset ≤ flaw.2.1
  pairwise : flaws.Pairwise fun a b => a.2.1 < b.2.1

theorem Ascends.mono {offset' : Nat} {flaws : List (Nat × Nat × CharacterFlaw)}
    (h : Ascends offset flaws) (hle : offset' ≤ offset) : Ascends offset' flaws :=
  ⟨fun flaw hflaw => Nat.le_trans hle (h.le flaw hflaw), h.pairwise⟩

theorem Ascends.cons {flaws : List (Nat × Nat × CharacterFlaw)} (h : Ascends (offset + 1) flaws)
    (found : CharacterFlaw) : Ascends offset ((number, offset, found) :: flaws) :=
  ⟨List.forall_mem_cons.2 ⟨Nat.le_refl _, (h.mono (Nat.le_succ _)).le⟩,
    List.pairwise_cons.2 ⟨h.le, h.pairwise⟩⟩

theorem ascends_characterFlaws (strict : Bool) (number offset : Nat) (started : Bool)
    (bytes : List UInt8) : Ascends offset (characterFlaws strict number offset started bytes) := by
  fun_induction characterFlaws strict number offset started bytes with
  | case1 number offset => exact .cons ⟨by simp, .nil⟩ _
  | case2 => exact ⟨by simp, .nil⟩
  | case3 number offset started rest ih => exact ih.mono (Nat.le_add_right _ _)
  -- A line end that is objected to, and one that is not.
  | case4 | case6 => exact Ascends.cons ‹_› _
  | case5 | case7 => exact Ascends.mono ‹_› (Nat.le_succ _)
  -- A character that may stand in a line, and one that may not.
  | case8 => exact Ascends.mono ‹_› (Nat.le_succ _)
  | case9 => exact Ascends.cons ‹_› _

theorem characterFlaws_cr {bytes : List UInt8} (h : bytes.head? ≠ some 10) (strict : Bool)
    (number offset : Nat) (started : Bool) :
    characterFlaws strict number offset started (13 :: bytes) =
      (if strict then [(number, offset, .bareCarriageReturn)] else []) ++
        characterFlaws strict (number + 1) (offset + 1) false bytes := by
  cases bytes with
  | nil => cases strict <;> simp [characterFlaws]
  | cons byte bytes =>
    have hbyte : byte ≠ 10 := by simpa using h
    cases strict <;> simp [characterFlaws, hbyte]

/-- The objections to text, and to what follows it. -/
theorem mem_characterFlaws_text {text rest : List UInt8} (htext : ∀ byte ∈ text, IsText byte) :
    flaw ∈ characterFlaws strict number offset started (text ++ rest) ↔
      (∃ (k : Nat) (byte : UInt8), text[k]? = some byte ∧ isGrammarCharacter byte = false ∧
        flaw = (number, offset + k, .invalid byte)) ∨
      flaw ∈ characterFlaws strict number (offset + text.length) (started || !text.isEmpty)
        rest := by
  induction text generalizing offset started with
  | nil => simp
  | cons byte text ih =>
    obtain ⟨⟨hlf, hcr⟩, htext⟩ := List.forall_mem_cons.1 htext
    have hrest := @ih true (offset + 1) htext
    have hstep : characterFlaws strict number offset started (byte :: (text ++ rest)) =
        if isGrammarCharacter byte then
          characterFlaws strict number (offset + 1) true (text ++ rest)
        else
          (number, offset, .invalid byte) ::
            characterFlaws strict number (offset + 1) true (text ++ rest) := by
      simp [characterFlaws, hlf, hcr]
    rw [List.cons_append, hstep, ← Nat.or_exists_add_one]
    cases hbyte : isGrammarCharacter byte with
    | true => simpa [hbyte, Nat.add_assoc, Nat.add_comm 1] using hrest
    | false => simp [hbyte, hrest, Nat.add_assoc, Nat.add_comm 1, or_assoc]

theorem exists_invalid_iff {whole : Array UInt8} {text rest : List UInt8} {start n : Nat}
    {found : CharacterFlaw} (hwhole : ∀ k : Nat, whole[start + k]? = (text ++ rest)[k]?) :
    (∃ (k : Nat) (byte : UInt8), text[k]? = some byte ∧ isGrammarCharacter byte = false ∧
        (n, offset, found) = (number, start + k, .invalid byte)) ↔
      number = n ∧ ∃ byte, start ≤ offset ∧ offset < start + text.length ∧
        whole[offset]? = some byte ∧ isGrammarCharacter byte = false ∧ found = .invalid byte := by
  constructor
  · rintro ⟨k, byte, hbyte, hbad, heq⟩
    obtain ⟨hk, -⟩ := List.getElem?_eq_some_iff.1 hbyte
    cases heq
    refine ⟨rfl, byte, Nat.le_add_right _ _, by omega, ?_, hbad, rfl⟩
    rw [hwhole, List.getElem?_append_left hk, hbyte]
  · rintro ⟨rfl, byte, hle, hlt, hbyte, hbad, rfl⟩
    obtain ⟨k, rfl⟩ := Nat.exists_eq_add_of_le hle
    refine ⟨k, byte, ?_, hbad, rfl⟩
    rwa [hwhole, List.getElem?_append_left (by omega)] at hbyte

/-- The objections to a line end, and to the lines that follow it. -/
theorem mem_characterFlaws_ending {ending : LineEnd} {rest : List UInt8}
    (hne : ending ≠ .missing) (hcr : ending = .cr → rest.head? ≠ some 10) :
    flaw ∈ characterFlaws strict number offset started (ending.bytes ++ rest) ↔
      strict = true ∧ (ending = .lf ∧ flaw = (number, offset, .bareLineFeed) ∨
        ending = .cr ∧ flaw = (number, offset, .bareCarriageReturn)) ∨
      flaw ∈ characterFlaws strict (number + 1) (offset + ending.length) false rest := by
  cases ending with
  | crlf => simp [LineEnd.bytes, LineEnd.length, characterFlaws]
  | lf => cases strict <;> simp [LineEnd.bytes, LineEnd.length, characterFlaws]
  | cr => cases strict <;> simp [LineEnd.bytes, LineEnd.length, characterFlaws_cr (hcr rfl)]
  | missing => exact absurd rfl hne

/-- The objections to bytes are those to their lines. -/
theorem Splits.mem_characterFlaws_iff {start : Nat} {bytes : List UInt8} {lines : List Line}
    {whole : Array UInt8} (h : Splits number start bytes lines)
    (hwhole : ∀ k : Nat, whole[start + k]? = bytes[k]?) {found : CharacterFlaw} {n : Nat} :
    (n, offset, found) ∈ characterFlaws strict number start false bytes ↔
      ∃ line ∈ lines, line.number = n ∧ line.Objects whole strict offset found := by
  have hdescribes := h.describes hwhole
  induction h with
  | done => simp [characterFlaws]
  | @last number start text htext hne =>
    have hsize : start + text.length = whole.size :=
      (hdescribes _ (List.mem_singleton_self _)).ending.1
    have hplain : ∀ k : Nat, whole[start + k]? = (text ++ [])[k]? := by simpa using hwhole
    have hlast : characterFlaws strict number (start + text.length) (false || !text.isEmpty) [] =
        [(number, start + text.length, .missingLineEnd)] := by
      simp [characterFlaws, hne]
    rw [← List.append_nil text, mem_characterFlaws_text htext, hlast,
      exists_invalid_iff hplain, List.append_nil]
    simp only [List.mem_singleton, exists_eq_left, Line.objects_iff, Prod.mk.injEq, ← hsize,
      reduceCtorEq, false_and, or_self, and_false, false_or, true_and, eq_comm (a := n),
      ← and_or_left]
  | @line number start text rest ending lines htext hne hcr _ ih =>
    have hlines : (n, offset, found) ∈ characterFlaws strict (number + 1)
        (start + (text.length + ending.length)) false rest ↔
          ∃ line ∈ lines, line.number = n ∧ line.Objects whole strict offset found :=
      ih (Splits.getElem?_rest hwhole) fun line hline =>
        hdescribes line (List.mem_cons_of_mem _ hline)
    rw [mem_characterFlaws_text htext, mem_characterFlaws_ending hne hcr, exists_invalid_iff hwhole,
      List.exists_mem_cons_iff, Nat.add_assoc start, hlines]
    simp only [Line.objects_iff, Prod.mk.injEq, hne, false_and, or_false]
    grind

end

/-! ## Sources -/

namespace Source

/-- The lines of a source have consecutive numbers, begin at byte 0, follow on each other and cover
all bytes. The bytes of a line are what its entry says, and only the last line may go without a line
end. -/
structure Partitions (source : Source) : Prop where
  numbered : ∀ (k : Nat) line, source.lines[k]? = some line → line.number = k
  first : ∀ line, source.lines[0]? = some line → line.start = 0
  next : ∀ (k : Nat) line next, source.lines[k]? = some line →
    source.lines[k + 1]? = some next → next.start = line.start + line.length
  covers : (source.lines.toList.map Line.length).sum = source.bytes.size
  describes : ∀ line ∈ source.lines, line.Describes source.bytes
  last : ∀ (k : Nat) line, source.lines[k]? = some line → line.ending = .missing →
    k + 1 = source.lines.size

/-- Every byte is on one line, which is found from its offset. Behind the bytes, the last line is
found. -/
structure Locates (source : Source) : Prop where
  holds : ∀ offset < source.bytes.size,
    ∃ line, source.lines[source.findLine offset]? = some line ∧ line.Holds offset
  unique : ∀ (k offset : Nat) line, source.lines[k]? = some line → line.Holds offset →
    k = source.findLine offset
  behind : ∀ offset, source.bytes.size ≤ offset → source.findLine offset = source.lines.size - 1

theorem splits (bytes : Array UInt8) : Splits 0 0 bytes.toList (ofBytes bytes).lines.toList := by
  have h : Splits 0 0 ([] ++ bytes.toList) (Line.catalog 0 0 0 bytes.toList) :=
    splits_catalog (List.forall_mem_nil _) rfl
  simpa [ofBytes] using h

theorem partitions (bytes : Array UInt8) : (ofBytes bytes).Partitions := by
  have h := splits bytes
  have hwhole : ∀ k : Nat, bytes[0 + k]? = bytes.toList[k]? := by simp
  refine ⟨fun k line hline => ?_, fun line hline => ?_, fun k line next hline hnext => ?_,
    by simpa [ofBytes] using h.sum_length, fun line hline => ?_, fun k line hline hending => ?_⟩
  · rw [← Array.getElem?_toList] at hline
    simpa using h.number_eq hline
  · rw [← Array.getElem?_toList, ← List.head?_eq_getElem?] at hline
    exact h.start_eq hline
  · obtain ⟨hk, rfl⟩ := Array.getElem?_eq_some_iff.1 hline
    obtain ⟨hk', rfl⟩ := Array.getElem?_eq_some_iff.1 hnext
    exact List.isChain_iff_getElem.1 h.isChain k hk'
  · exact h.describes hwhole line (Array.mem_toList_iff.2 hline)
  · rw [← Array.getElem?_toList] at hline
    simpa using h.eq_last hline hending

theorem locates (bytes : Array UInt8) : (ofBytes bytes).Locates := by
  have h := splits bytes
  have hfind : ∀ offset, (ofBytes bytes).findLine offset =
      (ofBytes bytes).lines.toList.findIdx (fun line => decide (offset < line.start)) - 1 := by
    intro offset
    simp [findLine, ofBytes]
  have hunique : ∀ (k offset : Nat) line, (ofBytes bytes).lines[k]? = some line →
      line.Holds offset → k = (ofBytes bytes).findLine offset := by
    intro k offset line hline hholds
    rw [← Array.getElem?_toList] at hline
    rw [hfind, h.findIdx_of_holds hline hholds, Nat.add_sub_cancel]
  refine ⟨fun offset hlt => ?_, hunique, fun offset hle => ?_⟩
  · obtain ⟨k, line, hline, hholds⟩ :=
      h.exists_holds (Nat.zero_le offset) (by simpa [ofBytes] using hlt)
    rw [Array.getElem?_toList] at hline
    exact ⟨line, hunique k offset line hline hholds ▸ hline, hholds⟩
  · rw [hfind, h.findIdx_of_le (by simpa [ofBytes] using hle), Array.length_toList]

/-- The catalog of any bytes is exact. The lines partition the bytes, the line of every byte is
found, and the objections of the character check are those to the lines, in order of offset. -/
theorem catalog_exact (bytes : Array UInt8) (strict : Bool) :
    (ofBytes bytes).bytes = bytes ∧ (ofBytes bytes).Partitions ∧ (ofBytes bytes).Locates ∧
      ((ofBytes bytes).characterDiagnostics strict).Pairwise (fun d e => d.offset < e.offset) ∧
      ∀ d, d ∈ (ofBytes bytes).characterDiagnostics strict ↔
        ∃ line ∈ (ofBytes bytes).lines, ∃ flaw, line.Objects bytes strict d.offset flaw ∧
          d = ⟨line.number, d.offset, flaw.message⟩ := by
  refine ⟨rfl, partitions bytes, locates bytes, ?_, fun d => ?_⟩
  · rw [characterDiagnostics, List.pairwise_map]
    exact (ascends_characterFlaws strict 0 0 false bytes.toList).pairwise
  · have hwhole : ∀ k : Nat, bytes[0 + k]? = bytes.toList[k]? := by simp
    have hmem : ∀ n offset found,
        (n, offset, found) ∈ characterFlaws strict 0 0 false bytes.toList ↔
          ∃ line ∈ (ofBytes bytes).lines, line.number = n ∧ line.Objects bytes strict offset found :=
      fun n offset found => by simpa using (splits bytes).mem_characterFlaws_iff hwhole
    simp only [characterDiagnostics, List.mem_map, Prod.exists]
    constructor
    · rintro ⟨n, offset, found, hfound, rfl⟩
      obtain ⟨line, hline, rfl, hobjects⟩ := (hmem n offset found).1 hfound
      exact ⟨line, hline, found, hobjects, rfl⟩
    · rintro ⟨line, hline, found, hobjects, hd⟩
      exact ⟨line.number, d.offset, found, (hmem _ _ _).2 ⟨line, hline, rfl, hobjects⟩, hd.symm⟩

/-- An empty line, and a carriage return and a line feed that do not make one line end. -/
example : (ofBytes #[97, 13, 10, 10, 98, 13]).lines =
    #[⟨0, 0, 1, .crlf⟩, ⟨1, 3, 0, .lf⟩, ⟨2, 4, 1, .cr⟩] := by decide

end Source

end Abnf
