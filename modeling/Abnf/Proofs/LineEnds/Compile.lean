import Abnf.Proofs.Canonical.Text
import Abnf.Proofs.LineEnds.Reading

/-!
# Line ends make no difference

A text compiles alike whichever line ends it has: to the same rules, user-defined terminals and
analysis, or with the same objections, on the same lines and where their bytes have gone.

* `ofString_inText`: a text with other line ends has the converted bytes.
* `compileText_inText`: compiling takes the same course whichever line ends a text has.
* `compile_lineEnds`: what CRLF and CR change of what compiling a text with line feeds gives.
-/

namespace Abnf

open Metagrammar

/-! ## Texts -/

/-- An ASCII byte is the whole of a character. -/
theorem toNat_of_mem_utf8EncodeChar {c : Char} {byte : UInt8}
    (h : byte ∈ String.utf8EncodeChar c) (hascii : byte.toNat < 128) : byte.toNat = c.toNat := by
  have hval : c.val.toNat = c.toNat := rfl
  simp only [String.utf8EncodeChar, hval] at h
  split at h
  · rw [List.mem_singleton] at h
    rw [h, UInt8.toNat_ofNat', Nat.mod_eq_of_lt (by omega)]
  -- The bytes of all other characters have their highest bit set.
  · exfalso
    split at h
    · simp only [List.mem_cons, List.not_mem_nil, or_false] at h
      rcases h with rfl | rfl <;> rw [UInt8.toNat_ofNat'] at hascii <;> omega
    split at h
    · simp only [List.mem_cons, List.not_mem_nil, or_false] at h
      rcases h with rfl | rfl | rfl <;> rw [UInt8.toNat_ofNat'] at hascii <;> omega
    · simp only [List.mem_cons, List.not_mem_nil, or_false] at h
      rcases h with rfl | rfl | rfl | rfl <;> rw [UInt8.toNat_ofNat'] at hascii <;> omega

theorem not_mem_utf8EncodeChar {c d : Char} (hascii : d.toNat < 128) (h : c ≠ d) :
    UInt8.ofNat d.toNat ∉ String.utf8EncodeChar c := by
  intro hmem
  have hbyte : (UInt8.ofNat d.toNat).toNat = d.toNat := by
    rw [UInt8.toNat_ofNat', Nat.mod_eq_of_lt (by omega)]
  have heq := toNat_of_mem_utf8EncodeChar hmem (by omega)
  exact h (Char.toNat_inj.1 (heq.symm.trans hbyte))

namespace Ending

/-- The characters of a line end. -/
def characters : Ending → List Char
  | crlf => ['\r', '\n']
  | cr => ['\r']

variable (ending : Ending)

/-- The text in which another line end stands in the place of every line feed. -/
def inText (text : String) : String :=
  .ofList (text.toList.flatMap fun c => if c = '\n' then ending.characters else [c])

/-- The bytes of a character are converted to the bytes of what stands in its place. -/
theorem convert_utf8EncodeChar (c : Char) :
    ending.convert (String.utf8EncodeChar c) =
      (if c = '\n' then ending.characters else [c]).flatMap String.utf8EncodeChar := by
  split
  · rename_i hc
    subst hc
    cases ending <;> rfl
  · rename_i hc
    have hfeed : 10 ∉ String.utf8EncodeChar c := not_mem_utf8EncodeChar (by decide) hc
    rw [convert_of_not_mem ending hfeed, List.flatMap_singleton]

/-- A text with other line ends has the converted bytes. -/
theorem ofString_inText (text : String) :
    Source.ofString (ending.inText text) = ending.source text.toUTF8.data := by
  have hbytes : (ending.inText text).toUTF8.data.toList =
      ending.convert text.toUTF8.data.toList := by
    rw [Canonical.toList_toUTF8, Canonical.toList_toUTF8, inText, String.toList_ofList, convert,
      List.flatMap_assoc, List.flatMap_assoc]
    exact List.flatMap_congr fun c _ => (ending.convert_utf8EncodeChar c).symm
  rw [source, ← hbytes]
  rfl

theorem not_mem_toUTF8 {text : String} (htext : '\r' ∉ text.toList) : 13 ∉ text.toUTF8.data := by
  rw [Array.mem_def, Canonical.toList_toUTF8, List.mem_flatMap]
  rintro ⟨c, hc, hmem⟩
  by_cases hcr : c = '\r'
  · exact htext (hcr ▸ hc)
  · exact not_mem_utf8EncodeChar (d := '\r') (by decide) hcr hmem

end Ending

/-! ## Objections -/

/-- Objections to a text, where its bytes have gone. Faulty rules have no place. -/
def CompileError.move (place : Nat → Nat) : CompileError → CompileError
  | characters ds => characters (ds.map (Diagnostic.move place))
  | form ds => form (ds.map (Diagnostic.move place))
  | meaning ds => meaning (ds.map (Diagnostic.move place))
  | rules faulty => rules faulty

/-- What compiling gives for `text`, from what it gives for another text, whose bytes have gone to
their places in `text`. -/
def relocate (text : String) (place : Nat → Nat) :
    Except CompileError Grammar → Except CompileError Grammar
  | .error error => .error (error.move place)
  | .ok grammar => .ok { grammar with source := text }

/-! ## Compiling -/

/-- Compiling gives the same for two texts, up to the places of their bytes, if every stage does. -/
theorem compileText_relocate {strict : Bool} {text text' : String} {place : Nat → Nat}
    {recognition found : Recognition}
    (hcharacters : (Source.ofString text').characterDiagnostics strict =
      ((Source.ofString text).characterDiagnostics strict).map (Diagnostic.move place))
    (hrecognize : recognize (.ofString text) strict = .ok recognition)
    (hfound : recognize (.ofString text') strict = .ok found)
    (hform : found.diagnostics (.ofString text') =
      (recognition.diagnostics (.ofString text)).map (Diagnostic.move place))
    (hmeaning : recognition.flaws = [] →
      ∃ flaws, Tables.ofRecognition (.ofString text') found =
          { Tables.ofRecognition (.ofString text) recognition with flaws := flaws } ∧
        (Tables.ofRecognition (.ofString text') found).diagnostics (.ofString text') =
          ((Tables.ofRecognition (.ofString text) recognition).diagnostics (.ofString text)).map
            (Diagnostic.move place))
    {outcome : Except CompileError Grammar} (h : compileText strict text = .ok outcome) :
    compileText strict text' = .ok (relocate text' place outcome) := by
  simp only [compileText, hrecognize, bind, Except.bind] at h
  simp only [compileText, hfound, bind, Except.bind, hcharacters, hform, List.isEmpty_map]
  split at h
  · rename_i hrejected
    cases h
    rw [if_pos hrejected]
    rfl
  rename_i haccepted
  rw [if_neg haccepted]
  split at h
  · rename_i hmisshapen
    cases h
    rw [if_pos hmisshapen]
    rfl
  rename_i hshaped
  rw [if_neg hshaped]
  have hflawless : recognition.flaws = [] := by simpa [Recognition.diagnostics] using hshaped
  obtain ⟨flaws, htables, hdiagnostics⟩ := hmeaning hflawless
  rw [hdiagnostics, List.isEmpty_map, htables]
  split at h
  · rename_i hmeaningless
    cases h
    rw [if_pos hmeaningless]
    rfl
  rename_i hmeant
  rw [if_neg hmeant]
  -- The later stages see nothing but the tables.
  cases hreduce : Reduction.reduce (Tables.ofRecognition (.ofString text) recognition).rules with
  | error fault => simp only [hreduce] at h; cases h
  | ok rules =>
    cases hanalyze : Analysis.analyze rules with
    | error fault => simp only [hreduce, hanalyze] at h; cases h
    | ok analysis =>
      simp only [hreduce, hanalyze] at h ⊢
      split at h
      · rename_i hfaulty
        cases h
        rw [if_pos hfaulty]
        rfl
      · rename_i hfaultless
        cases h
        rw [if_neg hfaultless]
        rfl

/-- Compiling takes the same course whichever line ends a text has. -/
theorem compileText_inText (ending : Ending) {text : String} (htext : '\r' ∉ text.toList)
    {outcome : Except CompileError Grammar} (h : compileText false text = .ok outcome) :
    compileText false (ending.inText text) = .ok (relocate (ending.inText text)
      (ending.shift text.toUTF8.data.toList) outcome) := by
  have hbytes := Ending.not_mem_toUTF8 htext
  have hsource := ending.ofString_inText text
  obtain ⟨recognition, hrecognize⟩ := exists_recognition (.ofString text) false
  obtain ⟨found, hfound, hflaws, hforest⟩ := recognize_convert ending hbytes hrecognize
  rw [← hsource] at hfound
  refine compileText_relocate ?_ hrecognize hfound ?_ (fun hflawless => ?_) h
  · rw [hsource]
    exact ending.characterDiagnostics_convert hbytes
  · rw [hsource, Recognition.diagnostics, hflaws]
    exact ending.diagnostics_convert hbytes Flaw.message recognition.flaws
  · have hnone : found.flaws = [] := by rw [hflaws, hflawless, List.map_nil]
    have htables := ofRecognition_convert ending hrecognize hflawless hnone hforest
    rw [hsource]
    refine ⟨_, htables, ?_⟩
    rw [htables]
    exact ending.diagnostics_convert hbytes MeaningFlaw.message _

/-- A text without carriage returns compiles alike when CRLF or CR stands in the place of every line
feed. Objections stay on their lines. CRLF puts them as many bytes further on as there are line
feeds before them, and CR leaves them where they are. -/
theorem compile_lineEnds (text : String) (htext : '\r' ∉ text.toList) :
    ∃ outcome, compile false [text] = .ok outcome ∧
      compile false [Ending.crlf.inText text] = .ok (relocate (Ending.crlf.inText text)
        (fun offset => offset + (text.toUTF8.data.toList.take offset).count 10) outcome) ∧
      compile false [Ending.cr.inText text] =
        .ok (relocate (Ending.cr.inText text) id outcome) := by
  obtain ⟨outcome, houtcome, -⟩ := compileText_spec false text
  have hcrlf : Ending.crlf.shift text.toUTF8.data.toList =
      fun offset => offset + (text.toUTF8.data.toList.take offset).count 10 := by
    funext offset
    rw [Ending.shift, Ending.extra, Nat.one_mul]
  have hcr : Ending.cr.shift text.toUTF8.data.toList = id := by
    funext offset
    rw [Ending.shift, Ending.extra, Nat.zero_mul, Nat.add_zero, id]
  simp only [compile_singleton]
  refine ⟨outcome, houtcome, ?_, ?_⟩
  · rw [← hcrlf]
    exact compileText_inText .crlf htext houtcome
  · rw [← hcr]
    exact compileText_inText .cr htext houtcome

/-- A name on the second line that is not defined. With CRLF it stands one byte further on. -/
theorem compile_lineEnds_undefined :
    '\r' ∉ "\na=b\n".toList ∧
      compile false ["\na=b\n"] =
        .ok (.error (.meaning [⟨1, 3, "Rule name 'b' used but not defined."⟩])) ∧
      compile false ["\r\na=b\r\n"] =
        .ok (.error (.meaning [⟨1, 4, "Rule name 'b' used but not defined."⟩])) ∧
      compile false ["\ra=b\r"] =
        .ok (.error (.meaning [⟨1, 3, "Rule name 'b' used but not defined."⟩])) := by
  have htext : '\r' ∉ "\na=b\n".toList := by decide
  have h : compile false ["\na=b\n"] =
      .ok (.error (.meaning [⟨1, 3, "Rule name 'b' used but not defined."⟩])) := by
    decide +kernel
  obtain ⟨outcome, houtcome, hcrlf, hcr⟩ := compile_lineEnds "\na=b\n" htext
  cases houtcome.symm.trans h
  exact ⟨htext, h, hcrlf, hcr⟩

end Abnf
