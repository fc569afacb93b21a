import Abnf.Listing
import Abnf.Proofs.Canonical.Text

/-!
# Tokens of listings

The text of a listing is source code, so it is read as words, marks and literals between double
quotes, with blanks and comments left out. A scanner takes the characters one by one. A literal
ends at the first quote that is not escaped, and a comment at the end of its line, so what is
written in either of them cannot be taken for anything else.

* `feed_append`: scanning goes on with the second part of a text where the first part leaves off.
* `closed_quoted`: a quoted text is one literal, which says what was quoted.
* `closed_comment`: a comment is no token at all.
* `Spells.append`: texts one behind the other are spelled as their tokens, unless a word goes on.
-/

namespace Abnf.Listing

open Text

/-! ## Scanning -/

/-- What the text of source code consists of. -/
inductive Token where
  /-- A name, a keyword or a number. -/
  | word (chars : List Char)
  /-- What a literal between double quotes says. -/
  | literal (chars : List Char)
  /-- A character that stands for itself. -/
  | mark (c : Char)
  deriving DecidableEq

/-- Where a scanner is: what has been read of the token that it is in. -/
inductive Mode where
  | blank
  | word (chars : List Char)
  /-- Behind one slash. -/
  | slash
  | comment
  | literal (chars : List Char)
  /-- Behind a backslash in a literal. -/
  | escape (chars : List Char)
  /-- In the two digits of a code below 128. -/
  | byte (chars digits : List Char)
  /-- Before the bracket in front of a code point. -/
  | opening (chars : List Char)
  /-- In the digits of a code point. -/
  | code (chars digits : List Char)
  /-- In the blanks behind a line end that is escaped. -/
  | margin (chars : List Char)
  deriving DecidableEq

/-- Whether a character can be part of a word. -/
def isWordCharacter (c : Char) : Bool :=
  c.isAlphanum || c == '_'

/-- Whether a character stands for itself. -/
def isMark (c : Char) : Bool :=
  [':', ';', ',', '!', '&', '<', '>', '=', '-', '(', ')', '[', ']', '\x7b', '\x7d'].contains c

/-- Whether a character only keeps tokens apart. -/
def isBlank (c : Char) : Bool :=
  [' ', '\t', '\n', '\r'].contains c

/-- Whether a character is a hexadecimal digit. -/
def isHexDigit (c : Char) : Bool :=
  c.isDigit || ('a' ≤ c && c ≤ 'f') || ('A' ≤ c && c ≤ 'F')

/-- The characters that are escaped by one letter. -/
def escaped? : Char → Option Char
  | '"' => some '"'
  | '\'' => some '\''
  | '\\' => some '\\'
  | 't' => some '\t'
  | 'n' => some '\n'
  | 'r' => some '\r'
  | '0' => some '\x00'
  | _ => none

/-- The character with a code point, if there is one. -/
def ofCode? (n : Nat) : Option Char :=
  if n.isValidChar then some (Char.ofNat n) else none

namespace Mode

/-- What a character begins when no token is open. -/
def begin (c : Char) : Option (List Token × Mode) :=
  if isBlank c then some ([], blank)
  else if isWordCharacter c then some ([], word [c])
  else if c = '"' then some ([], literal [])
  else if c = '/' then some ([], slash)
  else if isMark c then some ([.mark c], blank)
  else none

/-- What a character adds to a literal. -/
def extend (chars : List Char) (c : Char) : Option (List Token × Mode) :=
  if c = '"' then some ([.literal chars], blank)
  else if c = '\\' then some ([], escape chars)
  else if c = '\r' then none
  else some ([], literal (chars ++ [c]))

/-- The tokens that a character completes, and the mode behind it. -/
def next : Mode → Char → Option (List Token × Mode)
  | blank, c => begin c
  | word chars, c =>
    if isWordCharacter c then some ([], word (chars ++ [c]))
    else (begin c).map fun (tokens, mode) => (.word chars :: tokens, mode)
  | slash, c => if c = '/' then some ([], comment) else none
  | comment, c => some ([], if c = '\n' then blank else comment)
  | literal chars, c => extend chars c
  | escape chars, c =>
    match escaped? c with
    | some d => some ([], literal (chars ++ [d]))
    | none =>
      if c = 'x' then some ([], byte chars [])
      else if c = 'u' then some ([], opening chars)
      else if c = '\n' then some ([], margin chars)
      else none
  | byte chars digits, c =>
    if !isHexDigit c then none
    else if digits.isEmpty then some ([], byte chars [c])
    else
      let n := valueOfDigits 16 (digits ++ [c])
      if n < 128 then (ofCode? n).map fun d => ([], literal (chars ++ [d])) else none
  | opening chars, c => if c = '\x7b' then some ([], code chars []) else none
  | code chars digits, c =>
    if c = '\x7d' then
      if digits.isEmpty || 6 < digits.length then none
      else (ofCode? (valueOfDigits 16 digits)).map fun d => ([], literal (chars ++ [d]))
    else if isHexDigit c then some ([], code chars (digits ++ [c]))
    else none
  | margin chars, c => if isBlank c then some ([], margin chars) else extend chars c

end Mode

/-- The tokens that a text completes from a mode on, and the mode behind it. -/
def feed : Mode → List Char → Option (List Token × Mode)
  | mode, [] => some ([], mode)
  | mode, c :: text => do
    let (tokens, mode) ← mode.next c
    let (more, mode) ← feed mode text
    return (tokens ++ more, mode)

/-- The tokens of a text; nothing if it is no source code. -/
def tokens? (text : String) : Option (List Token) := do
  let (tokens, mode) ← feed .blank text.toList
  match mode with
  | .blank | .comment => return tokens
  | .word chars => return tokens ++ [.word chars]
  | _ => none

/-! ## Parts of texts -/

variable {mode mode' : Mode} {text text' : List Char} {tokens tokens' : List Token}

theorem feed_cons (c : Char) (text : List Char) :
    feed mode (c :: text) = (mode.next c).bind fun found =>
      (feed found.2 text).map fun more => (found.1 ++ more.1, more.2) := by
  rw [feed]
  cases mode.next c with
  | none => rfl
  | some found => cases hfeed : feed found.2 text <;> simp [hfeed]

/-- Scanning goes on with the second part of a text where the first part leaves off. -/
theorem feed_append (h : feed mode text = some (tokens, mode')) (more : List Char) :
    feed mode (text ++ more) =
      (feed mode' more).map fun found => (tokens ++ found.1, found.2) := by
  induction text generalizing mode tokens with
  | nil =>
    cases h
    simp
  | cons c text ih =>
    rw [feed_cons] at h
    obtain ⟨first, hfirst, h⟩ := Option.bind_eq_some_iff.1 h
    obtain ⟨rest, hrest, h⟩ := Option.map_eq_some_iff.1 h
    cases h
    rw [List.cons_append, feed_cons, hfirst, Option.bind_some, ih hrest]
    simp only [Option.map_map, Function.comp_def, List.append_assoc]

theorem feed_trans {mode'' : Mode} (h : feed mode text = some (tokens, mode'))
    (h' : feed mode' text' = some (tokens', mode'')) :
    feed mode (text ++ text') = some (tokens ++ tokens', mode'') := by
  rw [feed_append h, h', Option.map_some]

/-- A text that has these tokens and leaves none of them open. -/
def Closed (text : List Char) (tokens : List Token) : Prop :=
  feed .blank text = some (tokens, .blank)

instance : Decidable (Closed text tokens) :=
  inferInstanceAs (Decidable (_ = _))

namespace Closed

theorem nil : Closed [] [] :=
  rfl

theorem append (h : Closed text tokens) (h' : Closed text' tokens') :
    Closed (text ++ text') (tokens ++ tokens') :=
  feed_trans h h'

end Closed

/-! ## Comments -/

theorem feed_comment (h : '\n' ∉ text) : feed .comment text = some ([], .comment) := by
  induction text with
  | nil => rfl
  | cons c text ih =>
    rw [List.mem_cons, not_or] at h
    rw [feed_cons, Mode.next, if_neg (Ne.symm h.1), Option.bind_some, ih h.2]
    rfl

/-- A comment ends with its line, and is no token at all. -/
theorem closed_comment (h : '\n' ∉ text) : Closed ('/' :: '/' :: (text ++ ['\n'])) [] :=
  have hopening : feed .blank ['/', '/'] = some ([], .comment) := by decide
  feed_trans hopening (feed_trans (feed_comment h) rfl)

/-! ## Literals -/

theorem isHexDigit_digitChar {n : Nat} (h : n < 16) : isHexDigit n.digitChar = true := by
  revert n
  decide

theorem isHexDigit_of_mem_hexadecimal {n : Nat} {c : Char} (h : c ∈ hexadecimal n) :
    isHexDigit c = true := by
  induction n using Nat.strongRecOn with
  | ind n ih =>
    rw [hexadecimal, Nat.toDigits_eq_if (by decide)] at h
    split at h
    · rename_i hlt
      rw [List.mem_singleton.1 h]
      exact isHexDigit_digitChar hlt
    · rename_i hge
      rcases List.mem_append.1 h with h | h
      · exact ih (n / 16) (by omega) h
      · rw [List.mem_singleton.1 h]
        exact isHexDigit_digitChar (Nat.mod_lt _ (by decide))

theorem feed_code {chars digits more : List Char} (h : ∀ c ∈ more, isHexDigit c = true) :
    feed (.code chars digits) more = some ([], .code chars (digits ++ more)) := by
  induction more generalizing digits with
  | nil => rw [List.append_nil]; rfl
  | cons c more ih =>
    obtain ⟨hc, hmore⟩ := List.forall_mem_cons.1 h
    have hne : c ≠ '\x7d' := by
      rintro rfl
      exact absurd hc (by decide)
    rw [feed_cons, Mode.next, if_neg hne, if_pos hc, Option.bind_some, ih hmore]
    simp

/-- A character that is escaped by its code point is read as this character. -/
theorem feed_hexadecimal (chars : List Char) (c : Char) :
    feed (.literal chars) (['\\', 'u', '\x7b'] ++ hexadecimal c.toNat ++ ['\x7d']) =
      some ([], .literal (chars ++ [c])) := by
  have hdigits : feed (.code chars []) (hexadecimal c.toNat) =
      some ([], .code chars (hexadecimal c.toNat)) :=
    feed_code fun _ => isHexDigit_of_mem_hexadecimal
  have hnonempty : (hexadecimal c.toNat).isEmpty = false := by
    simp [hexadecimal, Nat.toDigits_ne_nil]
  have hlength : ¬ 6 < (hexadecimal c.toNat).length := by
    have hlt : c.toNat < 16 ^ 6 := by
      have hvalid := c.valid
      simp only [UInt32.isValidChar, Nat.isValidChar] at hvalid
      have hval : c.val.toNat = c.toNat := rfl
      omega
    rw [hexadecimal, Nat.not_lt]
    exact (Nat.length_toDigits_le_iff (by decide) (by decide)).2 hlt
  have hcode : ofCode? (valueOfDigits 16 (hexadecimal c.toNat)) = some c := by
    rw [hexadecimal, Canonical.valueOfDigits_toDigits (by decide) (by decide), ofCode?,
      Char.ofNat_toNat]
    exact if_pos c.valid
  have hclosing : feed (.code chars (hexadecimal c.toNat)) ['\x7d'] =
      some ([], .literal (chars ++ [c])) := by
    simp [Mode.next, hnonempty, hlength, hcode, feed]
  have hopening : feed (.literal chars) ['\\', 'u', '\x7b'] = some ([], .code chars []) := rfl
  exact feed_trans (feed_trans hopening hdigits) hclosing

/-- A character is read as it was quoted. -/
theorem feed_quoteChar (chars : List Char) (c : Char) :
    feed (.literal chars) (quoteChar c) = some ([], .literal (chars ++ [c])) := by
  unfold quoteChar
  split
  · rename_i h
    rcases h with rfl | rfl <;> rfl
  split
  · rename_i h
    cases h
    rfl
  split
  · rename_i h
    cases h
    rfl
  split
  · rename_i h
    cases h
    rfl
  split
  · rename_i h
    obtain rfl : c = '\x00' := Char.toNat_inj.1 h
    rfl
  split
  · rename_i hquote _ _ hreturn _ _
    rw [not_or] at hquote
    simp [Mode.next, Mode.extend, hquote, hreturn, feed]
  · exact feed_hexadecimal chars c

theorem feed_flatMap_quoteChar (chars text : List Char) :
    feed (.literal chars) (text.flatMap quoteChar) = some ([], .literal (chars ++ text)) := by
  induction text generalizing chars with
  | nil => simp [feed]
  | cons c text ih =>
    have h := feed_trans (feed_quoteChar chars c) (ih (chars ++ [c]))
    simpa using h

/-- A quoted text is one literal, which says what was quoted. -/
theorem closed_quoted (text : String) : Closed (quoted text).toList [.literal text.toList] := by
  have hopening : feed .blank ['"'] = some ([], .literal []) := by decide
  have hclosing : feed (.literal text.toList) ['"'] = some ([.literal text.toList], .blank) := by
    simp [Mode.next, Mode.extend, feed]
  rw [quoted, String.toList_ofList]
  exact feed_trans hopening (feed_trans (feed_flatMap_quoteChar [] text.toList) hclosing)

/-! ## Words -/

/-- Whether a text does not go on with a word. -/
def Apart (text : List Char) : Prop :=
  text.head?.any (fun c => !isWordCharacter c) = true

instance : Decidable (Apart text) :=
  inferInstanceAs (Decidable (_ = _))

theorem Apart.append (h : Apart text) (more : List Char) : Apart (text ++ more) := by
  cases text with
  | nil => cases h
  | cons c text => exact h

theorem feed_word {chars more : List Char} (h : ∀ c ∈ more, isWordCharacter c = true) :
    feed (.word chars) more = some ([], .word (chars ++ more)) := by
  induction more generalizing chars with
  | nil => simp [feed]
  | cons c more ih =>
    obtain ⟨hc, hmore⟩ := List.forall_mem_cons.1 h
    rw [feed_cons, Mode.next, if_pos hc, Option.bind_some, ih hmore]
    simp

/-- A word is complete where it does not go on. -/
theorem feed_word_apart (chars : List Char) (h : Apart text) :
    feed (.word chars) text =
      (feed .blank text).map fun found => (.word chars :: found.1, found.2) := by
  cases text with
  | nil => simp [Apart] at h
  | cons c text =>
    have hc : isWordCharacter c = false := by simpa [Apart] using h
    simp only [feed_cons, Mode.next, hc, Bool.false_eq_true, if_false]
    cases Mode.begin c with
    | none => rfl
    | some found => cases hfeed : feed found.2 text <;> simp [hfeed]

/-- A text that has these tokens, the last of which may be a word that could go on. -/
def Spells (text : List Char) (tokens : List Token) : Prop :=
  Closed text tokens ∨ ∃ before chars, tokens = before ++ [.word chars] ∧
    feed .blank text = some (before, .word chars)

theorem Spells.tokens?_eq {text : String} (h : Spells text.toList tokens) :
    tokens? text = some tokens := by
  rcases h with h | ⟨before, chars, rfl, h⟩
  · rw [Closed] at h
    simp [tokens?, h]
  · simp [tokens?, h]

theorem Closed.spells (h : Closed text tokens) : Spells text tokens :=
  Or.inl h

theorem spells_word {chars : List Char} (hne : chars ≠ [])
    (h : ∀ c ∈ chars, isWordCharacter c = true) : Spells chars [.word chars] := by
  cases chars with
  | nil => exact absurd rfl hne
  | cons c chars =>
    obtain ⟨hc, hchars⟩ := List.forall_mem_cons.1 h
    have hblank : isBlank c = false := by
      cases hblank : isBlank c with
      | false => rfl
      | true =>
        simp only [isBlank, List.contains_eq_mem, decide_eq_true_eq, List.mem_cons,
          List.not_mem_nil, or_false] at hblank
        rcases hblank with rfl | rfl | rfl | rfl <;> exact absurd hc (by decide)
    refine Or.inr ⟨[], c :: chars, rfl, ?_⟩
    rw [feed_cons, Mode.next, Mode.begin, hblank, if_neg Bool.false_ne_true, if_pos hc,
      Option.bind_some, feed_word hchars]
    rfl

/-- Texts one behind the other have their tokens one behind the other, if no word goes on from the
first text into the second. -/
theorem Spells.append_closed (h : Spells text tokens) (hapart : Apart text')
    (h' : Closed text' tokens') : Closed (text ++ text') (tokens ++ tokens') := by
  rcases h with h | ⟨before, chars, rfl, h⟩
  · exact h.append h'
  · have hfound := feed_append h text'
    rw [feed_word_apart chars hapart, h'] at hfound
    simpa [Closed] using hfound

theorem Spells.append (h : Spells text tokens) (hapart : Apart text') (h' : Spells text' tokens') :
    Spells (text ++ text') (tokens ++ tokens') := by
  rcases h' with h' | ⟨before', chars', rfl, h'⟩
  · exact (h.append_closed hapart h').spells
  rcases h with h | ⟨before, chars, rfl, h⟩
  · exact Or.inr ⟨tokens ++ before', chars', by simp, feed_trans h h'⟩
  · have hfound := feed_append h text'
    rw [feed_word_apart chars hapart, h'] at hfound
    exact Or.inr ⟨before ++ .word chars :: before', chars', by simp, by simpa using hfound⟩

theorem Closed.append_spells (h : Closed text tokens) (h' : Spells text' tokens') :
    Spells (text ++ text') (tokens ++ tokens') := by
  rcases h' with h' | ⟨before', chars', rfl, h'⟩
  · exact (h.append h').spells
  · exact Or.inr ⟨tokens ++ before', chars', by simp, feed_trans h h'⟩

end Abnf.Listing
