import Abnf.Proofs.Canonical.Scanning

/-!
# Words of canonical texts

Names, numbers and the space between words. What may begin an element never continues a name, a
number or space, and neither does what may stand behind an element.

* `takes_alphanum`, `takes_digits`: a name or a number ends where its characters end.
* `Solid`: space ends here.
* `Closing`: neither an element nor an alternative follows.
-/

namespace Abnf.Canonical

open Engine Metagrammar
open scoped Decisions

variable {s : Symbol} {pos : Nat} {c : Char} {p q : Char → Bool} {text rest : List Char}

/-! ## First characters -/

/-- Whether a text begins with a character for which `p` holds. -/
def Begins (p : Char → Bool) (text : List Char) : Prop :=
  ∃ c ∈ text.head?, p c = true

theorem begins_cons : Begins p (c :: text) ↔ p c = true := by
  simp [Begins]

theorem Begins.append (h : Begins p text) (rest : List Char) : Begins p (text ++ rest) := by
  obtain ⟨c, hc, hp⟩ := h
  exact ⟨c, by simp [List.head?_append, Option.mem_def.1 hc], hp⟩

theorem Begins.imp (h : Begins p text) (hpq : ∀ c, p c = true → q c = true) : Begins q text := by
  obtain ⟨c, hc, hp⟩ := h
  exact ⟨c, hc, hpq c hp⟩

theorem Begins.not_mem (h : Begins p text) (hpq : ∀ c, p c = true → q c = false) :
    ∀ c ∈ text.head?, q c = false := by
  obtain ⟨c, hc, hp⟩ := h
  intro d hd
  cases Option.mem_unique hc hd
  exact hpq c hp

theorem Begins.isPrefixOf (h : Begins p text) (hc : p c = false) (cs : List Char) :
    (c :: cs).isPrefixOf text = false := by
  obtain ⟨d, hd, hp⟩ := h
  cases text with
  | nil => cases hd
  | cons d' text =>
    cases hd
    have hne : c ≠ d := by
      rintro rfl
      simp [hp] at hc
    simp [List.isPrefixOf, hne]

/-- Whether a character can begin a leaf. -/
def beginsLeaf (c : Char) : Bool :=
  isLetter c || ['%', '\x22', '\x27', '\x5c'].contains c

/-- Whether a character can begin an element without an operator. -/
def beginsOperand (c : Char) : Bool :=
  beginsLeaf c || ['(', '['].contains c

/-- Whether a character can begin an element. -/
def beginsElement (c : Char) : Bool :=
  beginsOperand c || isDigit c || ['&', '!'].contains c

/-- Whether a character can stand right behind an element. -/
def endsElement (c : Char) : Bool :=
  [' ', ')', ']', '\n'].contains c

theorem isAscii_of_beginsElement (h : beginsElement c = true) : c.toNat < 128 := by
  simp only [beginsElement, beginsOperand, beginsLeaf, Bool.or_eq_true, List.contains_iff_mem,
    List.mem_cons, List.not_mem_nil, or_false, isLetter_iff, isDigit_iff] at h
  rcases h with (((h | h) | h) | h) | h
  · omega
  · rcases h with rfl | rfl | rfl | rfl <;> decide
  · rcases h with rfl | rfl <;> decide
  · omega
  · rcases h with rfl | rfl <;> decide

theorem beginsOperand_of_leaf (h : beginsLeaf c = true) : beginsOperand c = true := by
  simp [beginsOperand, h]

theorem beginsElement_of_operand (h : beginsOperand c = true) : beginsElement c = true := by
  simp [beginsElement, h]

theorem beginsElement_of_digit (h : isDigit c = true) : beginsElement c = true := by
  simp [beginsElement, h]

theorem beginsLeaf_of_letter (h : isLetter c = true) : beginsLeaf c = true := by
  simp [beginsLeaf, h]

/-- A symbol takes nothing in front of a character that cannot begin it. -/
theorem refuses_of_head (hs : s.isProperlyQuiet (some (byteOf c)) = true) :
    Refuses (ref s) (c :: rest) :=
  .of_quiet hs

/-- A symbol takes nothing in front of a class of characters that cannot begin it. -/
theorem refuses_of_begins (hp : ∀ c, p c = true → beginsElement c = true)
    (hs : ∀ i : Fin 128, (!p (Char.ofNat i) ||
      s.isProperlyQuiet (some (byteOf (Char.ofNat i)))) = true) (h : Begins p rest) :
    Refuses (ref s) rest := by
  obtain ⟨c, hc, hpc⟩ := h
  refine .of_quiet ?_
  rw [Option.mem_def.1 hc, Option.map_some]
  have hquiet := hs ⟨c.toNat, isAscii_of_beginsElement (hp c hpc)⟩
  simpa [hpc] using hquiet

/-! ## Names and numbers -/

theorem scans_letter : Scans (.alt [range 'a' 'z', range 'A' 'Z']) isLetter :=
  (Scans.or (.range (by decide)) (.or (.range (by decide)) .none)).congr fun c => by
    simp [isLetter]

theorem scans_nameCharacter :
    Scans (.alt [range 'a' 'z', range 'A' 'Z', range '0' '9', chars ['-']]) isNameCharacter :=
  (Scans.or (.range (by decide)) (.or (.range (by decide)) (.or (.range (by decide))
    (.or (.char (by decide)) .none)))).congr fun c => by
      simp [isNameCharacter, isLetter, isDigit, Bool.or_assoc]

theorem scans_digit : Scans (range '0' '9') isDigit :=
  .range (by decide)

theorem takes_alphanum (name : Name) (h : ∀ c ∈ rest.head?, isNameCharacter c = false) :
    Takes (ref .alphanum) pos name.chars rest [] := by
  refine .ref _ rfl ?_
  exact Takes.cat (scans_letter.takes name.first_isLetter)
    (.one (scans_nameCharacter.many name.rest_isName h))

theorem takes_digits (n : UInt32) (h : ∀ c ∈ rest.head?, isDigit c = false) :
    Takes (oneOrMore (range '0' '9')) pos (printNumber n) rest [] :=
  scans_digit.oneOrMore (printNumber_ne_nil n) (fun _ hc => isDigit_of_mem_printNumber hc) h

/-- The first character behind an element continues neither a name nor a number. -/
theorem not_continued (h : endsElement c = true) :
    isNameCharacter c = false ∧ isDigit c = false := by
  simp only [endsElement, List.contains_iff_mem, List.mem_cons, List.not_mem_nil, or_false] at h
  rcases h with rfl | rfl | rfl | rfl <;> decide

/-- A name is not taken for the mark of a user-defined terminal. -/
theorem isPrefixOf_name (name : Name) (h : Begins endsElement rest) (c : Char) :
    [c, '_'].isPrefixOf (name.chars ++ rest) = false := by
  have hmark : ['_'].isPrefixOf (name.rest ++ rest) = false := by
    cases hrest : name.rest with
    | nil => exact h.isPrefixOf rfl []
    | cons d tail =>
      have hd := name.rest_isName d (by simp [hrest])
      exact (begins_cons.2 hd).isPrefixOf rfl []
  rw [Name.chars, List.cons_append, List.isPrefixOf, hmark, Bool.and_false]

/-! ## Space -/

/-- No space stands at the front of `rest`. -/
def Solid (rest : List Char) : Prop :=
  Refuses (ref .space) rest

theorem takes_space : Takes (ref .space) pos [' '] rest [] :=
  .ref _ rfl (.hit (.chars _ (by decide)))

theorem takes_owsp_nil (h : Solid rest) : Takes (ref .owsp) pos [] rest [] :=
  .ref _ rfl (.none h)

theorem takes_owsp (h : Solid rest) : Takes (ref .owsp) pos [' '] rest [] :=
  .ref _ rfl (Takes.more (List.cons_ne_nil ' ' []) takes_space (.none h))

theorem takes_catOp (h : Solid rest) : Takes (ref .catOp) pos [' '] rest [] :=
  .ref _ rfl (.ref _ rfl (Takes.oneOrMore (List.cons_ne_nil ' ' []) takes_space (.none h)))

theorem refuses_catOp (h : Solid rest) : Refuses (ref .catOp) rest :=
  .ref (.ref (.oneOrMore h))

theorem solid_of_begins (h : Begins beginsElement rest) : Solid rest :=
  refuses_of_begins (fun _ h => h) (by decide +kernel) h

theorem takes_lineBreak : Takes lineBreak pos ['\n'] rest [] :=
  .miss (.chars (by decide) rfl) (.hit (.chars _ (by decide)))

/-- A line feed is no space, unless the next line continues this one. -/
theorem solid_lineFeed (h : ∀ c ∈ rest.head?, isLetter c = true) : Solid ('\n' :: rest) := by
  have hblank : ∀ d : Char, isLetter d = false → [d].isPrefixOf rest = false := by
    intro d hd
    cases rest with
    | nil => rfl
    | cons c rest => exact (begins_cons.2 (h c (by simp))).isPrefixOf hd []
  -- Only a line break with a blank behind it would go on as space.
  have hcontinue : Refuses (ref .lineContinue) ('\n' :: rest) := by
    have hbreak : ∀ pos, ∃ nodes, Takes lineBreak pos ['\n'] rest nodes :=
      fun _ => ⟨[], takes_lineBreak⟩
    refine .ref (.behind hbreak (.cat ?_))
    exact .alt (.chars (by decide) (hblank ' ' rfl))
      (.alt (.chars (by decide) (hblank '\t' rfl)) .nil)
  refine .ref ?_
  exact .alt (.chars (by decide) rfl) (.alt (.chars (by decide) rfl)
    (.alt (refuses_of_head (by decide)) (.alt hcontinue .nil)))

/-! ## What follows an alternative -/

/-- Neither an element nor an alternative stands at the front of `rest`. -/
structure Closing (rest : List Char) : Prop where
  begins : Begins ([')', ']', '\n'].contains ·) rest
  solid : Solid rest

theorem Closing.endsElement (h : Closing rest) : Begins endsElement rest :=
  h.begins.imp fun c hc => by
    simp only [List.contains_iff_mem, List.mem_cons, List.not_mem_nil, or_false] at hc
    rcases hc with rfl | rfl | rfl <;> rfl

theorem closing_bracket (h : c = ')' ∨ c = ']') : Closing (c :: rest) := by
  rcases h with rfl | rfl <;> exact ⟨begins_cons.2 rfl, refuses_of_head (by decide)⟩

theorem closing_lineFeed (h : ∀ c ∈ rest.head?, isLetter c = true) : Closing ('\n' :: rest) :=
  ⟨begins_cons.2 rfl, solid_lineFeed h⟩

/-- Behind the last alternative there is no slash. -/
theorem Closing.refuses_altOp (h : Closing rest) : Refuses (ref .altOp) rest := by
  obtain ⟨c, hc, hmem⟩ := h.begins
  refine .of_quiet ?_
  rw [Option.mem_def.1 hc, Option.map_some]
  simp only [List.contains_iff_mem, List.mem_cons, List.not_mem_nil, or_false] at hmem
  rcases hmem with rfl | rfl | rfl <;> decide

end Abnf.Canonical
