import Abnf.Proofs.Catalog
import Abnf.Proofs.Metagrammar.Notes

/-!
# Every text of whole lines is read

Recognition ends on every text. A text that passes the character check consists of whole lines, and
whatever these say, the metagrammar takes them all: at the start of a line one of the symbols for
lines matches, and it stops right behind a line end. For malformed lines this is the symbol for
lines that are not recognised, whose loop cannot run past the last line end of the text.

* `not_anyFail_line`: at the start of a line some symbol for lines matches.
* `endsLine_of_line`: what it matches ends with a line end.
* `recognition_total`: recognition reads every text that passes the character check, line by line.
-/

namespace Abnf.Metagrammar

open Engine

/-! ## Whole lines -/

/-- Bytes that may stand in a text, up to a line end. -/
structure WholeLines (bytes : List UInt8) : Prop where
  characters : ∀ byte ∈ bytes, isGrammarCharacter byte = true ∨ byte = 10 ∨ byte = 13
  ended : ∀ byte, bytes.getLast? = some byte → byte = 10 ∨ byte = 13

/-- Bytes that begin with a line end of `n` bytes: CRLF, LF, or CR without LF behind it. -/
inductive BeginsWithLineEnd : Nat → List UInt8 → Prop
  | crlf {rest : List UInt8} : BeginsWithLineEnd 2 (13 :: 10 :: rest)
  | lf {rest : List UInt8} : BeginsWithLineEnd 1 (10 :: rest)
  | cr {rest : List UInt8} (h : rest.head? ≠ some 10) : BeginsWithLineEnd 1 (13 :: rest)

/-- The first `n` bytes end with a line end. -/
def EndsLine (n : Nat) (bytes : List UInt8) : Prop :=
  ∃ before length, n = before + length ∧ BeginsWithLineEnd length (bytes.drop before)

theorem EndsLine.pos {n : Nat} {bytes : List UInt8} (h : EndsLine n bytes) : 0 < n := by
  obtain ⟨before, length, rfl, hend⟩ := h
  have hlength : 0 < length := by
    generalize bytes.drop before = rest at hend
    cases hend <;> omega
  omega

namespace WholeLines

variable {bytes rest : List UInt8} {byte : UInt8}

theorem nil : WholeLines [] :=
  ⟨by simp, by simp⟩

theorem cons (h : WholeLines rest)
    (hbyte : (isGrammarCharacter byte = true ∧ rest ≠ []) ∨ byte = 10 ∨ byte = 13) :
    WholeLines (byte :: rest) := by
  refine ⟨List.forall_mem_cons.2 ⟨hbyte.imp_left And.left, h.characters⟩, fun last hlast => ?_⟩
  cases rest with
  | nil =>
    obtain rfl : byte = last := by simpa using hlast
    exact hbyte.resolve_left fun h => h.2 rfl
  | cons next rest =>
    rw [List.getLast?_cons_cons] at hlast
    exact h.ended last hlast

theorem drop (h : WholeLines bytes) (n : Nat) : WholeLines (bytes.drop n) := by
  refine ⟨fun byte hbyte => h.characters byte (List.mem_of_mem_drop hbyte), fun byte hbyte => ?_⟩
  rw [List.getLast?_drop] at hbyte
  split at hbyte
  · cases hbyte
  · exact h.ended byte hbyte

end WholeLines

/-- A text that passes the character check consists of whole lines. -/
theorem wholeLines_of_characterFlaws {strict started : Bool} {line offset : Nat}
    {bytes : List UInt8} (h : characterFlaws strict line offset started bytes = []) :
    (started = true → bytes ≠ []) ∧ WholeLines bytes := by
  fun_induction characterFlaws strict line offset started bytes with
  | case1 => cases h
  | case2 line offset started hstarted => exact ⟨fun h => absurd h hstarted, .nil⟩
  | case3 line offset started rest ih =>
    exact ⟨by simp, ((ih h).2.cons (Or.inr (Or.inl rfl))).cons (Or.inr (Or.inr rfl))⟩
  | case4 | case6 | case9 => cases h
  | case5 line offset started rest flaws _ _ ih =>
    exact ⟨by simp, (ih h).2.cons (Or.inr (Or.inl rfl))⟩
  | case7 line offset started rest flaws _ _ _ ih =>
    exact ⟨by simp, (ih h).2.cons (Or.inr (Or.inr rfl))⟩
  | case8 line offset started byte rest _ _ _ flaws hbyte ih =>
    exact ⟨by simp, (ih h).2.cons (Or.inl ⟨hbyte, (ih h).1 rfl⟩)⟩

/-! ## Characters -/

variable {recorded : Nat → Bool} {pos n : Nat} {rest : List UInt8} {nodes : List Node}

/-- `e` matches in the metagrammar, where some symbols are recorded. -/
abbrev AnyMatch (recorded : Nat → Bool) : Expr Opcode → Nat → List UInt8 → Nat → List Node → Prop :=
  Matches (schemeOf Symbol.body recorded) fun _ => True

/-- `e` fails in the metagrammar, where some symbols are recorded. -/
abbrev AnyFail (recorded : Nat → Bool) : Expr Opcode → Nat → List UInt8 → Prop :=
  Fails (schemeOf Symbol.body recorded) fun _ => True

theorem anyMatch_ref_iff {s : Symbol} : AnyMatch recorded (ref s) pos rest n nodes ↔
    ∃ inner, AnyMatch recorded s.body pos rest n inner ∧
      nodes = (schemeOf Symbol.body recorded).wrap s.index pos (some n) inner := by
  rw [AnyMatch, ref, matches_rule_iff (schemeOf_body _ _ s)]
  simp only [true_and]

theorem anyFail_ref_iff {s : Symbol} :
    AnyFail recorded (ref s) pos rest ↔ AnyFail recorded s.body pos rest := by
  rw [AnyFail, ref, fails_rule_iff (schemeOf_body _ _ s)]
  simp only [true_and]

theorem anyMatch_chars (cs : List Char) (h : beginsWith id (cs.map Char.val) rest = true) :
    AnyMatch recorded (chars cs) pos rest cs.length [] := by
  refine matches_leaf ?_
  simp [leafResult?, literalResult, h]

theorem anyFail_chars {cs : List Char} (h : beginsWith id (cs.map Char.val) rest = false) :
    AnyFail recorded (chars cs) pos rest := by
  refine fails_leaf ?_
  simp [leafResult?, literalResult, h]

theorem beginsWith_of_anyMatch {cs : List Char} (h : AnyMatch recorded (chars cs) pos rest n nodes) :
    beginsWith id (cs.map Char.val) rest = true ∧ n = cs.length := by
  obtain ⟨hleaf, -⟩ := Matches.leafResult? h (by simp)
  simp only [leafResult?, literalResult] at hleaf
  split at hleaf
  · exact ⟨‹_›, by simpa using hleaf.symm⟩
  · cases hleaf

theorem beginsWith_cons {c : Char} {cs : List Char} {bytes : List UInt8}
    (h : beginsWith id ((c :: cs).map Char.val) bytes = true) :
    ∃ byte more, bytes = byte :: more ∧ byte.toNat = c.toNat ∧
      beginsWith id (cs.map Char.val) more = true := by
  cases bytes with
  | nil => cases h
  | cons byte more =>
    simp only [List.map_cons, beginsWith, id_eq, Bool.and_eq_true, beq_iff_eq] at h
    refine ⟨byte, more, rfl, ?_, h.2⟩
    rw [Char.toNat, ← h.1, UInt8.toNat_toUInt32]

/-! ## Line ends -/

/-- A line end is read where there is one. -/
theorem exists_anyMatch_lineBreak {byte : UInt8} (hbyte : byte = 10 ∨ byte = 13)
    (more : List UInt8) : ∃ n, AnyMatch recorded lineBreak pos (byte :: more) n [] := by
  by_cases hcrlf : beginsWith id (['\r', '\n'].map Char.val) (byte :: more) = true
  · exact ⟨_, matches_alt_cons_iff.2 (Or.inl (anyMatch_chars _ hcrlf))⟩
  · refine ⟨1, matches_alt_cons_iff.2 (Or.inr ⟨anyFail_chars (by simpa using hcrlf), ?_⟩)⟩
    rcases hbyte with rfl | rfl
    · exact matches_alt_cons_iff.2 (Or.inl (anyMatch_chars ['\n'] rfl))
    · refine matches_alt_cons_iff.2 (Or.inr ⟨anyFail_chars rfl, ?_⟩)
      exact matches_alt_cons_iff.2 (Or.inl (anyMatch_chars ['\r'] rfl))

theorem beginsWithLineEnd_of_anyMatch (h : AnyMatch recorded lineBreak pos rest n nodes) :
    BeginsWithLineEnd n rest := by
  rcases matches_alt_cons_iff.1 h with h | ⟨hcrlf, h⟩
  · obtain ⟨hbegins, rfl⟩ := beginsWith_of_anyMatch h
    obtain ⟨byte, more, rfl, hbyte, hbegins⟩ := beginsWith_cons hbegins
    obtain ⟨byte', more, rfl, hbyte', -⟩ := beginsWith_cons hbegins
    obtain rfl : byte = 13 := UInt8.toNat_inj.1 hbyte
    obtain rfl : byte' = 10 := UInt8.toNat_inj.1 hbyte'
    exact .crlf
  rcases matches_alt_cons_iff.1 h with h | ⟨-, h⟩
  · obtain ⟨hbegins, rfl⟩ := beginsWith_of_anyMatch h
    obtain ⟨byte, more, rfl, hbyte, -⟩ := beginsWith_cons hbegins
    obtain rfl : byte = 10 := UInt8.toNat_inj.1 hbyte
    exact .lf
  · obtain ⟨_, hmem, h⟩ := h.exists_mem
    obtain rfl := List.mem_singleton.1 hmem
    obtain ⟨hbegins, rfl⟩ := beginsWith_of_anyMatch h
    obtain ⟨byte, more, rfl, hbyte, -⟩ := beginsWith_cons hbegins
    obtain rfl : byte = 13 := UInt8.toNat_inj.1 hbyte
    refine .cr fun hhead => ?_
    obtain ⟨more, rfl⟩ := List.head?_eq_some_iff.1 hhead
    -- CRLF comes first, so CR alone is never taken off in front of LF.
    exact (anyMatch_chars ['\r', '\n'] rfl).not_fails hcrlf

/-! ## Characters of a line -/

/-- What a line that is not recognised consists of: characters, and line ends that continue it. -/
def lineCharacter : Expr Opcode :=
  .alt [range ' ' '~', chars ['\t'], ref .lineContinue]

theorem rangeResult_eq {low high : Char} {byte : UInt8} {more : List UInt8} :
    rangeResult low.val high.val (byte :: more) =
      if low.toNat ≤ byte.toNat ∧ byte.toNat ≤ high.toNat then some 1 else none := by
  simp only [rangeResult, Bool.and_eq_true, decide_eq_true_eq, UInt32.le_iff_toNat_le,
    UInt8.toNat_toUInt32, Char.toNat]

theorem isGrammarCharacter_iff {byte : UInt8} : isGrammarCharacter byte = true ↔
    byte.toNat = 9 ∨ 32 ≤ byte.toNat ∧ byte.toNat ≤ 126 := by
  simp only [isGrammarCharacter, Bool.or_eq_true, beq_iff_eq, Bool.and_eq_true, decide_eq_true_eq,
    UInt8.le_iff_toNat_le, ← UInt8.toNat_inj]
  rfl

theorem exists_anyMatch_lineCharacter {byte : UInt8} (hbyte : isGrammarCharacter byte = true)
    (more : List UInt8) : ∃ n nodes, AnyMatch recorded lineCharacter pos (byte :: more) n nodes := by
  refine ⟨1, [], matches_alt_cons_iff.2 ?_⟩
  rcases isGrammarCharacter_iff.1 hbyte with htab | hprintable
  · obtain rfl : byte = 9 := UInt8.toNat_inj.1 htab
    refine Or.inr ⟨fails_leaf rfl, matches_alt_cons_iff.2 (Or.inl ?_)⟩
    exact anyMatch_chars ['\t'] rfl
  · refine Or.inl (matches_leaf ?_)
    rw [leafResult?, rangeResult_eq]
    exact congrArg some (if_pos hprintable)

theorem character_of_blank (h : AnyMatch recorded (.alt [chars [' '], chars ['\t']]) pos rest n nodes) :
    n = 1 ∧ ∃ byte, rest[0]? = some byte ∧ isGrammarCharacter byte = true := by
  obtain ⟨e, he, h⟩ := h.exists_mem
  rcases List.mem_pair.1 he with rfl | rfl
  all_goals
    obtain ⟨hbegins, rfl⟩ := beginsWith_of_anyMatch h
    obtain ⟨byte, more, rfl, hbyte, -⟩ := beginsWith_cons hbegins
    refine ⟨rfl, byte, rfl, isGrammarCharacter_iff.2 ?_⟩
  · exact Or.inr (hbyte ▸ by decide)
  · exact Or.inl hbyte

/-- What is taken of a line ends with a character, never with a line end. -/
theorem character_of_lineCharacter (h : AnyMatch recorded lineCharacter pos rest n nodes) :
    ∃ before byte, n = before + 1 ∧ rest[before]? = some byte ∧ isGrammarCharacter byte = true := by
  rcases matches_alt_cons_iff.1 h with h | ⟨-, h⟩
  · obtain ⟨hleaf, -⟩ := Matches.leafResult? h (by simp)
    cases rest with
    | nil => cases hleaf
    | cons byte more =>
      rw [leafResult?, rangeResult_eq] at hleaf
      split at hleaf
      · cases hleaf
        exact ⟨0, byte, rfl, rfl, isGrammarCharacter_iff.2 (Or.inr ‹_›)⟩
      · cases hleaf
  rcases matches_alt_cons_iff.1 h with h | ⟨-, h⟩
  · obtain ⟨hbegins, rfl⟩ := beginsWith_of_anyMatch h
    obtain ⟨byte, more, rfl, hbyte, -⟩ := beginsWith_cons hbegins
    exact ⟨0, byte, rfl, rfl, isGrammarCharacter_iff.2 (Or.inl hbyte)⟩
  · obtain ⟨_, hmem, h⟩ := h.exists_mem
    obtain rfl := List.mem_singleton.1 hmem
    obtain ⟨inner, h, -⟩ := anyMatch_ref_iff.1 h
    obtain ⟨before, _, length, _, -, hblank, rfl, -⟩ := matches_cat_cons_iff.1 h
    obtain ⟨rfl, byte, hbyte, hcharacter⟩ :=
      character_of_blank (matches_cat_singleton_iff.1 hblank)
    rw [List.getElem?_drop] at hbyte
    exact ⟨before, byte, rfl, hbyte, hcharacter⟩

/-! ## Loops -/

/-- A loop whose body consumes something stops where the body fails. -/
theorem AnyFail.behind_many {e : Expr Opcode}
    (he : ∀ {pos rest nodes}, ¬ AnyMatch recorded e pos rest 0 nodes)
    (h : AnyMatch recorded (many e) pos rest n nodes) :
    AnyFail recorded e (pos + n) (rest.drop n) := by
  induction h using Matches.many_induction with
  | done hfails => exact hfails
  | empty hempty => exact absurd hempty he
  | next _ _ ih => rwa [List.drop_drop, Nat.add_assoc] at ih

theorem AnyMatch.many_of_oneOrMore {e : Expr Opcode}
    (h : AnyMatch recorded (oneOrMore e) pos rest n nodes) :
    AnyMatch recorded (many e) pos rest n nodes :=
  matches_many_iff.2 (Or.inr (matches_oneOrMore_iff.1 h))

/-- What a loop over characters has taken ends with a character. -/
theorem character_of_many (h : AnyMatch recorded (many lineCharacter) pos rest n nodes) (hn : n ≠ 0) :
    ∃ before byte, n = before + 1 ∧ rest[before]? = some byte ∧
      isGrammarCharacter byte = true := by
  induction h using Matches.many_induction with
  | done | empty => exact absurd rfl hn
  | @next _ _ m _ k _ hfirst _ ih =>
    by_cases hk : k = 0
    · subst hk
      exact character_of_lineCharacter hfirst
    · obtain ⟨before, byte, rfl, hbyte, hcharacter⟩ := ih hk
      rw [List.getElem?_drop] at hbyte
      exact ⟨m + 1 + before, byte, rfl, hbyte, hcharacter⟩

theorem not_isGrammarCharacter {byte : UInt8} (h : byte = 10 ∨ byte = 13) :
    isGrammarCharacter byte = false := by
  rcases h with rfl | rfl <;> rfl

theorem not_anyMatch_lineCharacter_zero : ¬ AnyMatch recorded lineCharacter pos rest 0 nodes := by
  intro h
  obtain ⟨_, _, hn, -⟩ := character_of_lineCharacter h
  omega

/-- The loop over the characters of a line stops in front of a line end. -/
theorem lineEnd_behind_many (hlines : WholeLines rest)
    (h : AnyMatch recorded (many lineCharacter) pos rest n nodes) :
    rest = [] ∨ ∃ byte more, rest.drop n = byte :: more ∧ (byte = 10 ∨ byte = 13) := by
  have hstop := AnyFail.behind_many not_anyMatch_lineCharacter_zero h
  cases hdrop : rest.drop n with
  | nil =>
    -- Nothing is left only if the last byte of the text was taken, which is no character.
    refine Or.inl ?_
    by_contra hne
    have hlength : n = rest.length :=
      Nat.le_antisymm h.le_length (List.drop_eq_nil_iff.1 hdrop)
    have hn : n ≠ 0 := by rwa [hlength, List.length_eq_zero_iff.ne]
    obtain ⟨before, byte, hbefore, hbyte, hcharacter⟩ := character_of_many h hn
    have hlast : rest.getLast? = some byte := by
      rw [List.getLast?_eq_getElem?, ← hlength, hbefore, Nat.add_sub_cancel, hbyte]
    rw [not_isGrammarCharacter (hlines.ended byte hlast)] at hcharacter
    cases hcharacter
  | cons byte more =>
    refine Or.inr ⟨byte, more, rfl, ?_⟩
    have hmem : byte ∈ rest := List.mem_of_mem_drop (hdrop ▸ List.mem_cons_self)
    refine (hlines.characters byte hmem).resolve_left fun hcharacter => ?_
    obtain ⟨_, _, hmatch⟩ := exists_anyMatch_lineCharacter hcharacter more
    exact hmatch.not_fails (hdrop ▸ hstop)

/-! ## Lines -/

/-- The symbols for lines. -/
def lineSymbols : List Symbol :=
  [.blankLine, .rule, .ruleError]

/-- A line of any kind. -/
def anyLine : Expr Opcode :=
  .alt (lineSymbols.map ref)

theorem body_file : Symbol.file.body = many anyLine :=
  rfl

theorem not_anyFail_lineEnd {byte : UInt8} (hbyte : byte = 10 ∨ byte = 13) (more : List UInt8) :
    ¬ AnyFail recorded (ref .lineEnd) pos (byte :: more) := by
  rw [anyFail_ref_iff]
  obtain ⟨_, hmatch⟩ := exists_anyMatch_lineBreak hbyte more
  exact hmatch.not_fails

/-- In front of a line end the symbol for blank lines matches. -/
theorem not_anyFail_blankLine {byte : UInt8} (hbyte : byte = 10 ∨ byte = 13) (more : List UInt8) :
    ¬ AnyFail recorded (ref .blankLine) pos (byte :: more) := by
  rw [anyFail_ref_iff]
  intro h
  have hcharacter := not_isGrammarCharacter hbyte
  obtain ⟨blanks, _, hblanks, h⟩ := (fails_cat_cons_iff.1 h).resolve_left not_fails_rep_zero
  obtain rfl : blanks = 0 := by
    rcases matches_many_iff.1 hblanks with ⟨hn, -⟩ | ⟨hn, -⟩ | ⟨_, _, _, _, hfirst, -⟩
    · exact hn
    · exact hn
    · obtain ⟨-, _, hfirst, hblank⟩ := character_of_blank hfirst
      cases hfirst
      rw [hcharacter] at hblank
      cases hblank
  obtain ⟨length, _, hcomment, h⟩ := (fails_cat_cons_iff.1 h).resolve_left not_fails_rep_zero
  obtain rfl : length = 0 := by
    rcases matches_optional_iff.1 hcomment with ⟨hn, -⟩ | hcomment
    · exact hn
    · obtain ⟨_, hbody, -⟩ := anyMatch_ref_iff.1 hcomment
      obtain ⟨_, _, _, _, hopen, -⟩ := matches_cat_cons_iff.1 hbody
      obtain ⟨_, _, hcons, hsemicolon, -⟩ := beginsWith_cons (beginsWith_of_anyMatch hopen).1
      cases hcons
      rcases hbyte with rfl | rfl <;> cases hsemicolon
  exact not_anyFail_lineEnd hbyte more (fails_cat_singleton_iff.1 h)

/-- In front of a character the symbol for lines that are not recognised matches. -/
theorem not_anyFail_ruleError {byte : UInt8} {more : List UInt8}
    (hlines : WholeLines (byte :: more)) (hbyte : isGrammarCharacter byte = true) :
    ¬ AnyFail recorded (ref .ruleError) pos (byte :: more) := by
  rw [anyFail_ref_iff]
  intro h
  rcases fails_cat_cons_iff.1 h with h | ⟨n, _, hcharacters, h⟩
  · obtain ⟨_, _, hmatch⟩ := exists_anyMatch_lineCharacter hbyte more
    exact hmatch.not_fails (fails_oneOrMore_iff.1 h)
  · obtain ⟨last, rest, hdrop, hlast⟩ :=
      (lineEnd_behind_many hlines (AnyMatch.many_of_oneOrMore hcharacters)).resolve_left (by simp)
    rw [hdrop] at h
    exact not_anyFail_lineEnd hlast rest (fails_cat_singleton_iff.1 h)

/-- At the start of a line some symbol for lines matches, whatever the line says. -/
theorem not_anyFail_line (hlines : WholeLines rest) (hne : rest ≠ []) :
    ¬ AnyFail recorded anyLine pos rest := by
  intro h
  obtain ⟨hblank, h⟩ := fails_alt_cons_iff.1 h
  obtain ⟨-, h⟩ := fails_alt_cons_iff.1 h
  obtain ⟨herror, -⟩ := fails_alt_cons_iff.1 h
  obtain ⟨byte, more, rfl⟩ := List.exists_cons_of_ne_nil hne
  rcases hlines.characters byte List.mem_cons_self with hbyte | hbyte
  · exact not_anyFail_ruleError hlines hbyte herror
  · exact not_anyFail_blankLine hbyte more hblank

/-- What is read as a line ends with a line end. -/
theorem endsLine_of_lineEnd {before length : Nat}
    (h : AnyMatch recorded (ref .lineEnd) (pos + before) (rest.drop before) length nodes) :
    EndsLine (before + length) rest := by
  obtain ⟨_, h, -⟩ := anyMatch_ref_iff.1 h
  exact ⟨before, length, rfl, beginsWithLineEnd_of_anyMatch h⟩

theorem endsLine_of_line {s : Symbol} (hs : s ∈ lineSymbols)
    (h : AnyMatch recorded (ref s) pos rest n nodes) : EndsLine n rest := by
  obtain ⟨_, h, -⟩ := anyMatch_ref_iff.1 h
  simp only [lineSymbols, List.mem_cons, List.not_mem_nil, or_false] at hs
  rcases hs with rfl | rfl | rfl
  · obtain ⟨before, length, _, rfl, hlast⟩ := Matches.exists_last [_, _] h
    exact endsLine_of_lineEnd hlast
  · obtain ⟨before, length, _, rfl, hlast⟩ := Matches.exists_last [_, _, _] h
    obtain ⟨e, he, hending⟩ := hlast.exists_mem
    have hcat : ∃ first, e = .cat ([first] ++ [ref .lineEnd]) := by
      rcases List.mem_pair.1 he with rfl | rfl
      · exact ⟨_, rfl⟩
      · exact ⟨_, rfl⟩
    obtain ⟨first, rfl⟩ := hcat
    obtain ⟨more, length, _, rfl, hlineEnd⟩ := Matches.exists_last [first] hending
    rw [Nat.add_assoc, List.drop_drop] at hlineEnd
    rw [← Nat.add_assoc]
    exact endsLine_of_lineEnd hlineEnd
  · obtain ⟨before, length, _, rfl, hlast⟩ := Matches.exists_last [_] h
    exact endsLine_of_lineEnd hlast

/-- Lines are taken one by one until none is left. -/
theorem lines_induction {P : Nat → List UInt8 → List Node → Prop} (hnil : ∀ pos, P pos [] [])
    (hcons : ∀ {pos rest n nodes nodes' s}, s ∈ lineSymbols →
      AnyMatch recorded (ref s) pos rest n nodes → EndsLine n rest →
      P (pos + n) (rest.drop n) nodes' → P pos rest (nodes ++ nodes'))
    (hlines : WholeLines rest) (h : AnyMatch recorded (many anyLine) pos rest n nodes) :
    n = rest.length ∧ P pos rest nodes := by
  have hline : ∀ {pos rest n nodes}, AnyMatch recorded anyLine pos rest n nodes →
      ∃ s ∈ lineSymbols, AnyMatch recorded (ref s) pos rest n nodes := by
    intro pos rest n nodes h
    obtain ⟨_, he, h⟩ := h.exists_mem
    obtain ⟨s, hs, rfl⟩ := List.mem_map.1 he
    exact ⟨s, hs, h⟩
  induction h using Matches.many_induction with
  | @done pos rest hfails =>
    cases rest with
    | nil => exact ⟨rfl, hnil pos⟩
    | cons byte more => exact absurd hfails (not_anyFail_line hlines (by simp))
  | empty hempty =>
    obtain ⟨s, hs, hempty⟩ := hline hempty
    exact absurd (endsLine_of_line hs hempty).pos (Nat.lt_irrefl 0)
  | next hfirst _ ih =>
    obtain ⟨s, hs, hfirst⟩ := hline hfirst
    obtain ⟨rfl, hP⟩ := ih (hlines.drop _)
    refine ⟨?_, hcons hs hfirst (endsLine_of_line hs hfirst) hP⟩
    have hle := hfirst.le_length
    rw [List.length_drop]
    omega

/-! ## What the observer never notes -/

namespace Notes

variable {notes : Notes} {offset : Nat} {flaw : Flaw} {s : Symbol} {phase : Phase}

/-- No text has been noted to be unreadable. -/
def IsReadable (notes : Notes) : Prop :=
  ∀ noted ∈ notes.flaws, noted.2 ≠ .unreadable

theorem IsReadable.note (h : notes.IsReadable) (hflaw : flaw ≠ .unreadable) :
    (notes.note offset flaw).IsReadable := by
  unfold Notes.note
  split
  · exact h
  · intro noted hnoted
    rcases Array.mem_push.1 hnoted with hnoted | rfl
    · exact h noted hnoted
    · exact hflaw

theorem IsReadable.noteExtension (h : notes.IsReadable) (found : Extension) :
    (notes.noteExtension offset found).IsReadable := by
  unfold Notes.noteExtension
  split
  · exact h.note (by simp)
  · exact h

theorem IsReadable.noteTab (h : notes.IsReadable) (hflaw : flaw ≠ .unreadable) :
    (notes.noteTab flaw).IsReadable := by
  unfold Notes.noteTab
  split
  · exact h.note hflaw
  · exact h

theorem IsReadable.leaveLevel (h : notes.IsReadable) : notes.leaveLevel.IsReadable := by
  unfold Notes.IsReadable
  rwa [flaws_leaveLevel]

theorem IsReadable.observe (h : notes.IsReadable) :
    (notes.observe s phase offset).IsReadable := by
  unfold Notes.observe
  split <;> (try split)
  all_goals first
    | exact h
    | exact h.note (by simp)
    | exact h.noteExtension _
    | exact h.noteTab (by simp)
    | exact h.leaveLevel
    | exact IsReadable.note h (by simp)

end Notes

theorem isReadable_foldl {notes : Notes} {events : List Event} (h : notes.IsReadable) :
    (events.foldl watch.see notes).IsReadable := by
  induction events generalizing notes with
  | nil => exact h
  | cons event events ih =>
    refine ih ?_
    cases hs : Symbol.ofIndex? event.rule with
    | none => rwa [see_eq_self hs]
    | some s =>
      rw [see_eq hs]
      exact h.observe

/-- No other flaw has the message of texts that are not read to their end. -/
theorem eq_unreadable_of_message {flaw : Flaw} (h : flaw.message = Flaw.unreadable.message) :
    flaw = .unreadable := by
  cases flaw with
  | unreadable => rfl
  | extension found => cases found <;> exact absurd h (by decide)
  | _ => exact absurd h (by decide)

/-! ## Texts -/

/-- Phrases of symbols for lines that follow each other from `pos` on, up to the end of the bytes,
and end with a line end each. -/
def AreLines : Nat → List UInt8 → List Node → Prop
  | _, rest, [] => rest = []
  | pos, rest, .mk rule offset length _ :: nodes =>
    rule ∈ lineSymbols.map Symbol.index ∧ offset = pos ∧ EndsLine length rest ∧
      AreLines (pos + length) (rest.drop length) nodes

/-- The file symbol reads whole lines to their end. -/
theorem length_of_file (hlines : WholeLines rest)
    (h : AnyMatch recorded (ref .file) pos rest n nodes) : n = rest.length := by
  obtain ⟨inner, h, -⟩ := anyMatch_ref_iff.1 h
  rw [body_file] at h
  exact (lines_induction (P := fun _ _ _ => True) (fun _ => trivial) (fun _ _ _ h => h) hlines h).1

/-- Where the symbols for lines are recorded, the file symbol leaves one phrase for each line. -/
theorem areLines_of_file (hlines : WholeLines rest)
    (hrecorded : ∀ s, recorded s.index = true ↔ s ∈ lineSymbols)
    (h : AnyMatch recorded (ref .file) pos rest n nodes) : AreLines pos rest nodes := by
  obtain ⟨inner, hbody, rfl⟩ := anyMatch_ref_iff.1 h
  have hfile : recorded Symbol.file.index = false := by
    rw [Bool.eq_false_iff, Ne, hrecorded]
    decide
  simp only [Scheme.wrap, schemeOf, hfile]
  rw [body_file] at hbody
  refine (lines_induction (fun _ => rfl) ?_ hlines hbody).2
  intro pos rest n nodes nodes' s hs hline hend hnodes
  obtain ⟨children, -, rfl⟩ := anyMatch_ref_iff.1 hline
  simp only [Scheme.wrap, schemeOf, (hrecorded s).2 hs]
  exact ⟨List.mem_map_of_mem hs, rfl, hend, hnodes⟩

/-- The file symbol matches everywhere. -/
theorem exists_anyMatch_of_file {result : Option Nat} {events : List Event}
    (h : Run (schemeOf Symbol.body recorded) (ref .file) pos rest result nodes events) :
    ∃ n, result = some n ∧ AnyMatch recorded (ref .file) pos rest n nodes := by
  cases result with
  | some n => exact ⟨n, rfl, events, h, fun _ _ => trivial⟩
  | none =>
    cases h.nodes_eq_nil
    have hfails : AnyFail recorded (ref .file) pos rest := ⟨events, h, fun _ _ => trivial⟩
    exact absurd (anyFail_ref_iff.1 hfails) not_fails_rep_zero

theorem wholeLines_of_characterDiagnostics {source : Source} {strict : Bool}
    (h : source.characterDiagnostics strict = []) : WholeLines source.bytes.toList :=
  (wholeLines_of_characterFlaws (List.map_eq_nil_iff.1 h)).2

/-- Recognition ends on every text. A text that passes the character check, strict or not, is read
to its end, whatever it says: the file symbol takes it line by line, each with its line end, and no
objection says that it could not be read. -/
theorem recognition_total (source : Source) (strict : Bool) :
    ∃ recognition, recognize source strict = .ok recognition ∧
      ∀ checked, source.characterDiagnostics checked = [] →
        (∀ diagnostic ∈ recognition.diagnostics source,
          diagnostic.message ≠ Flaw.unreadable.message) ∧
        ∃ found, Engine.trace rules (lineSymbols.map Symbol.index) [] Symbol.file.index
            source.bytes = .ok found ∧
          found.matched = some source.bytes.size ∧
          AreLines 0 source.bytes.toList found.records.forest := by
  obtain ⟨result, nodes, events, hrun, heq⟩ := recognize_eq source strict
  refine ⟨_, heq, fun checked hchecked => ?_⟩
  -- A text that passes the check consists of whole lines, and the file symbol takes each of them,
  -- with an objection if need be.
  have hlines := wholeLines_of_characterDiagnostics hchecked
  have hsize : ∀ {recorded n nodes},
      AnyMatch recorded (ref .file) 0 source.bytes.toList n nodes → n = source.bytes.size :=
    fun h => (length_of_file hlines h).trans Array.length_toList
  constructor
  · obtain ⟨n, rfl, hfile⟩ := exists_anyMatch_of_file hrun
    obtain rfl := hsize hfile
    intro diagnostic hdiagnostic hmessage
    obtain ⟨⟨offset, flaw⟩, hflaw, rfl⟩ := List.mem_map.1 hdiagnostic
    obtain rfl := eq_unreadable_of_message hmessage
    rw [if_pos rfl, List.append_nil, Array.mem_toList_iff] at hflaw
    exact isReadable_foldl (by simp [Notes.IsReadable]) _ hflaw rfl
  · have hvalid : ∀ s : Symbol, s.body.isValid = true :=
      fun s => (isSound_iff.1 (isSound_body s)).1
    obtain ⟨result, nodes, events, hrun, htrace⟩ :=
      (descends_schemeOf isSound_body _).trace_realizes
        (depicts_schemeOf hvalid (Watch.log (lineSymbols.map Symbol.index) []))
        (schemeOf_body _ _ .file) source.bytes (by simp only [Array.size_map]; decide) (by simp)
    obtain ⟨n, rfl, hfile⟩ := exists_anyMatch_of_file hrun
    obtain rfl := hsize hfile
    refine ⟨_, htrace, rfl, ?_⟩
    rw [Records.forest_ofNodes]
    refine areLines_of_file hlines (fun s => ?_) hfile
    cases s <;> decide

/-- A line that is only a closing bracket is read to its end, and that without a definition. -/
theorem recognition_total_bracket :
    (Source.ofBytes #[41, 10]).characterDiagnostics true ≠ [] ∧
      (Source.ofBytes #[41, 10]).characterDiagnostics false = [] ∧
      ∃ found, Engine.trace rules (lineSymbols.map Symbol.index) [] Symbol.file.index
          #[41, 10] = .ok found ∧
        found.matched = some 2 ∧ AreLines 0 [41, 10] found.records.forest := by
  have hchecked : (Source.ofBytes #[41, 10]).characterDiagnostics false = [] := rfl
  obtain ⟨_, -, hread⟩ := recognition_total (.ofBytes #[41, 10]) true
  obtain ⟨-, found, htrace, hmatched, hlines⟩ := hread false hchecked
  exact ⟨by decide, hchecked, found, htrace, hmatched, hlines⟩

end Abnf.Metagrammar
