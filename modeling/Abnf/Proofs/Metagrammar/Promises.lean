import Abnf.Proofs.Engine.Outline
import Abnf.Proofs.Metagrammar.Notes

/-!
# What symbols promise

What the observer has noted after some events is right if every flaw about a delimiter stands at
that delimiter and all stray characters are accounted for. No symbol can keep that alone: where a
string was opened is remembered on a level that an outer symbol has entered, and whether stray
characters are the rest of a string is told by a flag that an element before them has raised. So
every symbol promises more, namely what it does to the levels and to the flag, given what it finds
when it begins.

* `pledge`: what each symbol promises.
* `plain_of_outline`: a symbol made of symbols that leave levels and flag alone does so too.
* `framed_of_outline`: a symbol made of elements leaves the flag down, and the levels around the
  innermost one alone.
-/

namespace Abnf.Metagrammar

open Engine

/-! ## Flaws and their places -/

/-- The delimiter that opens the construct a flaw is about. -/
def Flaw.delimiter? : Flaw → Option Char
  | unclosedGroup => some '('
  | unclosedOption => some '['
  | unclosedString => some '\x22'
  | unclosedCaseSensitiveString | extension .caseSensitiveString => some '\x27'
  | proseFound | unclosedProse => some '<'
  | _ => none

/-- The delimiter that a flaw is about, if it is about one, stands at the offset. -/
def Flaw.StandsAt (bytes : List UInt8) (offset : Nat) (flaw : Flaw) : Prop :=
  ∀ c, flaw.delimiter? = some c → bytes[offset]? = some c.toUInt8

theorem Flaw.standsAt_of_eq_none {flaw : Flaw} (h : flaw.delimiter? = none) {bytes : List UInt8}
    {offset : Nat} : flaw.StandsAt bytes offset := by
  intro c hc
  rw [h] at hc
  cases hc

/-- The flaws that account for stray characters in place of an element. -/
def strayFlaws : List Flaw :=
  [.unrecognizedElement, .unclosedString, .unclosedCaseSensitiveString, .unclosedProse]

/-- Stray characters at an offset are accounted for. -/
def Notes.Reports (notes : Notes) (offset : Nat) : Prop :=
  ∃ flaw ∈ strayFlaws, (offset, flaw) ∈ notes.flaws

/-- Stray characters have been matched in place of an element. -/
def FindsStray (event : Event) : Prop :=
  event.rule = Symbol.basicElementError.index ∧ (event.phase = .matched ∨ event.phase = .empty)

/-! ## Additions to the notes -/

namespace Notes

/-- The second notes have the flaws of the first, and those they have in addition stand at their
delimiters. -/
structure Adds (bytes : List UInt8) (notes notes' : Notes) : Prop where
  kept : ∀ entry ∈ notes.flaws, entry ∈ notes'.flaws
  located : ∀ entry ∈ notes'.flaws, entry ∈ notes.flaws ∨ entry.2.StandsAt bytes entry.1

variable {bytes : List UInt8} {notes notes' : Notes} {offset : Nat} {flaw : Flaw}

theorem Adds.of_flaws_eq (h : notes'.flaws = notes.flaws) : Adds bytes notes notes' := by
  refine ⟨fun entry hentry => ?_, fun entry hentry => .inl ?_⟩
  · rwa [h]
  · rwa [← h]

theorem Adds.note (h : flaw.StandsAt bytes offset) : Adds bytes notes (notes.note offset flaw) := by
  unfold Notes.note
  split
  · exact .of_flaws_eq rfl
  · refine ⟨fun entry hentry => Array.mem_push_of_mem _ hentry, fun entry hentry => ?_⟩
    rcases Array.mem_push.1 hentry with hentry | rfl
    · exact .inl hentry
    · exact .inr h

theorem Adds.noteUnclosed (h : flaw.StandsAt bytes offset) :
    Adds bytes notes (notes.noteUnclosed offset flaw) :=
  have hnote : Adds bytes (notes.modifyLevel fun level => { level with noted := true }) _ := .note h
  ⟨hnote.kept, hnote.located⟩

theorem Adds.reports (h : Adds bytes notes notes') (hreports : notes.Reports offset) :
    notes'.Reports offset := by
  obtain ⟨flaw, hflaw, hmem⟩ := hreports
  exact ⟨flaw, hflaw, h.kept _ hmem⟩

theorem mem_flaws_note : (offset, flaw) ∈ (notes.note offset flaw).flaws := by
  unfold Notes.note
  split
  · rename_i h
    exact Array.contains_iff_mem.1 h
  · exact Array.mem_push_self

@[simp] theorem levels_note : (notes.note offset flaw).levels = notes.levels := by
  unfold Notes.note
  split <;> rfl

end Notes

/-- Whether a symbol begins and ends without an effect on levels and on flaws that are about a
delimiter. -/
def Symbol.isInert : Symbol → Bool
  | file | rule | group | groupClose | option | optionClose | tlsOpen | tlsClose | clsOpen
  | clsClose | prosValOpen | prosValClose | basicElementError => false
  | _ => true

theorem Notes.adds_of_isInert {s : Symbol} (hs : s.isInert = true) (bytes : List UInt8)
    (notes : Notes) (phase : Phase) (offset : Nat) :
    (notes.observe s phase offset).levels = notes.levels ∧
      Adds bytes notes (notes.observe s phase offset) := by
  have hnote : ∀ {flaw : Flaw} (offset), flaw.delimiter? = none →
      (notes.note offset flaw).levels = notes.levels ∧ Adds bytes notes (notes.note offset flaw) :=
    fun offset hflaw => ⟨levels_note, .note (Flaw.standsAt_of_eq_none hflaw)⟩
  have hsame : ∀ {notes' : Notes}, notes'.levels = notes.levels → notes'.flaws = notes.flaws →
      notes'.levels = notes.levels ∧ Adds bytes notes notes' :=
    fun hlevels hflaws => ⟨hlevels, .of_flaws_eq hflaws⟩
  have hextension : ∀ {found : Extension}, (Flaw.extension found).delimiter? = none →
      (notes.noteExtension offset found).levels = notes.levels ∧
        Adds bytes notes (notes.noteExtension offset found) := by
    intro found hfound
    unfold noteExtension
    split
    · exact hnote offset hfound
    · exact hsame rfl rfl
  have htab : ∀ {flaw : Flaw}, flaw.delimiter? = none →
      (notes.noteTab flaw).levels = notes.levels ∧ Adds bytes notes (notes.noteTab flaw) := by
    intro flaw hflaw
    unfold noteTab
    split
    · exact hnote _ hflaw
    · exact hsame rfl rfl
  cases s <;> cases phase <;>
    first
      | exact hsame rfl rfl
      | exact hnote offset rfl
      | exact hextension rfl
      | exact htab rfl
      | cases hs

/-! ## Events and what is noted of them -/

section

variable {strict : Bool} {bytes : List UInt8} {pos : Nat} {result : Option Nat}
  {before middle after : List Event}

/-- What the observer has noted when it has seen some events. -/
def notesOf (strict : Bool) (events : List Event) : Notes :=
  events.foldl watch.see { strict := strict }

theorem notesOf_snoc (s : Symbol) (events : List Event) (phase : Phase) (offset length : Nat) :
    notesOf strict (events ++ [⟨s.index, phase, offset, length⟩]) =
      (notesOf strict events).observe s phase offset := by
  rw [notesOf, List.foldl_append, List.foldl_cons, List.foldl_nil, see_index]
  rfl

/-- The events when a symbol has begun at `pos`. -/
def Symbol.begun (s : Symbol) (pos : Nat) (events : List Event) : List Event :=
  events ++ [⟨s.index, .active, pos, 0⟩]

/-- The events when a symbol that was tried at `pos` has ended. -/
def Symbol.ended (s : Symbol) (pos : Nat) (result : Option Nat) (events : List Event) :
    List Event :=
  events ++ [⟨s.index, .ofResult result, pos, result.getD 0⟩]

theorem notesOf_begun (s : Symbol) (events : List Event) :
    notesOf strict (s.begun pos events) = (notesOf strict events).observe s .active pos :=
  notesOf_snoc s events .active pos 0

theorem notesOf_ended (s : Symbol) (events : List Event) :
    notesOf strict (s.ended pos result events) =
      (notesOf strict events).observe s (.ofResult result) pos :=
  notesOf_snoc s events _ pos _

/-- What is noted of some events is right: every flaw stands at its delimiter, and the stray
characters that were found are accounted for. -/
structure Sound (strict : Bool) (bytes : List UInt8) (events : List Event) : Prop where
  located : ∀ entry ∈ (notesOf strict events).flaws, entry.2.StandsAt bytes entry.1
  reported : ∀ event ∈ events, FindsStray event → (notesOf strict events).Reports event.offset

theorem Sound.snoc (h : Sound strict bytes before) {s : Symbol} {phase : Phase}
    {offset length : Nat}
    (hadds : Notes.Adds bytes (notesOf strict before)
      ((notesOf strict before).observe s phase offset))
    (hstray : s = .basicElementError → phase = .matched ∨ phase = .empty →
      ((notesOf strict before).observe s phase offset).Reports offset) :
    Sound strict bytes (before ++ [⟨s.index, phase, offset, length⟩]) := by
  refine ⟨fun entry hentry => ?_, fun event hevent hfinds => ?_⟩
  · rw [notesOf_snoc] at hentry
    exact (hadds.located entry hentry).elim (h.located entry) id
  · rw [notesOf_snoc]
    rcases List.mem_append.1 hevent with hevent | hevent
    · exact hadds.reports (h.reported event hevent hfinds)
    · obtain rfl := List.mem_singleton.1 hevent
      exact hstray (Symbol.index_inj.1 hfinds.1) hfinds.2

theorem Sound.begun (h : Sound strict bytes before) {s : Symbol}
    (hflaws : ((notesOf strict before).observe s .active pos).flaws =
      (notesOf strict before).flaws) : Sound strict bytes (s.begun pos before) :=
  h.snoc (.of_flaws_eq hflaws) fun _ hphase => by simp at hphase

theorem Sound.ended (h : Sound strict bytes before) {s : Symbol}
    (hadds : Notes.Adds bytes (notesOf strict before)
      ((notesOf strict before).observe s (.ofResult result) pos))
    (hs : s ≠ .basicElementError) : Sound strict bytes (s.ended pos result before) :=
  h.snoc hadds fun heq => absurd heq hs

theorem notesOf_ended_begun {s : Symbol}
    (hactive : ∀ notes : Notes, notes.observe s .active pos = notes) :
    notesOf strict (s.ended pos result (s.begun pos before)) =
      (notesOf strict before).observe s (.ofResult result) pos := by
  rw [notesOf_ended, notesOf_begun, hactive]

theorem Sound.ended_begun (h : Sound strict bytes before) {s : Symbol}
    (hactive : ∀ notes : Notes, notes.observe s .active pos = notes)
    (hadds : Notes.Adds bytes (notesOf strict before)
      ((notesOf strict before).observe s (.ofResult result) pos))
    (hstray : s = .basicElementError →
      Phase.ofResult result = .matched ∨ Phase.ofResult result = .empty →
      ((notesOf strict before).observe s (.ofResult result) pos).Reports pos) :
    Sound strict bytes (s.ended pos result (s.begun pos before)) := by
  refine (h.begun ?_).snoc ?_ ?_
  · rw [hactive]
  · rwa [notesOf_begun, hactive]
  · rwa [notesOf_begun, hactive]

/-! ### Effects -/

/-- The levels are as they were, what is noted is still right, and what is accounted for stays
so. -/
structure Plain (strict : Bool) (bytes : List UInt8) (before after : List Event) : Prop where
  levels : (notesOf strict after).levels = (notesOf strict before).levels
  sound : Sound strict bytes before → Sound strict bytes after
  reports : ∀ offset, (notesOf strict before).Reports offset → (notesOf strict after).Reports offset

theorem Plain.refl (events : List Event) : Plain strict bytes events events :=
  ⟨rfl, id, fun _ => id⟩

theorem Plain.trans (h : Plain strict bytes before middle) (h' : Plain strict bytes middle after) :
    Plain strict bytes before after :=
  ⟨h'.levels.trans h.levels, h'.sound ∘ h.sound, fun offset => h'.reports offset ∘ h.reports offset⟩

theorem plain_snoc {s : Symbol} (hs : s.isInert = true) (events : List Event) (phase : Phase)
    (offset length : Nat) :
    Plain strict bytes events (events ++ [⟨s.index, phase, offset, length⟩]) := by
  obtain ⟨hlevels, hadds⟩ := Notes.adds_of_isInert hs bytes (notesOf strict events) phase offset
  refine ⟨by rw [notesOf_snoc, hlevels], fun hsound => hsound.snoc hadds ?_, fun offset => ?_⟩
  · rintro rfl
    cases hs
  · rw [notesOf_snoc]
    exact hadds.reports

theorem plain_begun {s : Symbol} (hs : s.isInert = true) (events : List Event) :
    Plain strict bytes events (s.begun pos events) :=
  plain_snoc hs events .active pos 0

theorem plain_ended {s : Symbol} (hs : s.isInert = true) (events : List Event) :
    Plain strict bytes events (s.ended pos result events) :=
  plain_snoc hs events _ pos _

/-- Only the innermost level may have changed, but not its bracket; `P` holds of it, and what is
noted is still right. -/
abbrev Within (strict : Bool) (bytes : List UInt8) (level : Level) (outer : List Level)
    (P : Level → Prop) (before after : List Event) : Prop :=
  (∃ level', (notesOf strict after).levels = level' :: outer ∧ level'.bracket = level.bracket ∧
    P level') ∧
  (Sound strict bytes before → Sound strict bytes after)

/-- What happens inside a level whose flag is down. -/
def Frame (strict : Bool) (bytes : List UInt8) (P : Level → Prop) (before after : List Event) :
    Prop :=
  ∀ level outer, (notesOf strict before).levels = level :: outer → level.noted = false →
    Within strict bytes level outer P before after

/-- The flag is down again. -/
abbrev Framed (strict : Bool) (bytes : List UInt8) : List Event → List Event → Prop :=
  Frame strict bytes fun level => level.noted = false

theorem Frame.trans {P : Level → Prop} (h : Framed strict bytes before middle)
    (h' : Frame strict bytes P middle after) : Frame strict bytes P before after := by
  intro level outer hlevels hnoted
  obtain ⟨⟨level', hlevels', hbracket', hnoted'⟩, hsound⟩ := h level outer hlevels hnoted
  obtain ⟨⟨level'', hlevels'', hbracket'', hP⟩, hsound'⟩ := h' level' outer hlevels' hnoted'
  exact ⟨⟨level'', hlevels'', hbracket''.trans hbracket', hP⟩, hsound' ∘ hsound⟩

theorem Frame.trans_plain {P : Level → Prop} (h : Frame strict bytes P before middle)
    (h' : Plain strict bytes middle after) : Frame strict bytes P before after := by
  intro level outer hlevels hnoted
  obtain ⟨hframe, hsound⟩ := h level outer hlevels hnoted
  rw [← h'.levels] at hframe
  exact ⟨hframe, h'.sound ∘ hsound⟩

theorem Plain.framed (h : Plain strict bytes before after) : Framed strict bytes before after := by
  intro level outer hlevels hnoted
  exact ⟨⟨level, h.levels.trans hlevels, rfl, hnoted⟩, h.sound⟩

/-! ## Delimiters -/

/-- The constructs between delimiters that are no expressions. -/
inductive Quote where
  | string
  | caseSensitiveString
  | prose

namespace Quote

/-- The symbol of the construct. -/
def symbol : Quote → Symbol
  | string => .tlsOp
  | caseSensitiveString => .clsOp
  | prose => .prosVal

/-- The symbol of the opening delimiter. -/
def opening : Quote → Symbol
  | string => .tlsOpen
  | caseSensitiveString => .clsOpen
  | prose => .prosValOpen

/-- The symbol of what stands between the delimiters. -/
def content : Quote → Symbol
  | string => .tlsString
  | caseSensitiveString => .clsString
  | prose => .prosValString

/-- The symbol of the closing delimiter. -/
def closing : Quote → Symbol
  | string => .tlsClose
  | caseSensitiveString => .clsClose
  | prose => .prosValClose

/-- The opening delimiter. -/
def delimiter : Quote → Char
  | string => '\x22'
  | caseSensitiveString => '\x27'
  | prose => '<'

/-- The closing delimiter. -/
def closer : Quote → Char
  | string => '\x22'
  | caseSensitiveString => '\x27'
  | prose => '>'

/-- The flaw of a construct that does not close. -/
def unclosed : Quote → Flaw
  | string => .unclosedString
  | caseSensitiveString => .unclosedCaseSensitiveString
  | prose => .unclosedProse

/-- The level that remembers where the construct was opened. -/
def remember (quote : Quote) (offset : Nat) (level : Level) : Level :=
  match quote with
  | string => { level with string := offset }
  | caseSensitiveString => { level with caseSensitiveString := offset }
  | prose => { level with prose := offset }

/-- Where a level remembers that the construct was opened. -/
def remembered (quote : Quote) (level : Level) : Nat :=
  match quote with
  | string => level.string
  | caseSensitiveString => level.caseSensitiveString
  | prose => level.prose

variable {bytes : List UInt8} (quote : Quote) (notes : Notes) (offset : Nat)

theorem body_symbol : quote.symbol.body =
    .cat [ref quote.opening, ref quote.content, ref quote.closing] := by
  cases quote <;> rfl

theorem observe_opening_active : notes.observe quote.opening .active offset = notes := by
  cases quote <;> rfl

theorem observe_opening_failed : notes.observe quote.opening .failed offset = notes := by
  cases quote <;> rfl

theorem observe_opening_matched : notes.observe quote.opening .matched offset =
    notes.modifyLevel (quote.remember offset) := by
  cases quote <;> rfl

theorem observe_closing_active : notes.observe quote.closing .active offset = notes := by
  cases quote <;> rfl

theorem observe_closing_failed : notes.observe quote.closing .failed offset =
    notes.noteUnclosed (quote.remembered notes.level) quote.unclosed := by
  cases quote <;> rfl

theorem standsAt_unclosed (h : bytes[offset]? = some quote.delimiter.toUInt8) :
    quote.unclosed.StandsAt bytes offset := by
  intro c hc
  cases quote <;> cases hc <;> exact h

end Quote

/-- The constructs between delimiters that hold expressions. -/
inductive Bracket where
  | group
  | option

namespace Bracket

/-- The symbol of the construct. -/
def symbol : Bracket → Symbol
  | group => .group
  | option => .option

/-- The symbol of the opening delimiter. -/
def opening : Bracket → Symbol
  | group => .groupOpen
  | option => .optionOpen

/-- The symbol of the closing delimiter. -/
def closing : Bracket → Symbol
  | group => .groupClose
  | option => .optionClose

/-- The symbol of the stray characters in place of the closing delimiter. -/
def error : Bracket → Symbol
  | group => .groupError
  | option => .optionError

/-- The opening delimiter. -/
def delimiter : Bracket → Char
  | group => '('
  | option => '['

/-- The flaw of a construct that does not close. -/
def unclosed : Bracket → Flaw
  | group => .unclosedGroup
  | option => .unclosedOption

variable {bytes : List UInt8} (bracket : Bracket) (notes : Notes) (offset : Nat)

theorem body_symbol : bracket.symbol.body = .cat [ref bracket.opening, ref .alternation,
    .alt [ref bracket.closing, ref bracket.error]] := by
  cases bracket <;> rfl

theorem body_opening : bracket.opening.body = .cat [chars [bracket.delimiter], ref .owsp] := by
  cases bracket <;> rfl

theorem observe_symbol_active : notes.observe bracket.symbol .active offset =
    notes.enterLevel offset := by
  cases bracket <;> rfl

theorem observe_symbol_ofResult (result : Option Nat) :
    notes.observe bracket.symbol (.ofResult result) offset = notes.leaveLevel := by
  rcases result with _ | _ | _ <;> cases bracket <;> rfl

theorem observe_closing_active : notes.observe bracket.closing .active offset = notes := by
  cases bracket <;> rfl

theorem observe_closing_some (n : Nat) :
    notes.observe bracket.closing (.ofResult (some n)) offset = notes := by
  cases n <;> cases bracket <;> rfl

theorem observe_closing_failed : notes.observe bracket.closing .failed offset =
    notes.note notes.level.bracket bracket.unclosed := by
  cases bracket <;> rfl

theorem standsAt_unclosed (h : bytes[offset]? = some bracket.delimiter.toUInt8) :
    bracket.unclosed.StandsAt bytes offset := by
  intro c hc
  cases bracket <;> cases hc <;> exact h

end Bracket

/-! ## Promises -/

/-- A construct between quotes begins at a position. -/
def BeginsQuote (bytes : List UInt8) (pos : Nat) : Prop :=
  ∃ quote : Quote, bytes[pos]? = some quote.delimiter.toUInt8

/-- The flag of a level is up only if an element at `pos` did not match because it began with a
quote that does not close. -/
def Excused (strict : Bool) (bytes : List UInt8) (pos : Nat) (result : Option Nat)
    (after : List Event) (level : Level) : Prop :=
  level.noted = true →
    result = none ∧ BeginsQuote bytes pos ∧ (notesOf strict after).Reports pos

theorem excused_of_down {level : Level} (h : level.noted = false) :
    Excused strict bytes pos result after level := by
  intro hup
  rw [h] at hup
  cases hup

/-- What an element at `pos` has done. -/
abbrev Tried (strict : Bool) (bytes : List UInt8) (pos : Nat) (before : List Event)
    (result : Option Nat) (after : List Event) : Prop :=
  Frame strict bytes (Excused strict bytes pos result after) before after

/-- What a symbol between quotes has done: without its delimiter it does not match. -/
def Quoted (strict : Bool) (bytes : List UInt8) (quote : Quote) (pos : Nat) (before : List Event)
    (result : Option Nat) (after : List Event) : Prop :=
  if bytes[pos]? = some quote.delimiter.toUInt8 then Tried strict bytes pos before result after
  else result = none ∧ Plain strict bytes before after

/-- The symbol begins and ends at `pos`, and nothing happens in between. -/
def Silent (s : Symbol) (pos : Nat) (before : List Event) (result : Option Nat)
    (after : List Event) : Prop :=
  after = s.ended pos result (s.begun pos before)

/-- What a symbol of one character has done: it matches that character. -/
def Exact (bytes : List UInt8) (s : Symbol) (c : Char) (pos : Nat) (before : List Event)
    (result : Option Nat) (after : List Event) : Prop :=
  result = (if bytes[pos]? = some c.toUInt8 then some 1 else none) ∧
    Silent s pos before result after

/-- What stray characters have done: they match where a construct between quotes begins. -/
def Stray (bytes : List UInt8) (pos : Nat) (before : List Event) (result : Option Nat)
    (after : List Event) : Prop :=
  result ≠ some 0 ∧ (BeginsQuote bytes pos → result.isSome = true) ∧
    Silent .basicElementError pos before result after

/-- What an opening bracket has done. -/
def Opens (strict : Bool) (bytes : List UInt8) (bracket : Bracket) (pos : Nat)
    (before : List Event) (result : Option Nat) (after : List Event) : Prop :=
  (result.isSome = true → bytes[pos]? = some bracket.delimiter.toUInt8) ∧
    Plain strict bytes before after

/-- What a closing bracket has done: if it is not there, the opening one is remembered. -/
def Closes (strict : Bool) (bytes : List UInt8) (bracket : Bracket) (before after : List Event) :
    Prop :=
  (notesOf strict after).levels = (notesOf strict before).levels ∧
    (bytes[(notesOf strict before).level.bracket]? = some bracket.delimiter.toUInt8 →
      Sound strict bytes before → Sound strict bytes after)

/-- What a symbol that is tried at `pos` has done. -/
def pledge (strict : Bool) (bytes : List UInt8) (s : Symbol) (pos : Nat) (before : List Event)
    (result : Option Nat) (after : List Event) : Prop :=
  match s with
  | .file | .rule => Sound strict bytes before → Sound strict bytes after
  | .alternation | .concatenation | .repetition | .group | .option =>
    Framed strict bytes before after
  | .basicElement => Tried strict bytes pos before result after
  | .basicElementError => Stray bytes pos before result after
  | .groupOpen => Opens strict bytes .group pos before result after
  | .optionOpen => Opens strict bytes .option pos before result after
  | .groupClose => Closes strict bytes .group before after
  | .optionClose => Closes strict bytes .option before after
  | .tlsOp => Quoted strict bytes .string pos before result after
  | .clsOp => Quoted strict bytes .caseSensitiveString pos before result after
  | .prosVal => Quoted strict bytes .prose pos before result after
  | .tlsOpen | .tlsClose => Exact bytes s '\x22' pos before result after
  | .clsOpen | .clsClose => Exact bytes s '\x27' pos before result after
  | .prosValOpen => Exact bytes s '<' pos before result after
  | .prosValClose => Exact bytes s '>' pos before result after
  | _ => Plain strict bytes before after

/-- Whether a symbol pledges to leave levels and flaws as they are. -/
def Symbol.keepsLevels : Symbol → Bool
  | file | rule | alternation | concatenation | repetition | group | option | basicElement
  | basicElementError | groupOpen | optionOpen | groupClose | optionClose | tlsOp | clsOp | prosVal
  | tlsOpen | tlsClose | clsOpen | clsClose | prosValOpen | prosValClose => false
  | _ => true

theorem pledge_of_keepsLevels {s : Symbol} (hs : s.keepsLevels = true) :
    pledge strict bytes s pos before result after ↔ Plain strict bytes before after := by
  cases s <;> first | exact Iff.rfl | cases hs

theorem pledge_quote {quote : Quote} : pledge strict bytes quote.symbol pos before result after ↔
    Quoted strict bytes quote pos before result after := by
  cases quote <;> exact Iff.rfl

theorem pledge_opening {quote : Quote} :
    pledge strict bytes quote.opening pos before result after ↔
      Exact bytes quote.opening quote.delimiter pos before result after := by
  cases quote <;> exact Iff.rfl

theorem pledge_content {quote : Quote} :
    pledge strict bytes quote.content pos before result after ↔
      Plain strict bytes before after := by
  cases quote <;> exact Iff.rfl

theorem pledge_opens {bracket : Bracket} :
    pledge strict bytes bracket.opening pos before result after ↔
      Opens strict bytes bracket pos before result after := by
  cases bracket <;> exact Iff.rfl

theorem pledge_closes {bracket : Bracket} :
    pledge strict bytes bracket.closing pos before result after ↔
      Closes strict bytes bracket before after := by
  cases bracket <;> exact Iff.rfl

theorem pledge_closing {quote : Quote} :
    pledge strict bytes quote.closing pos before result after ↔
      Exact bytes quote.closing quote.closer pos before result after := by
  cases quote <;> exact Iff.rfl

/-- What the rules of the metagrammar promise. -/
def promise (strict : Bool) (bytes : List UInt8) : Promise :=
  fun rule pos before result after =>
    ∀ s, Symbol.ofIndex? rule = some s → pledge strict bytes s pos before result after

/-- Of a symbol that is tried its pledge is known. -/
theorem pledge_of_outline {s : Symbol}
    (h : Outline (promise strict bytes) bytes (ref s) pos before result after) :
    pledge strict bytes s pos before result after :=
  h.promise_of_rule s (Symbol.ofIndex?_index s)

theorem plain_of_outline {e : Expr Opcode}
    (h : Outline (promise strict bytes) bytes e pos before result after)
    (he : e.isRunnable (among Symbol.keepsLevels) = true) : Plain strict bytes before after := by
  refine h.keeps .refl .trans (fun hknown hpromise => ?_) he
  obtain ⟨s, hs, hplain⟩ := (Option.any_eq_true ..).1 hknown
  exact (pledge_of_keepsLevels hplain).1 (hpromise s hs)

/-- Whether a symbol is made of elements. -/
def Symbol.isMadeOfElements : Symbol → Bool
  | alternation | concatenation | repetition | group | option => true
  | _ => false

theorem framed_of_outline {e : Expr Opcode}
    (h : Outline (promise strict bytes) bytes e pos before result after)
    (he : e.isRunnable (among fun s => s.isMadeOfElements || s.keepsLevels) = true) :
    Framed strict bytes before after := by
  refine h.keeps (fun events => (Plain.refl events).framed) Frame.trans
    (fun hknown hpromise => ?_) he
  obtain ⟨s, hs, hknown⟩ := (Option.any_eq_true ..).1 hknown
  rcases Bool.or_eq_true_iff.1 hknown with helements | hplain
  · have hpledge := hpromise s hs
    cases s <;> first | exact hpledge | cases helements
  · exact ((pledge_of_keepsLevels hplain).1 (hpromise s hs)).framed

end

end Abnf.Metagrammar
