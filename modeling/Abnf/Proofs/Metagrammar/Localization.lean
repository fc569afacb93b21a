import Abnf.Proofs.Metagrammar.Promises
import Abnf.Proofs.Metagrammar.Trial

/-!
# Flaws are noted where they are

Every symbol keeps its promise, also in alternatives that are given up and in text that is matched
again. A bracket enters a level of its own and leaves it however it ends, so that the levels are
balanced at any depth. The flag of a level goes up only where an element begins with a quote that
does not close; none of the elements that are tried there next can match, and the stray characters
that match at the same place take the flag down again. So the flag never hides another mistake.

* `keeps_promise`: every symbol keeps its promise.
* `sound_of_run`: what is noted of the run of a file is right.
* `Flaw.message_injective`: a flaw can be told from its message.
* `flaws_localized`: diagnostics about delimiters are given where these stand, stray characters are
  never passed over, and no diagnostic is given twice.
-/

namespace Abnf.Metagrammar

open Engine

variable {strict : Bool} {bytes : List UInt8} {pos : Nat} {result : Option Nat}
  {before after : List Event}

/-! ## Characters -/

theorem toUInt32_eq_val_iff {byte : UInt8} {c : Char} (hc : c.toNat < 256) :
    byte.toUInt32 = c.val ↔ byte = c.toUInt8 := by
  constructor
  · intro h
    rw [Char.toUInt8, ← h, UInt8.toUInt8_toUInt32]
  · rintro rfl
    rw [← UInt32.toNat_inj, UInt8.toNat_toUInt32, Char.toUInt8, UInt32.toNat_toUInt8]
    exact Nat.mod_eq_of_lt hc

/-- One character matches where it stands. -/
theorem outline_chars {c : Char} (hc : c.toNat < 256)
    (h : Outline (promise strict bytes) bytes (chars [c]) pos before result after) :
    result = (if bytes[pos]? = some c.toUInt8 then some 1 else none) ∧ after = before := by
  cases h with
  | leaf h =>
    refine ⟨?_, rfl⟩
    rw [leafResult?, Option.some.injEq] at h
    rw [← h, ← List.head?_drop]
    cases bytes.drop pos with
    | nil => rfl
    | cons byte rest =>
      simp [literalResult, beginsWith, toUInt32_eq_val_iff hc]

theorem exact_of_outline {s : Symbol} {c : Char} (hs : s.body = chars [c]) (hc : c.toNat < 256)
    (h : Outline (promise strict bytes) bytes s.body pos (s.begun pos before) result after) :
    Exact bytes s c pos before result (s.ended pos result after) := by
  rw [hs] at h
  obtain ⟨hresult, rfl⟩ := outline_chars hc h
  exact ⟨hresult, rfl⟩

theorem eq_of_exact {c : Char} {n : Nat}
    (h : some n = if bytes[pos]? = some c.toUInt8 then some 1 else none) :
    bytes[pos]? = some c.toUInt8 ∧ n = 1 := by
  split at h
  · exact ⟨‹_›, Option.some.inj h⟩
  · cases h

theorem ne_of_exact {c : Char} (h : none = if bytes[pos]? = some c.toUInt8 then some 1 else none) :
    ¬ bytes[pos]? = some c.toUInt8 := by
  intro hbyte
  rw [if_pos hbyte] at h
  cases h

/-! ## Plain symbols -/

theorem isInert_of_keepsLevels {s : Symbol} (hs : s.keepsLevels = true) : s.isInert = true := by
  cases s <;> first | rfl | cases hs

theorem isRunnable_of_keepsLevels {s : Symbol} (hs : s.keepsLevels = true) :
    s.body.isRunnable (among Symbol.keepsLevels) = true := by
  cases s <;> first | rfl | cases hs

theorem Plain.around {s : Symbol} (hs : s.isInert = true)
    (h : Plain strict bytes (s.begun pos before) after) :
    Plain strict bytes before (s.ended pos result after) :=
  ((plain_begun hs before).trans h).trans (plain_ended hs after)

theorem Framed.around {s : Symbol} (hs : s.isInert = true)
    (h : Framed strict bytes (s.begun pos before) after) :
    Framed strict bytes before (s.ended pos result after) :=
  (Frame.trans (plain_begun hs before).framed h).trans_plain (plain_ended hs after)

theorem Tried.around {s : Symbol} (hs : s.isInert = true)
    (h : Tried strict bytes pos (s.begun pos before) result after) :
    Tried strict bytes pos before result (s.ended pos result after) := by
  have hended : Plain strict bytes after (s.ended pos result after) := plain_ended hs after
  intro level outer hlevels hnoted
  obtain ⟨⟨level', hlevels', hbracket, htried⟩, hsound⟩ :=
    Frame.trans (plain_begun hs before).framed h level outer hlevels hnoted
  refine ⟨⟨level', hended.levels.trans hlevels', hbracket, fun hup => ?_⟩, hended.sound ∘ hsound⟩
  obtain ⟨hresult, hquote, hreports⟩ := htried hup
  exact ⟨hresult, hquote, hended.reports pos hreports⟩

/-! ## Quotes -/

namespace Quote

variable (quote : Quote) {level : Level} {outer : List Level}

theorem opening_ne : quote.opening ≠ .basicElementError := by
  cases quote <;> decide

theorem closing_ne : quote.closing ≠ .basicElementError := by
  cases quote <;> decide

theorem remembered_remember : quote.remembered (quote.remember pos level) = pos := by
  cases quote <;> rfl

theorem remember_eq (pos : Nat) (level : Level) :
    (quote.remember pos level).bracket = level.bracket ∧
    (quote.remember pos level).noted = level.noted := by
  cases quote <;> exact ⟨rfl, rfl⟩

/-- Where the opening delimiter does not stand nothing happens. -/
theorem not_opened (h : Silent quote.opening pos before none after) :
    Plain strict bytes before after := by
  have hactive := fun notes => quote.observe_opening_active notes pos
  have hfailed : (notesOf strict before).observe quote.opening (.ofResult none) pos =
      notesOf strict before :=
    quote.observe_opening_failed _ pos
  have hnotes : notesOf strict after = notesOf strict before := by
    rw [h, notesOf_ended_begun hactive, hfailed]
  refine ⟨by rw [hnotes], fun hsound => ?_, by rw [hnotes]; exact fun _ => id⟩
  rw [h]
  refine hsound.ended_begun hactive ?_ quote.opening_ne.elim
  rw [hfailed]
  exact .of_flaws_eq rfl

/-- The opening delimiter is remembered on the innermost level. -/
theorem opened (h : Silent quote.opening pos before (some 1) after)
    (hlevels : (notesOf strict before).levels = level :: outer) :
    (notesOf strict after).levels = quote.remember pos level :: outer ∧
      (Sound strict bytes before → Sound strict bytes after) := by
  have hactive := fun notes => quote.observe_opening_active notes pos
  have hmatched : (notesOf strict before).observe quote.opening (.ofResult (some 1)) pos =
      (notesOf strict before).modifyLevel (quote.remember pos) :=
    quote.observe_opening_matched _ pos
  rw [h]
  refine ⟨?_, fun hsound => hsound.ended_begun hactive ?_ quote.opening_ne.elim⟩
  · rw [notesOf_ended_begun hactive, hmatched, Notes.modifyLevel, Notes.level, hlevels]
    rfl
  · rw [hmatched]
    exact .of_flaws_eq rfl

/-- Where the closing delimiter is missing, the opening one is noted and the flag goes up. -/
theorem left_open {p : Nat} (h : Silent quote.closing p before none after)
    (hlevels : (notesOf strict before).levels = level :: outer)
    (hremembered : quote.remembered level = pos)
    (hbyte : bytes[pos]? = some quote.delimiter.toUInt8) :
    (notesOf strict after).levels = { level with noted := true } :: outer ∧
      (notesOf strict after).Reports pos ∧
      (Sound strict bytes before → Sound strict bytes after) := by
  have hactive := fun notes => quote.observe_closing_active notes p
  have hfailed : (notesOf strict before).observe quote.closing (.ofResult none) p =
      (notesOf strict before).noteUnclosed pos quote.unclosed := by
    refine (quote.observe_closing_failed _ p).trans ?_
    rw [Notes.level, hlevels, List.headD_cons, hremembered]
  rw [h, (notesOf_ended_begun hactive).trans hfailed]
  refine ⟨?_, ?_, fun hsound => hsound.ended_begun hactive ?_ quote.closing_ne.elim⟩
  · rw [Notes.noteUnclosed, Notes.levels_note, Notes.modifyLevel, Notes.level, hlevels]
    rfl
  · exact ⟨quote.unclosed, by cases quote <;> decide, Notes.mem_flaws_note⟩
  · rw [hfailed]
    exact .noteUnclosed (quote.standsAt_unclosed pos hbyte)

/-- Where the closing delimiter stands, what there is to note is noted at the opening one. -/
theorem closed {p : Nat} (h : Silent quote.closing p before (some 1) after)
    (hlevels : (notesOf strict before).levels = level :: outer)
    (hremembered : quote.remembered level = pos)
    (hbyte : bytes[pos]? = some quote.delimiter.toUInt8) :
    (notesOf strict after).levels = level :: outer ∧
      (Sound strict bytes before → Sound strict bytes after) := by
  have hactive := fun notes => quote.observe_closing_active notes p
  have hadds : ((notesOf strict before).observe quote.closing .matched p).levels = level :: outer ∧
      Notes.Adds bytes (notesOf strict before)
        ((notesOf strict before).observe quote.closing .matched p) := by
    rw [← hlevels]
    have hthere : bytes[quote.remembered (notesOf strict before).level]? =
        some quote.delimiter.toUInt8 := by
      rwa [Notes.level, hlevels, List.headD_cons, hremembered]
    cases quote with
    | string => exact ⟨rfl, .of_flaws_eq rfl⟩
    | caseSensitiveString =>
      simp only [closing, Notes.observe, Notes.noteExtension]
      split
      · refine ⟨Notes.levels_note, .note fun c hc => ?_⟩
        cases hc
        exact hthere
      · exact ⟨rfl, .of_flaws_eq rfl⟩
    | prose =>
      refine ⟨Notes.levels_note, .note fun c hc => ?_⟩
      cases hc
      exact hthere
  rw [h, notesOf_ended_begun hactive]
  exact ⟨hadds.1, fun hsound => hsound.ended_begun hactive hadds.2 quote.closing_ne.elim⟩

theorem quoted_of_outline
    (h : Outline (promise strict bytes) bytes quote.symbol.body pos (quote.symbol.begun pos before)
      result after) :
    Quoted strict bytes quote pos before result (quote.symbol.ended pos result after) := by
  have hinert : quote.symbol.isInert = true := by cases quote <;> rfl
  rw [quote.body_symbol] at h
  -- The parts of a quoted string in turn: its opening is remembered on the level until the closing
  -- is tried, which either forgets it or reports where it stands.
  cases h with
  | catMiss hopen =>
    obtain ⟨hresult, hsilent⟩ := pledge_opening.1 (pledge_of_outline hopen)
    rw [Quoted, if_neg (ne_of_exact hresult)]
    exact ⟨rfl, Plain.around hinert (quote.not_opened hsilent)⟩
  | catNext hopen hrest =>
    obtain ⟨hresult, hsilent⟩ := pledge_opening.1 (pledge_of_outline hopen)
    obtain ⟨hbyte, rfl⟩ := eq_of_exact hresult
    rw [Quoted, if_pos hbyte]
    refine Tried.around hinert fun level outer hlevels hnoted => ?_
    obtain ⟨hlevels, hsound⟩ := quote.opened hsilent hlevels
    obtain ⟨hbracket, hdown⟩ := quote.remember_eq pos level
    rw [hnoted] at hdown
    cases hrest with
    | catMiss hcontent =>
      have hplain := pledge_content.1 (pledge_of_outline hcontent)
      exact ⟨⟨_, hplain.levels.trans hlevels, hbracket, excused_of_down hdown⟩,
        hplain.sound ∘ hsound⟩
    | catNext hcontent hrest =>
      have hplain := pledge_content.1 (pledge_of_outline hcontent)
      have hlevels := hplain.levels.trans hlevels
      cases hrest with
      | catMiss hclose =>
        obtain ⟨-, hsilent⟩ := pledge_closing.1 (pledge_of_outline hclose)
        obtain ⟨hlevels, hreports, hsound'⟩ :=
          quote.left_open hsilent hlevels quote.remembered_remember hbyte
        exact ⟨⟨_, hlevels, hbracket, fun _ => ⟨rfl, ⟨quote, hbyte⟩, hreports⟩⟩,
          hsound' ∘ hplain.sound ∘ hsound⟩
      | catNext hclose hnil =>
        obtain ⟨hresult, hsilent⟩ := pledge_closing.1 (pledge_of_outline hclose)
        obtain ⟨-, rfl⟩ := eq_of_exact hresult
        cases hnil
        obtain ⟨hlevels, hsound'⟩ := quote.closed hsilent hlevels quote.remembered_remember hbyte
        exact ⟨⟨_, hlevels, hbracket, excused_of_down hdown⟩,
          hsound' ∘ hplain.sound ∘ hsound⟩

end Quote

/-! ## Elements -/

section

variable {middle : List Event} {level : Level} {outer : List Level}

theorem Framed.tried (h : Framed strict bytes before after) :
    Tried strict bytes pos before result after := by
  intro level outer hlevels hnoted
  obtain ⟨⟨level', hlevels', hbracket, hdown⟩, hsound⟩ := h level outer hlevels hnoted
  exact ⟨⟨level', hlevels', hbracket, excused_of_down hdown⟩, hsound⟩

theorem Tried.framed {n : Nat} (h : Tried strict bytes pos before (some n) after) :
    Framed strict bytes before after := by
  intro level outer hlevels hnoted
  obtain ⟨⟨level', hlevels', hbracket, htried⟩, hsound⟩ := h level outer hlevels hnoted
  refine ⟨⟨level', hlevels', hbracket, Bool.eq_false_iff.2 fun hup => ?_⟩, hsound⟩
  cases (htried hup).1

/-- Quotes that begin with different delimiters: once the flag is up none of those that are left
begins here, so that no other element matches while it is up. -/
theorem tried_of_quotes {quotes : List Quote}
    (hdistinct : (quotes.map fun quote => quote.delimiter.toUInt8).Nodup)
    (h : Outline (promise strict bytes) bytes (.alt (quotes.map fun quote => ref quote.symbol)) pos
      before result after)
    (hlevels : (notesOf strict before).levels = level :: outer)
    (hup : level.noted = true → BeginsQuote bytes pos ∧ (notesOf strict before).Reports pos ∧
      ∀ quote ∈ quotes, bytes[pos]? ≠ some quote.delimiter.toUInt8) :
    Within strict bytes level outer (Excused strict bytes pos result after) before after := by
  induction quotes generalizing before level with
  | nil =>
    cases h
    exact ⟨⟨level, hlevels, rfl, fun hnoted => ⟨rfl, (hup hnoted).1, (hup hnoted).2.1⟩⟩, id⟩
  | cons quote quotes ih =>
    rw [List.map_cons, List.nodup_cons] at hdistinct
    by_cases hbyte : bytes[pos]? = some quote.delimiter.toUInt8
    · have hdown : level.noted = false := Bool.eq_false_iff.2 fun hnoted =>
        (hup hnoted).2.2 quote List.mem_cons_self hbyte
      cases h with
      | altHit hquote =>
        have htried := pledge_quote.1 (pledge_of_outline hquote)
        rw [Quoted, if_pos hbyte] at htried
        exact htried level outer hlevels hdown
      | altMiss hquote hrest =>
        have htried := pledge_quote.1 (pledge_of_outline hquote)
        rw [Quoted, if_pos hbyte] at htried
        obtain ⟨⟨level', hlevels', hbracket, hup'⟩, hsound⟩ := htried level outer hlevels hdown
        -- This quote may have raised the flag; the others begin with other delimiters.
        obtain ⟨⟨level'', hlevels'', hbracket', hup''⟩, hsound'⟩ :=
          ih hdistinct.2 hrest hlevels' fun hnoted => by
            obtain ⟨-, hbegins, hreports⟩ := hup' hnoted
            refine ⟨hbegins, hreports, fun other hother hother' => hdistinct.1 ?_⟩
            rw [← Option.some.inj (hother'.symm.trans hbyte)]
            exact List.mem_map_of_mem hother
        exact ⟨⟨level'', hlevels'', hbracket'.trans hbracket, hup''⟩, hsound' ∘ hsound⟩
    · cases h with
      | altHit hquote =>
        have hplain := pledge_quote.1 (pledge_of_outline hquote)
        rw [Quoted, if_neg hbyte] at hplain
        cases hplain.1
      | altMiss hquote hrest =>
        have hplain := pledge_quote.1 (pledge_of_outline hquote)
        rw [Quoted, if_neg hbyte] at hplain
        obtain ⟨hframe, hsound⟩ :=
          ih hdistinct.2 hrest (hplain.2.levels.trans hlevels) fun hnoted => by
            obtain ⟨hbegins, hreports, hothers⟩ := hup hnoted
            exact ⟨hbegins, hplain.2.reports pos hreports,
              fun other hother => hothers other (List.mem_cons_of_mem _ hother)⟩
        exact ⟨hframe, hsound ∘ hplain.2.sound⟩

theorem tried_basicElement
    (h : Outline (promise strict bytes) bytes Symbol.basicElement.body pos
      (Symbol.basicElement.begun pos before) result after) :
    Tried strict bytes pos before result (Symbol.basicElement.ended pos result after) := by
  refine Tried.around rfl ?_
  have h : Outline (promise strict bytes) bytes
      (.alt ([ref .udtOp, ref .rnmOp, ref .trgOp, ref .tbsOp, ref .abgOp, ref .aenOp, ref .bkrOp] ++
        [Quote.string, .caseSensitiveString, .prose].map fun quote => ref quote.symbol)) pos
      (Symbol.basicElement.begun pos before) result after := h
  obtain ⟨-, hplain⟩ | ⟨middle, hplain, hquotes⟩ := h.alt_append
  · exact (plain_of_outline hplain rfl).framed.tried
  · refine Frame.trans (plain_of_outline hplain rfl).framed fun level outer hlevels hnoted => ?_
    exact tried_of_quotes (by decide) hquotes hlevels fun hup => by rw [hnoted] at hup; cases hup

theorem not_fails_range {a b : Char} {byte : UInt8} {rest : List UInt8}
    (hlow : a.val ≤ byte.toUInt32) (hhigh : byte.toUInt32 ≤ b.val) {allowed : Event → Prop} :
    ¬ Fails scheme allowed (range a b) pos (byte :: rest) := by
  rintro ⟨events, hrun, -⟩
  cases hrun with
  | leaf h => simp [leafResult?, rangeResult, hlow, hhigh] at h

/-- Stray characters match where a quote begins. -/
theorem not_fails_strayCharacters (hquote : BeginsQuote bytes pos) :
    ¬ Fails scheme (fun _ => True) strayCharacters pos (bytes.drop pos) := by
  obtain ⟨quote, hbyte⟩ := hquote
  rw [← List.head?_drop] at hbyte
  obtain ⟨rest, hrest⟩ := List.head?_eq_some_iff.1 hbyte
  intro hfails
  rw [strayCharacters, oneOrMore, fails_oneOrMore_iff, hrest] at hfails
  simp only [fails_alt_cons_iff] at hfails
  cases quote with
  | string | caseSensitiveString => exact not_fails_range (by decide) (by decide) hfails.1
  | prose => exact not_fails_range (by decide) (by decide) hfails.2.2.1

theorem stray_of_outline {nodes : List Node} {events : List Event}
    (hrun : Run scheme Symbol.basicElementError.body pos (bytes.drop pos) result nodes events)
    (h : Outline (promise strict bytes) bytes Symbol.basicElementError.body pos
      (Symbol.basicElementError.begun pos before) result after) :
    Stray bytes pos before result (Symbol.basicElementError.ended pos result after) := by
  refine ⟨?_, fun hquote => ?_, by rw [h.eq_of_leaves rfl]; rfl⟩
  · rintro rfl
    exact absurd (Run.isNullable descends.closed hrun) (by decide)
  · cases result with
    | some n => rfl
    | none =>
      cases hrun.nodes_eq_nil
      exact absurd ⟨events, hrun, fun _ _ => trivial⟩ (not_fails_strayCharacters hquote)

/-- Stray characters take the flag down again, or are noted themselves. -/
theorem Tried.framed_stray (h : Tried strict bytes pos before none middle)
    (hstray : Stray bytes pos middle result after) : Framed strict bytes before after := by
  intro level outer hlevels hnoted
  obtain ⟨⟨level', hlevels', hbracket, hup⟩, hsound⟩ := h level outer hlevels hnoted
  obtain ⟨hzero, hquote, rfl⟩ := hstray
  have hactive : ∀ notes : Notes, notes.observe .basicElementError .active pos = notes :=
    fun _ => rfl
  have hlevel : (notesOf strict middle).level = level' := by
    rw [Notes.level, hlevels']
    rfl
  rw [Within, notesOf_ended_begun hactive]
  rcases result with _ | _ | n
  · -- Stray characters would have matched the quote that raised the flag.
    have hdown : level'.noted = false := by
      refine Bool.eq_false_iff.2 fun hnoted' => ?_
      cases hquote (hup hnoted').2.1
    refine ⟨⟨level', hlevels', hbracket, hdown⟩, fun hs =>
      (hsound hs).ended_begun hactive (.of_flaws_eq rfl) fun _ hphase => ?_⟩
    simp [Phase.ofResult] at hphase
  · exact absurd rfl hzero
  · cases hflag : level'.noted with
    | true =>
      have hseen :
          (notesOf strict middle).observe .basicElementError (.ofResult (some (n + 1))) pos =
            (notesOf strict middle).modifyLevel fun level => { level with noted := false } := by
        simp [Notes.observe, Phase.ofResult, hlevel, hflag]
      obtain ⟨-, -, hreports⟩ := hup hflag
      rw [hseen]
      refine ⟨⟨{ level' with noted := false }, ?_, hbracket, rfl⟩, fun hs =>
        (hsound hs).ended_begun hactive ?_ fun _ _ => ?_⟩
      · rw [Notes.modifyLevel, hlevel, hlevels']
        rfl
      · rw [hseen]
        exact .of_flaws_eq rfl
      · rw [hseen]
        exact hreports
    | false =>
      have hseen :
          (notesOf strict middle).observe .basicElementError (.ofResult (some (n + 1))) pos =
            (notesOf strict middle).note pos .unrecognizedElement := by
        simp [Notes.observe, Phase.ofResult, hlevel, hflag]
      rw [hseen]
      refine ⟨⟨level', Notes.levels_note.trans hlevels', hbracket, hflag⟩, fun hs =>
        (hsound hs).ended_begun hactive ?_ fun _ _ => ?_⟩
      · rw [hseen]
        exact .note (Flaw.standsAt_of_eq_none rfl)
      · rw [hseen]
        exact ⟨.unrecognizedElement, by decide, Notes.mem_flaws_note⟩

theorem framed_element
    (h : Outline (promise strict bytes) bytes
      (.alt [ref .group, ref .option, ref .basicElement, ref .basicElementError]) pos before result
      after) : Framed strict bytes before after := by
  have h : Outline (promise strict bytes) bytes
      (.alt ([ref .group, ref .option] ++ [ref .basicElement, ref .basicElementError])) pos before
      result after := h
  obtain ⟨-, hnested⟩ | ⟨middle, hnested, hrest⟩ := h.alt_append
  · exact framed_of_outline hnested rfl
  · refine Frame.trans (framed_of_outline hnested rfl) ?_
    cases hrest with
    | altHit helement =>
      have htried : Tried strict bytes pos middle _ after := pledge_of_outline helement
      exact htried.framed
    | altMiss helement hrest =>
      have htried : Tried strict bytes pos middle none _ := pledge_of_outline helement
      cases hrest with
      | altHit hstray => exact htried.framed_stray (pledge_of_outline hstray)
      | altMiss hstray hnil =>
        cases hnil
        exact htried.framed_stray (pledge_of_outline hstray)

theorem framed_repetition
    (h : Outline (promise strict bytes) bytes Symbol.repetition.body pos
      (Symbol.repetition.begun pos before) result after) :
    Framed strict bytes before (Symbol.repetition.ended pos result after) := by
  refine Framed.around rfl ?_
  cases h with
  | catMiss hoperator => exact (plain_of_outline hoperator rfl).framed
  | catNext hoperator helement =>
    exact Frame.trans (plain_of_outline hoperator rfl).framed
      (framed_element helement.cat_singleton)

end

/-! ## Brackets -/

namespace Bracket

variable (bracket : Bracket) {middle : List Event}

theorem opens_of_outline
    (h : Outline (promise strict bytes) bytes bracket.opening.body pos
      (bracket.opening.begun pos before) result after) :
    Opens strict bytes bracket pos before result (bracket.opening.ended pos result after) := by
  have hinert : bracket.opening.isInert = true := by cases bracket <;> rfl
  refine ⟨fun hresult => ?_, Plain.around hinert (plain_of_outline h (by cases bracket <;> rfl))⟩
  rw [bracket.body_opening] at h
  cases h with
  | catMiss => cases hresult
  | catNext hopen =>
    have hopened := (outline_chars (by cases bracket <;> decide) hopen).1
    exact (eq_of_exact hopened).1

/-- Where the closing bracket is missing, the opening one is noted. -/
theorem closes_of_outline
    (h : Outline (promise strict bytes) bytes bracket.closing.body pos
      (bracket.closing.begun pos before) result after) :
    Closes strict bytes bracket before (bracket.closing.ended pos result after) := by
  have hplain := plain_of_outline h (by cases bracket <;> rfl)
  have hbegun : notesOf strict (bracket.closing.begun pos before) = notesOf strict before := by
    rw [notesOf_begun, bracket.observe_closing_active]
  have hne : bracket.closing ≠ .basicElementError := by cases bracket <;> decide
  have hlevels := hplain.levels
  rw [hbegun] at hlevels
  have hsound : Sound strict bytes before → Sound strict bytes after := fun hsound =>
    hplain.sound (hsound.begun (by rw [bracket.observe_closing_active]))
  rw [Closes, notesOf_ended]
  cases result with
  | some n =>
    rw [bracket.observe_closing_some]
    refine ⟨hlevels, fun _ hs => (hsound hs).ended ?_ hne⟩
    rw [bracket.observe_closing_some]
    exact .of_flaws_eq rfl
  | none =>
    have hfailed := bracket.observe_closing_failed (notesOf strict after) pos
    refine ⟨?_, fun hbyte hs => (hsound hs).ended ?_ hne⟩
    · rw [show Phase.ofResult none = .failed from rfl, hfailed, Notes.levels_note, hlevels]
    · rw [show Phase.ofResult none = .failed from rfl, hfailed]
      refine .note (bracket.standsAt_unclosed _ ?_)
      rwa [Notes.level, hlevels]

theorem Closes.trans (h : Closes strict bytes bracket before middle)
    (h' : Closes strict bytes bracket middle after) : Closes strict bytes bracket before after := by
  refine ⟨h'.1.trans h.1, fun hbyte hsound => h'.2 ?_ (h.2 hbyte hsound)⟩
  rwa [Notes.level, h.1]

/-- The end of a bracketed construct. -/
theorem closes_of_end
    (h : Outline (promise strict bytes) bytes (.alt [ref bracket.closing, ref bracket.error]) pos
      before result after) : Closes strict bytes bracket before after := by
  cases h with
  | altHit hclose => exact pledge_closes.1 (pledge_of_outline hclose)
  | altMiss hclose hrest =>
    refine Closes.trans bracket (pledge_closes.1 (pledge_of_outline hclose)) ?_
    have hplain := plain_of_outline hrest (by cases bracket <;> rfl)
    exact ⟨hplain.levels, fun _ => hplain.sound⟩

/-- Inside its brackets a construct leaves the outer levels alone. -/
theorem inside {level : Level} {outer : List Level}
    (h : Outline (promise strict bytes) bytes bracket.symbol.body pos before result after)
    (hlevels : (notesOf strict before).levels = level :: outer) (hbracket : level.bracket = pos)
    (hnoted : level.noted = false) :
    (∃ level', (notesOf strict after).levels = level' :: outer) ∧
      (Sound strict bytes before → Sound strict bytes after) := by
  rw [bracket.body_symbol] at h
  cases h with
  | catMiss hopen =>
    have hplain := (pledge_opens.1 (pledge_of_outline hopen)).2
    exact ⟨⟨level, hplain.levels.trans hlevels⟩, hplain.sound⟩
  | catNext hopen hrest =>
    obtain ⟨hbyte, hplain⟩ := pledge_opens.1 (pledge_of_outline hopen)
    have hlevels := hplain.levels.trans hlevels
    cases hrest with
    | catMiss hinner =>
      have hframed : Framed strict bytes _ after := pledge_of_outline hinner
      obtain ⟨⟨level', hlevels', -⟩, hsound⟩ := hframed level outer hlevels hnoted
      exact ⟨⟨level', hlevels'⟩, hsound ∘ hplain.sound⟩
    | catNext hinner hend =>
      have hframed : Framed strict bytes _ _ := pledge_of_outline hinner
      obtain ⟨⟨level', hlevels', hbracket', -⟩, hsound⟩ := hframed level outer hlevels hnoted
      obtain ⟨hsame, hsound'⟩ := bracket.closes_of_end hend.cat_singleton
      refine ⟨⟨level', hsame.trans hlevels'⟩, fun hs => hsound' ?_ (hsound (hplain.sound hs))⟩
      rw [Notes.level, hlevels', List.headD_cons, hbracket', hbracket]
      exact hbyte rfl

/-- Between its brackets a construct has a level of its own, which is left at its end. -/
theorem framed_of_outline
    (h : Outline (promise strict bytes) bytes bracket.symbol.body pos
      (bracket.symbol.begun pos before) result after) :
    Framed strict bytes before (bracket.symbol.ended pos result after) := by
  intro level outer hlevels hnoted
  have hentered : (notesOf strict (bracket.symbol.begun pos before)).levels =
      { bracket := pos } :: level :: outer := by
    rw [notesOf_begun, bracket.observe_symbol_active, Notes.enterLevel, hlevels]
  obtain ⟨⟨inner, hinner⟩, hsound⟩ := bracket.inside h hentered rfl rfl
  have hleft : (notesOf strict after).leaveLevel =
      { notesOf strict after with levels := level :: outer } := by
    rw [Notes.leaveLevel, hinner]
  rw [Within, notesOf_ended, bracket.observe_symbol_ofResult, hleft]
  refine ⟨⟨level, rfl, rfl, hnoted⟩, fun hs => (hsound (hs.begun ?_)).ended ?_ ?_⟩
  · rw [bracket.observe_symbol_active]
    rfl
  · rw [bracket.observe_symbol_ofResult, hleft]
    exact .of_flaws_eq rfl
  · cases bracket <;> decide

end Bracket

/-! ## Lines -/

theorem sound_rule
    (h : Outline (promise strict bytes) bytes Symbol.rule.body pos (Symbol.rule.begun pos before)
      result after) (hsound : Sound strict bytes before) :
    Sound strict bytes (Symbol.rule.ended pos result after) := by
  have hlevels : (notesOf strict (Symbol.rule.begun pos before)).levels = [{ bracket := pos }] := by
    rw [notesOf_begun]
    rfl
  have hinner := (framed_of_outline h rfl _ _ hlevels rfl).2 (hsound.begun rfl)
  refine hinner.ended (.of_flaws_eq ?_) (by decide)
  rcases result with _ | _ | n <;> rfl

theorem sound_of_lines {e : Expr Opcode}
    (h : Outline (promise strict bytes) bytes e pos before result after)
    (he : e.isRunnable (among fun s => s == .rule || s.keepsLevels) = true) :
    Sound strict bytes before → Sound strict bytes after := by
  refine h.keeps (R := fun before after => Sound strict bytes before → Sound strict bytes after)
    (fun _ => id) (fun h h' => h' ∘ h) (fun hknown hpromise => ?_) he
  obtain ⟨s, hs, hknown⟩ := (Option.any_eq_true ..).1 hknown
  rcases Bool.or_eq_true_iff.1 hknown with hrule | hplain
  · obtain rfl := beq_iff_eq.1 hrule
    exact hpromise _ hs
  · exact ((pledge_of_keepsLevels hplain).1 (hpromise s hs)).sound

theorem sound_file
    (h : Outline (promise strict bytes) bytes Symbol.file.body pos (Symbol.file.begun pos before)
      result after) (hsound : Sound strict bytes before) :
    Sound strict bytes (Symbol.file.ended pos result after) := by
  refine (sound_of_lines h rfl (hsound.begun rfl)).ended ?_ (by decide)
  rcases result with _ | _ | n
  · exact .of_flaws_eq rfl
  · exact .note (Flaw.standsAt_of_eq_none rfl)
  · simp only [Phase.ofResult, Notes.observe]
    split
    · exact .note (Flaw.standsAt_of_eq_none rfl)
    · exact .of_flaws_eq rfl

/-! ## All symbols -/

/-- Every symbol keeps its promise. -/
theorem keeps_promise (strict : Bool) (bytes : List UInt8) :
    scheme.Keeps (promise strict bytes) bytes := by
  intro rule body pos before result nodes events after hbody hrun h s hs
  obtain ⟨s', hs', rfl⟩ := Option.map_eq_some_iff.1 hbody
  obtain rfl : s' = s := Option.some.inj (hs'.symm.trans hs)
  obtain rfl := index_of_ofIndex? hs
  by_cases hplain : s'.keepsLevels = true
  · exact (pledge_of_keepsLevels hplain).2 (Plain.around (isInert_of_keepsLevels hplain)
      (plain_of_outline h (isRunnable_of_keepsLevels hplain)))
  · cases s' with
    | file => exact sound_file h
    | rule => exact sound_rule h
    | alternation | concatenation => exact Framed.around rfl (framed_of_outline h rfl)
    | repetition => exact framed_repetition h
    | group => exact Bracket.group.framed_of_outline h
    | option => exact Bracket.option.framed_of_outline h
    | basicElement => exact tried_basicElement h
    | basicElementError => exact stray_of_outline hrun h
    | groupOpen => exact Bracket.group.opens_of_outline h
    | optionOpen => exact Bracket.option.opens_of_outline h
    | groupClose => exact Bracket.group.closes_of_outline h
    | optionClose => exact Bracket.option.closes_of_outline h
    | tlsOp => exact Quote.string.quoted_of_outline h
    | clsOp => exact Quote.caseSensitiveString.quoted_of_outline h
    | prosVal => exact Quote.prose.quoted_of_outline h
    | tlsOpen | tlsClose | clsOpen | clsClose | prosValOpen | prosValClose =>
      exact exact_of_outline rfl (by decide) h
    | _ => exact absurd rfl hplain

/-- What is noted of the run of a file is right. -/
theorem sound_of_run {nodes : List Node} {events : List Event}
    (h : Run scheme (ref .file) 0 bytes result nodes events) : Sound strict bytes events := by
  have hfile : Sound strict bytes [] → Sound strict bytes ([] ++ events) :=
    pledge_of_outline (s := .file) (h.outline (keeps_promise strict bytes) rfl [])
  exact hfile ⟨by simp [notesOf], by simp⟩

/-! ## Every flaw once -/

namespace Notes

/-- No flaw is noted twice at one place, and that the text is unreadable is not noted along the
way. -/
structure IsTidy (notes : Notes) : Prop where
  nodup : notes.flaws.toList.Nodup
  readable : ∀ entry ∈ notes.flaws, entry.2 ≠ .unreadable

variable {notes notes' : Notes} {offset : Nat} {flaw : Flaw} {s : Symbol} {phase : Phase}

theorem IsTidy.of_flaws_eq (h : notes.IsTidy) (heq : notes'.flaws = notes.flaws) :
    notes'.IsTidy :=
  ⟨heq ▸ h.nodup, heq ▸ h.readable⟩

theorem IsTidy.note (h : notes.IsTidy) (hflaw : flaw ≠ .unreadable) :
    (notes.note offset flaw).IsTidy := by
  unfold Notes.note
  split
  · exact h
  · rename_i hnew
    rw [Array.contains_iff_mem] at hnew
    refine ⟨?_, fun entry hentry => ?_⟩
    · rw [Array.toList_push, List.nodup_append]
      refine ⟨h.nodup, List.nodup_singleton _, fun entry hentry entry' hentry' heq => hnew ?_⟩
      rw [← List.mem_singleton.1 hentry', ← heq]
      exact Array.mem_toList_iff.1 hentry
    · rcases Array.mem_push.1 hentry with hentry | rfl
      · exact h.readable entry hentry
      · exact hflaw

theorem IsTidy.noteExtension (h : notes.IsTidy) {found : Extension} :
    (notes.noteExtension offset found).IsTidy := by
  unfold Notes.noteExtension
  split
  · exact h.note (by simp)
  · exact h

theorem IsTidy.noteTab (h : notes.IsTidy) (hflaw : flaw ≠ .unreadable) :
    (notes.noteTab flaw).IsTidy := by
  unfold Notes.noteTab
  split
  · exact h.note hflaw
  · exact h

theorem IsTidy.noteUnclosed (h : notes.IsTidy) (hflaw : flaw ≠ .unreadable) :
    (notes.noteUnclosed offset flaw).IsTidy :=
  IsTidy.note (h.of_flaws_eq rfl) hflaw

theorem IsTidy.observe (h : notes.IsTidy) : (notes.observe s phase offset).IsTidy := by
  unfold Notes.observe
  split <;> (try split)
  all_goals first
    | exact h
    | exact h.of_flaws_eq rfl
    | exact h.of_flaws_eq flaws_leaveLevel
    | exact h.note (by simp)
    | exact h.noteExtension
    | exact h.noteTab (by simp)
    | exact h.noteUnclosed (by simp)

end Notes

theorem isTidy_foldl {notes : Notes} (h : notes.IsTidy) (events : List Event) :
    (events.foldl watch.see notes).IsTidy := by
  induction events generalizing notes with
  | nil => exact h
  | cons event events ih =>
    refine ih ?_
    cases hs : Symbol.ofIndex? event.rule with
    | none => rwa [see_eq_self hs]
    | some s =>
      rw [see_eq hs]
      exact h.observe

theorem isTidy_notesOf (strict : Bool) (events : List Event) : (notesOf strict events).IsTidy :=
  isTidy_foldl ⟨List.nodup_nil, by simp⟩ events

/-- All extensions. -/
def Extension.all : List Extension :=
  [.and, .not, .lookBehind, .notLookBehind, .beginAnchor, .endAnchor, .backReference,
    .userTerminal, .caseSensitiveString]

/-- All flaws. -/
def Flaw.all : List Flaw :=
  [.emptyFile, .noRules, .unrecognizedLine, .badRuleName, .badDefinedAs, .tabInString, .tabInProse,
    .unclosedString, .unclosedCaseSensitiveString, .proseFound, .unclosedProse, .unclosedGroup,
    .unclosedOption, .unrecognizedElement, .unrecognizedEnding, .unreadable] ++
  Extension.all.map .extension

theorem Extension.mem_all (found : Extension) : found ∈ Extension.all := by
  cases found <;> decide

theorem Flaw.mem_all (flaw : Flaw) : flaw ∈ Flaw.all := by
  cases flaw with
  | extension found => exact List.mem_append_right _ (List.mem_map_of_mem found.mem_all)
  | _ => decide

/-- A flaw can be told from its message. -/
theorem Flaw.message_injective : Function.Injective Flaw.message := by
  have hnodup : (Flaw.all.map Flaw.message).Nodup := by decide +kernel
  intro flaw flaw' h
  exact List.inj_on_of_nodup_map hnodup flaw.mem_all flaw'.mem_all h

/-! ## Diagnostics -/

/-- The events of one symbol in the run of a file can be traced. -/
theorem exists_trace (s : Symbol) {bytes : Array UInt8} {nodes : List Node} {events : List Event}
    (h : Run scheme (ref .file) 0 bytes.toList result nodes events) :
    ∃ found, Engine.trace rules [] [s.index] Symbol.file.index bytes = .ok found ∧
      ∀ event ∈ found.observed, event ∈ events ∧ event.rule = s.index := by
  have hvalid : ∀ s : Symbol, s.body.isValid = true := fun s => (isSound_iff.1 (isSound_body s)).1
  obtain ⟨result', nodes', events', hrun, htrace⟩ :=
    (descends_schemeOf isSound_body _).trace_realizes
      (depicts_schemeOf hvalid (Watch.log [] [s.index])) (schemeOf_body _ _ .file) bytes
      (by simp) (by simp only [Array.size_map]; cases s <;> decide)
  -- The trace records nothing, recognition records phrases: the events are the same.
  obtain ⟨nodes'', hrun⟩ :
      ∃ nodes'', Run scheme (ref .file) 0 bytes.toList result' nodes'' events' :=
    hrun.reschedule rfl
  obtain ⟨-, -, rfl⟩ := h.unique hrun
  exact ⟨_, htrace, by simp⟩

theorem eq_unreadable_of_mem {entry : Nat × Flaw} {complete : Prop} [Decidable complete]
    {offset : Nat} (h : entry ∈ if complete then [] else [(offset, Flaw.unreadable)]) :
    entry.2 = .unreadable := by
  split at h
  · cases h
  · rw [List.mem_singleton.1 h]

namespace Recognition

variable {source : Source} {recognition : Recognition}

theorem mem_diagnostics {d : Diagnostic} : d ∈ recognition.diagnostics source ↔
    ∃ entry ∈ recognition.flaws, source.diagnostic entry.1 entry.2.message = d :=
  List.mem_map

theorem nodup_diagnostics (h : recognition.flaws.Nodup) :
    ((recognition.diagnostics source).map fun d => (d.offset, d.message)).Nodup := by
  rw [diagnostics, List.map_map]
  refine h.map fun entry entry' heq => ?_
  obtain ⟨hoffset, hmessage⟩ := Prod.mk.inj heq
  exact Prod.ext hoffset (Flaw.message_injective hmessage)

end Recognition

/-- Every diagnostic about a delimiter is given where that delimiter stands, stray characters in
place of an element are never passed over, and no diagnostic is given twice. -/
theorem flaws_localized (source : Source) (strict : Bool) :
    ∃ recognition found,
      recognize source strict = .ok recognition ∧
      Engine.trace rules [] [Symbol.basicElementError.index] Symbol.file.index source.bytes =
        .ok found ∧
      (∀ d ∈ recognition.diagnostics source, ∀ flaw : Flaw, ∀ c, flaw.delimiter? = some c →
        d.message = flaw.message → source.bytes[d.offset]? = some c.toUInt8) ∧
      (∀ event ∈ found.observed, event.phase = .matched ∨ event.phase = .empty →
        ∃ d ∈ recognition.diagnostics source, d.offset = event.offset ∧
          ∃ flaw ∈ strayFlaws, d.message = flaw.message) ∧
      ((recognition.diagnostics source).map fun d => (d.offset, d.message)).Nodup := by
  obtain ⟨result, nodes, events, hrun, heq⟩ := recognize_eq source strict
  obtain ⟨found, htrace, hobserved⟩ := exists_trace .basicElementError hrun
  have hsound : Sound strict source.bytes.toList events := sound_of_run hrun
  refine ⟨_, found, heq, htrace, ?_, ?_, ?_⟩
  · intro d hd flaw c hc hmessage
    obtain ⟨entry, hentry, rfl⟩ := Recognition.mem_diagnostics.1 hd
    obtain rfl := Flaw.message_injective hmessage
    have hnoted : entry ∈ (notesOf strict events).flaws := by
      rcases List.mem_append.1 hentry with hentry | hunread
      · exact Array.mem_toList_iff.1 hentry
      · rw [eq_unreadable_of_mem hunread] at hc
        cases hc
    rw [← Array.getElem?_toList]
    exact hsound.located entry hnoted c hc
  · intro event hevent hphase
    obtain ⟨hevent, hrule⟩ := hobserved event hevent
    obtain ⟨flaw, hflaw, hmem⟩ := hsound.reported event hevent ⟨hrule, hphase⟩
    refine ⟨source.diagnostic event.offset flaw.message, ?_, rfl, flaw, hflaw, rfl⟩
    exact Recognition.mem_diagnostics.2
      ⟨(event.offset, flaw), List.mem_append_left _ (Array.mem_toList_iff.2 hmem), rfl⟩
  · refine Recognition.nodup_diagnostics ?_
    have htidy := isTidy_notesOf strict events
    refine List.nodup_append.2 ⟨htidy.nodup, ?_, fun entry hentry entry' hunread hsame => ?_⟩
    · split
      · exact List.nodup_nil
      · exact List.nodup_singleton _
    · rw [← hsame] at hunread
      exact htidy.readable entry (Array.mem_toList_iff.1 hentry) (eq_unreadable_of_mem hunread)

/-- A group and a string in it that do not close: the stray characters at 3 are the string, those
at 2 are noted themselves. -/
theorem flaws_localized_nested : ∃ source recognition found,
    source = Source.ofString "a=(\"x\n" ∧
    recognize source false = .ok recognition ∧
    recognition.flaws = [(3, .unclosedString), (2, .unclosedGroup), (2, .unrecognizedElement)] ∧
    Engine.trace rules [] [Symbol.basicElementError.index] Symbol.file.index source.bytes =
      .ok found ∧
    ⟨Symbol.basicElementError.index, .matched, 3, 2⟩ ∈ found.observed ∧
    source.bytes[3]? = some '\x22'.toUInt8 ∧
    source.bytes[2]? = some '('.toUInt8 ∧
    ∃ d ∈ recognition.diagnostics source, d.offset = 3 ∧
      ∃ flaw ∈ strayFlaws, d.message = flaw.message := by
  have hflaws : (read? (.ofString "a=(\"x\n") false).map Prod.fst =
      some [(3, .unclosedString), (2, .unclosedGroup), (2, .unrecognizedElement)] := by
    decide +kernel
  have hevent : (Engine.trace rules [] [Symbol.basicElementError.index] Symbol.file.index
      (Source.ofString "a=(\"x\n").bytes).toOption.any (fun found =>
        found.observed.contains ⟨Symbol.basicElementError.index, .matched, 3, 2⟩) = true := by
    decide +kernel
  generalize Source.ofString "a=(\"x\n" = source at hflaws hevent ⊢
  obtain ⟨⟨flaws, nodes⟩, hread, rfl⟩ := Option.map_eq_some_iff.1 hflaws
  obtain ⟨recognition, hrecognize, hflaws, -⟩ := recognize_of_read? hread
  obtain ⟨_, found, hrecognize', htrace, hdelimiter, hstray, -⟩ := flaws_localized source false
  cases hrecognize'.symm.trans hrecognize
  rw [htrace] at hevent
  have hevent : ⟨Symbol.basicElementError.index, .matched, 3, 2⟩ ∈ found.observed :=
    Array.contains_iff_mem.1 hevent
  have hmem : ∀ entry ∈ recognition.flaws,
      source.diagnostic entry.1 entry.2.message ∈ recognition.diagnostics source :=
    fun entry hentry => Recognition.mem_diagnostics.2 ⟨entry, hentry, rfl⟩
  have hstring := hmem (3, .unclosedString) (by simp [hflaws])
  have hgroup := hmem (2, .unclosedGroup) (by simp [hflaws])
  exact ⟨source, recognition, found, rfl, hrecognize, hflaws, htrace, hevent,
    hdelimiter _ hstring .unclosedString _ rfl rfl, hdelimiter _ hgroup .unclosedGroup _ rfl rfl,
    hstray _ hevent (.inl rfl)⟩

end Abnf.Metagrammar
