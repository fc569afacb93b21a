import Abnf.Proofs.Engine.Locality
import Abnf.Proofs.Metagrammar.Descent

/-!
# What the observer notes

Along the events of a match the observer finds a flaw exactly if an alarm is raised: if a symbol
for malformed text matches, or a delimiter does not close. No alarm is lost, not even one that is
raised in an alternative that is given up later or whose flaw is merged with an earlier one.

* `clean_of_flawless`: a match without flaws raises no alarm and finds a rule.
* `flawless_of_clean`: a match that raises no alarm and finds a rule has no flaws.
-/

namespace Abnf.Metagrammar

open Engine

/-! ## Alarms -/

/-- Whether a symbol that ends in some phase shows that the text is malformed, or has prose. -/
def Symbol.isAlarm : Symbol → Phase → Bool
  | ruleError, .matched | ruleNameError, .matched | definedAsError, .matched
  | lineEndError, .matched | basicElementError, .matched | stringTab, .matched
  | prosValClose, .matched | prosValClose, .failed | tlsClose, .failed | clsClose, .failed
  | groupClose, .failed | optionClose, .failed => true
  | _, _ => false

/-- No alarm is raised by an event. -/
def Clean (event : Event) : Prop :=
  ∀ s, Symbol.ofIndex? event.rule = some s → s.isAlarm event.phase = false

/-- A definition line has been matched. -/
def FindsRule (event : Event) : Prop :=
  event.rule = Symbol.rule.index ∧ event.phase = .matched

namespace Notes

variable {notes : Notes} {offset : Nat} {flaw : Flaw} {s : Symbol} {phase : Phase}

@[simp] theorem flaws_note_ne : (notes.note offset flaw).flaws ≠ #[] := by
  unfold note
  split
  · intro h
    simp [h] at *
  · simp

@[simp] theorem flaws_noteExtension_eq_empty {found : Extension} :
    (notes.noteExtension offset found).flaws = #[] ↔ notes.flaws = #[] ∧ notes.strict = false := by
  unfold noteExtension
  split <;> simp_all

@[simp] theorem flaws_modifyLevel {f : Level → Level} : (notes.modifyLevel f).flaws = notes.flaws :=
  rfl

@[simp] theorem flaws_leaveLevel : notes.leaveLevel.flaws = notes.flaws := by
  unfold leaveLevel
  split <;> rfl

@[simp] theorem flaws_noteTab_eq_empty :
    (notes.noteTab flaw).flaws = #[] ↔ notes.flaws = #[] ∧ notes.tab = none := by
  unfold noteTab
  split <;> simp_all

@[simp] theorem flaws_noteUnclosed_ne : (notes.noteUnclosed offset flaw).flaws ≠ #[] :=
  flaws_note_ne

/-! ## Flaws stay -/

theorem flaws_of_observe (h : (notes.observe s phase offset).flaws = #[]) : notes.flaws = #[] := by
  unfold observe at h
  split at h <;> (try split at h) <;> first | exact h | simp_all

/-- A string that did not close has been noted as a flaw where its level remembers it. -/
def IsSober (notes : Notes) : Prop :=
  notes.flaws = #[] → ∀ level ∈ notes.levels, level.noted = false

theorem noted_level (h : ∀ level ∈ notes.levels, level.noted = false) :
    notes.level.noted = false := by
  unfold level
  cases hlevels : notes.levels with
  | nil => rfl
  | cons level levels => exact h level (by simp [hlevels])

theorem noted_modifyLevel (h : ∀ level ∈ notes.levels, level.noted = false) {f : Level → Level}
    (hf : (f notes.level).noted = false) :
    ∀ level ∈ (notes.modifyLevel f).levels, level.noted = false := by
  intro level hlevel
  rcases List.mem_cons.1 hlevel with rfl | hlevel
  · exact hf
  · exact h level (List.mem_of_mem_tail hlevel)

theorem levels_noteExtension {found : Extension}
    (h : (notes.noteExtension offset found).flaws = #[]) :
    (notes.noteExtension offset found).levels = notes.levels := by
  rw [flaws_noteExtension_eq_empty] at h
  simp [noteExtension, h.2]

theorem levels_noteTab (h : (notes.noteTab flaw).flaws = #[]) :
    (notes.noteTab flaw).levels = notes.levels := by
  rw [flaws_noteTab_eq_empty] at h
  simp [noteTab, h.2]

theorem noted_leaveLevel (h : ∀ level ∈ notes.levels, level.noted = false) :
    ∀ level ∈ notes.leaveLevel.levels, level.noted = false := by
  unfold leaveLevel
  split <;> simp_all

theorem IsSober.observe (hsober : notes.IsSober) : (notes.observe s phase offset).IsSober := by
  intro h
  have hlevels := hsober (flaws_of_observe h)
  have hlevel := noted_level hlevels
  revert h
  unfold Notes.observe
  split <;> (try split) <;> intro h
  all_goals first
    | exact hlevels
    | exact absurd h flaws_note_ne
    | exact absurd h flaws_noteUnclosed_ne
    | exact (levels_noteExtension h).symm ▸ hlevels
    | exact (levels_noteTab h).symm ▸ hlevels
    | exact noted_leaveLevel hlevels
    | exact noted_modifyLevel hlevels hlevel
    | simp_all [enterLevel]

/-- Every alarm but that of a tab is a flaw. -/
theorem isAlarm_of_flaws (hsober : notes.IsSober) (h : (notes.observe s phase offset).flaws = #[])
    (hs : s ≠ .stringTab) : s.isAlarm phase = false := by
  have hlevel := noted_level (hsober (flaws_of_observe h))
  unfold Symbol.isAlarm
  split
  all_goals first
    | rfl
    | exact absurd rfl hs
    | exact absurd h flaws_note_ne
    | exact absurd h flaws_noteUnclosed_ne
    | simp [Notes.observe, hlevel] at h

/-! ## Without alarms -/

/-- Nothing has been noted, and nothing is about to be. -/
structure IsClear (notes : Notes) : Prop where
  strict : notes.strict = false
  tab : notes.tab = none
  flaws : notes.flaws = #[]

theorem noteExtension_eq_self (h : notes.IsClear) (found : Extension) :
    notes.noteExtension offset found = notes := by
  simp [noteExtension, h.strict]

theorem noteTab_eq_self (h : notes.IsClear) (flaw : Flaw) : notes.noteTab flaw = notes := by
  simp [noteTab, h.tab]

theorem IsClear.leaveLevel (h : notes.IsClear) : notes.leaveLevel.IsClear := by
  unfold Notes.leaveLevel
  split
  · exact ⟨h.strict, h.tab, h.flaws⟩
  · exact h

theorem IsClear.observe (h : notes.IsClear) (hs : s ≠ .file) (halarm : s.isAlarm phase = false) :
    (notes.observe s phase offset).IsClear := by
  unfold Notes.observe
  split
  all_goals first
    | exact h
    | exact absurd rfl hs
    | exact ⟨h.strict, h.tab, h.flaws⟩
    | exact ⟨h.strict, rfl, h.flaws⟩
    | exact h.leaveLevel
    | (rw [noteExtension_eq_self h]; exact h)
    | (rw [noteTab_eq_self h]; exact h)
    | exact absurd halarm (by decide)

/-! ## Rules -/

@[simp] theorem ruleCount_note : (notes.note offset flaw).ruleCount = notes.ruleCount := by
  unfold note
  split <;> rfl

@[simp] theorem ruleCount_noteExtension {found : Extension} :
    (notes.noteExtension offset found).ruleCount = notes.ruleCount := by
  unfold noteExtension
  split <;> simp

@[simp] theorem ruleCount_noteTab : (notes.noteTab flaw).ruleCount = notes.ruleCount := by
  unfold noteTab
  split <;> simp

@[simp] theorem ruleCount_leaveLevel : notes.leaveLevel.ruleCount = notes.ruleCount := by
  unfold leaveLevel
  split <;> rfl

theorem ruleCount_observe (hs : s ≠ .file) (hrule : ¬ (s = .rule ∧ phase = .matched)) :
    (notes.observe s phase offset).ruleCount = notes.ruleCount := by
  unfold observe
  split
  all_goals first
    | rfl
    | exact absurd rfl hs
    | exact absurd ⟨rfl, rfl⟩ hrule
    | exact ruleCount_note
    | exact ruleCount_noteExtension
    | exact ruleCount_noteTab
    | exact ruleCount_leaveLevel
    | (split <;> simp [modifyLevel])

end Notes

/-! ## Sequences of events -/

section Events

variable {notes : Notes} {event : Event} {events : List Event}

theorem see_eq {s : Symbol} (h : Symbol.ofIndex? event.rule = some s) :
    watch.see notes event = notes.observe s event.phase event.offset := by
  simp [Watch.see, watch, h]

theorem see_index (s : Symbol) (phase : Phase) (offset length : Nat) :
    watch.see notes ⟨s.index, phase, offset, length⟩ = notes.observe s phase offset :=
  see_eq (Symbol.ofIndex?_index s)

theorem see_eq_self (h : Symbol.ofIndex? event.rule = none) : watch.see notes event = notes := by
  simp [Watch.see, watch, h]

theorem flaws_of_see (h : (watch.see notes event).flaws = #[]) : notes.flaws = #[] := by
  cases hs : Symbol.ofIndex? event.rule with
  | none => rwa [see_eq_self hs] at h
  | some s =>
    rw [see_eq hs] at h
    exact Notes.flaws_of_observe h

theorem isSober_see (h : notes.IsSober) : (watch.see notes event).IsSober := by
  cases hs : Symbol.ofIndex? event.rule with
  | none => rwa [see_eq_self hs]
  | some s =>
    rw [see_eq hs]
    exact h.observe

theorem flaws_of_foldl (h : (events.foldl watch.see notes).flaws = #[]) : notes.flaws = #[] := by
  induction events generalizing notes with
  | nil => exact h
  | cons event events ih => exact flaws_of_see (ih h)

theorem isAlarm_of_foldl (hsober : notes.IsSober)
    (h : (events.foldl watch.see notes).flaws = #[]) :
    ∀ event ∈ events, ∀ s, Symbol.ofIndex? event.rule = some s → s ≠ .stringTab →
      s.isAlarm event.phase = false := by
  induction events generalizing notes with
  | nil => simp
  | cons event events ih =>
    intro event' hevent s hs htab
    rcases List.mem_cons.1 hevent with rfl | hevent
    · have hflaws : (watch.see notes event').flaws = #[] := flaws_of_foldl h
      rw [see_eq hs] at hflaws
      exact Notes.isAlarm_of_flaws hsober hflaws htab
    · exact ih (isSober_see hsober) h event' hevent s hs htab

theorem isClear_foldl (h : notes.IsClear) (hclean : ∀ event ∈ events, Clean event)
    (hfile : ∀ event ∈ events, event.rule ≠ Symbol.file.index) :
    (events.foldl watch.see notes).IsClear := by
  induction events generalizing notes with
  | nil => exact h
  | cons event events ih =>
    refine ih ?_ (fun e he => hclean e (by simp [he])) (fun e he => hfile e (by simp [he]))
    cases hs : Symbol.ofIndex? event.rule with
    | none => rwa [see_eq_self hs]
    | some s =>
      rw [see_eq hs]
      refine h.observe ?_ (hclean event (by simp) s hs)
      rintro rfl
      exact hfile event (by simp) (index_of_ofIndex? hs).symm

theorem ruleCount_see (hfile : event.rule ≠ Symbol.file.index) (hrule : ¬ FindsRule event) :
    (watch.see notes event).ruleCount = notes.ruleCount := by
  cases hs : Symbol.ofIndex? event.rule with
  | none => rw [see_eq_self hs]
  | some s =>
    have hindex := index_of_ofIndex? hs
    rw [see_eq hs]
    refine Notes.ruleCount_observe ?_ ?_
    · rintro rfl
      exact hfile hindex.symm
    · rintro ⟨rfl, hphase⟩
      exact hrule ⟨hindex.symm, hphase⟩

theorem ruleCount_see_of_findsRule (hrule : FindsRule event) :
    (watch.see notes event).ruleCount = notes.ruleCount + 1 := by
  rw [see_eq (by rw [hrule.1, Symbol.ofIndex?_index]), hrule.2]
  rfl

/-- Rules are counted from the beginning of the file on. -/
theorem ruleCount_foldl_eq_zero_iff (hfile : ∀ event ∈ events, event.rule ≠ Symbol.file.index) :
    (events.foldl watch.see notes).ruleCount = 0 ↔
      notes.ruleCount = 0 ∧ ∀ event ∈ events, ¬ FindsRule event := by
  induction events generalizing notes with
  | nil => simp
  | cons event events ih =>
    rw [List.foldl_cons, ih fun e he => hfile e (by simp [he]), List.forall_mem_cons, ← and_assoc]
    refine and_congr_left fun _ => ?_
    by_cases hrule : FindsRule event
    · simp [ruleCount_see_of_findsRule hrule, hrule]
    · simp [ruleCount_see (hfile event (by simp)) hrule, hrule]

end Events

/-! ## Tabs -/

/-- The characters of a string: those of two ranges, and tabs. -/
def stringCharacter (a b c d : Char) : Expr Opcode :=
  .alt [range a b, range c d, ref .stringTab]

section Tabs

variable {pos : Nat} {rest : List UInt8} {result : Option Nat} {nodes : List Node}
  {events : List Event} {notes : Notes}

/-- A tab has been matched. -/
def FindsTab (event : Event) : Prop :=
  event.rule = Symbol.stringTab.index ∧ event.phase = .matched

theorem tab_see {event : Event} (h : event.rule = Symbol.stringTab.index) :
    (watch.see notes event).tab = if event.phase = .matched then some event.offset else notes.tab := by
  rw [see_eq (by rw [h, Symbol.ofIndex?_index])]
  cases event.phase <;> rfl

theorem tab_foldl (hevents : ∀ event ∈ events, event.rule = Symbol.stringTab.index)
    (h : (events.foldl watch.see notes).tab = none) :
    notes.tab = none ∧ ∀ event ∈ events, ¬ FindsTab event := by
  induction events generalizing notes with
  | nil => exact ⟨h, by simp⟩
  | cons event events ih =>
    obtain ⟨hnone, hall⟩ := ih (fun e he => hevents e (by simp [he])) h
    rw [tab_see (hevents event (by simp))] at hnone
    split at hnone
    · simp at hnone
    · rename_i hphase
      refine ⟨hnone, List.forall_mem_cons.2 ⟨fun hfinds => hphase hfinds.2, hall⟩⟩

theorem not_findsTab_of_none (h : Run scheme (ref .stringTab) pos rest none nodes events) :
    ∀ event ∈ events, ¬ FindsTab event := by
  cases h with
  | leaf h => simp [leafResult?] at h
  | rule hbody h =>
    rw [scheme_body] at hbody
    cases hbody
    cases h with
    | leaf h => simp [bracket, FindsTab, Phase.ofResult]

/-- A string of no characters has no tabs. -/
theorem not_findsTab_of_zero {a b c d : Char}
    (h : Run scheme (many (stringCharacter a b c d)) pos rest (some 0) nodes events) :
    ∀ event ∈ events, ¬ FindsTab event := by
  generalize hresult : some 0 = result at h
  cases h with
  | repMiss _ h =>
    cases h with
    | altMiss h₁ h =>
      cases h with
      | altMiss h₂ h =>
        cases h with
        | altMiss h₃ h =>
          cases h
          cases h₁
          cases h₂
          simpa using not_findsTab_of_none h₃
  | repEmpty _ h =>
    have hnull : (stringCharacter a b c d).isNullable nullable = true :=
      Run.isNullable descends.closed h
    exact absurd hnull (by simp [stringCharacter, Expr.isNullable, Expr.someNullable, range, ref,
      nullable, Symbol.ofIndex?_index, Symbol.canBeEmpty])
  | repNext =>
    obtain ⟨m, -, hm⟩ := Option.map_eq_some_iff.1 hresult.symm
    omega

/-- Whether a symbol is the tab in a string. -/
def Symbol.isTab : Symbol → Bool
  | stringTab => true
  | _ => false

theorem among_isTab {r : Nat} (h : among Symbol.isTab r = true) : r = Symbol.stringTab.index := by
  obtain ⟨s, hs, htab⟩ := (Option.any_eq_true _ _).1 h
  rw [← index_of_ofIndex? hs]
  cases s <;> first | rfl | cases htab

/-- Whether a symbol stands for the characters of a string or of prose. -/
def Symbol.isString : Symbol → Bool
  | tlsString | clsString | prosValString => true
  | _ => false

/-- A string that matched without a flaw has no tabs. -/
theorem not_findsTab_of_isString {s : Symbol} (hs : s.isString = true)
    (h : Run scheme s.body pos rest result nodes events)
    (hflaws : (watch.see (events.foldl watch.see notes)
      ⟨s.index, .ofResult result, pos, result.getD 0⟩).flaws = #[]) :
    ∀ event ∈ events, ¬ FindsTab event := by
  obtain ⟨a, b, c, d, hbody⟩ : ∃ a b c d, s.body = many (stringCharacter a b c d) := by
    cases s <;> first | exact ⟨_, _, _, _, rfl⟩ | cases hs
  rw [hbody] at h
  have hclosed : ∀ s : Symbol, s.isTab = true → s.body.isRunnable (among Symbol.isTab) = true := by
    intro s hs
    cases s <;> first | rfl | cases hs
  have htabs : ∀ event ∈ events, event.rule = Symbol.stringTab.index :=
    fun event hevent => among_isTab (among_of_run hclosed h rfl event hevent)
  cases result with
  | none =>
    cases h.nodes_eq_nil
    exact absurd ⟨events, h, fun _ _ => trivial⟩ (not_fails_rep_zero)
  | some n =>
    cases n with
    | zero => exact not_findsTab_of_zero h
    | succ n =>
      rw [see_index] at hflaws
      have htab : (events.foldl watch.see notes).tab = none := by
        cases s with
        | tlsString | clsString | prosValString =>
          exact (Notes.flaws_noteTab_eq_empty.1 hflaws).2
        | _ => cases hs
      exact (tab_foldl htabs htab).2

theorem isRunnable_of_not_isString {s : Symbol} (hs : s.isString = false) :
    s.body.isRunnable (among fun s => !s.isTab) = true := by
  cases s <;> first | rfl | cases hs

/-- A run without flaws meets no tab in a string, in the strings that it gives up neither. -/
theorem not_findsTab {e : Expr Opcode} (h : Run scheme e pos rest result nodes events)
    (he : e.isRunnable (among fun s => !s.isTab) = true) {notes : Notes}
    (hflaws : (events.foldl watch.see notes).flaws = #[]) :
    ∀ event ∈ events, ¬ FindsTab event := by
  have happend : ∀ {events₁ events₂ : List Event} {notes : Notes},
      ((events₁ ++ events₂).foldl watch.see notes).flaws = #[] →
      (∀ {notes : Notes}, (events₁.foldl watch.see notes).flaws = #[] →
        ∀ event ∈ events₁, ¬ FindsTab event) →
      (∀ {notes : Notes}, (events₂.foldl watch.see notes).flaws = #[] →
        ∀ event ∈ events₂, ¬ FindsTab event) →
      ∀ event ∈ events₁ ++ events₂, ¬ FindsTab event := by
    intro events₁ events₂ notes hflaws h₁ h₂ event hevent
    rw [List.foldl_append] at hflaws
    rcases List.mem_append.1 hevent with hevent | hevent
    · exact h₁ (flaws_of_foldl hflaws) event hevent
    · exact h₂ hflaws event hevent
  induction h generalizing notes with
  | leaf | altNil | catNil | repDone => simp
  | rule hbody hrun ih =>
    obtain ⟨s, hs, rfl⟩ := Option.map_eq_some_iff.1 hbody
    cases index_of_ofIndex? hs
    rename_i pos rest result nodes events
    simp only [bracket, List.cons_append, List.foldl_cons, List.foldl_append, List.foldl_nil]
      at hflaws
    have htab : s.index ≠ Symbol.stringTab.index := by
      rw [ne_eq, Symbol.index_inj]
      rintro rfl
      exact absurd he (by decide)
    have hinner : ∀ event ∈ events, ¬ FindsTab event := by
      -- In a string a tab would leave a flaw; outside strings no tab is tried.
      cases hstring : s.isString with
      | true => exact not_findsTab_of_isString hstring hrun hflaws
      | false => exact ih (isRunnable_of_not_isString hstring) (flaws_of_see hflaws)
    intro event hevent
    simp only [bracket, List.cons_append, List.mem_cons, List.mem_append, List.not_mem_nil,
      or_false] at hevent
    rcases hevent with rfl | hevent | rfl
    · exact fun hfinds => htab hfinds.1
    · exact hinner event hevent
    · exact fun hfinds => htab hfinds.1
  | altHit _ ih | catMiss _ ih =>
    simp only [Expr.isRunnable, Expr.allRunnable, Bool.and_eq_true] at he
    exact ih he.1 hflaws
  | altMiss _ _ ih₁ ih₂ | catNext _ _ ih₁ ih₂ =>
    simp only [Expr.isRunnable, Expr.allRunnable, Bool.and_eq_true] at he
    exact happend hflaws (ih₁ he.1) (ih₂ he.2)
  | repMiss _ _ ih | repEmpty _ _ ih | and _ ih | not _ ih => exact ih he hflaws
  | repNext _ _ _ ih₁ ih₂ => exact happend hflaws (ih₁ he) (ih₂ he)

end Tabs

/-! ## Files -/

/-- Whether a symbol is the whole file. -/
def Symbol.isFile : Symbol → Bool
  | file => true
  | _ => false

theorem isRunnable_not_isFile (s : Symbol) :
    s.body.isRunnable (among fun s => !s.isFile) = true := by
  cases s <;> rfl

section Files

variable {pos n : Nat} {rest : List UInt8} {nodes : List Node} {events : List Event}

/-- A match of the file symbol begins and ends with it, and does not meet it in between. -/
theorem events_file (h : Run scheme (ref .file) pos rest (some n) nodes events) :
    ∃ inner, events = bracket Symbol.file.index pos (some n) inner ∧
      ∀ event ∈ inner, event.rule ≠ Symbol.file.index := by
  generalize hresult : some n = result at h
  cases h with
  | leaf h => simp [leafResult?] at h
  | rule hbody hrun =>
    rw [scheme_body] at hbody
    cases hbody
    refine ⟨_, rfl, fun event hevent hfile => ?_⟩
    have hamong := among_of_run (fun s _ => isRunnable_not_isFile s) hrun
      (isRunnable_not_isFile .file) event hevent
    rw [hfile] at hamong
    exact absurd hamong (by decide)

/-- The flaws of a file are those found before its end, unless it has no rule. -/
theorem flaws_file (events : List Event) (notes : Notes) :
    ((bracket Symbol.file.index pos (some n) events).foldl watch.see notes).flaws = #[] ↔
      (events.foldl watch.see { strict := notes.strict, flaws := notes.flaws }).flaws = #[] ∧
      n ≠ 0 ∧
      (events.foldl watch.see { strict := notes.strict, flaws := notes.flaws }).ruleCount ≠ 0 := by
  simp only [bracket, List.cons_append, List.foldl_cons, List.foldl_append, List.foldl_nil]
  rw [see_index, see_index]
  cases n with
  | zero => simp [Phase.ofResult, Notes.observe]
  | succ n =>
    simp only [Phase.ofResult, Notes.observe]
    by_cases hcount :
        (events.foldl watch.see { strict := notes.strict, flaws := notes.flaws }).ruleCount = 0
    · simp [hcount]
    · simp [hcount]

/-- A rule that is found in a file is counted there. -/
theorem ruleCount_of_findsRule {inner : List Event} {notes : Notes}
    (hfile : ∀ event ∈ inner, event.rule ≠ Symbol.file.index)
    (hrule : ∃ event ∈ bracket Symbol.file.index pos (some n) inner, FindsRule event) :
    (inner.foldl watch.see notes).ruleCount ≠ 0 := by
  rw [ne_eq, ruleCount_foldl_eq_zero_iff hfile]
  rintro ⟨-, hnone⟩
  obtain ⟨event, hevent, hfinds⟩ := hrule
  simp only [bracket, List.cons_append, List.mem_cons, List.mem_append, List.not_mem_nil,
    or_false] at hevent
  have hne : Symbol.file.index ≠ Symbol.rule.index := by decide
  rcases hevent with rfl | hevent | rfl
  · exact hne hfinds.1
  · exact hnone event hevent hfinds
  · exact hne hfinds.1

/-- A match without flaws raises no alarm and finds a rule. -/
theorem clean_of_flawless {strict : Bool} (h : Run scheme (ref .file) pos rest (some n) nodes events)
    (hflaws : (events.foldl watch.see { strict := strict }).flaws = #[]) :
    (∀ event ∈ events, Clean event) ∧ n ≠ 0 ∧ ∃ event ∈ events, FindsRule event := by
  refine ⟨fun event hevent s hs => ?_, ?_⟩
  · by_cases htab : s = .stringTab
    · subst htab
      have hnot := not_findsTab h (by decide) hflaws event hevent
      have hphase : event.phase ≠ .matched := fun hphase =>
        hnot ⟨(index_of_ofIndex? hs).symm, hphase⟩
      cases hphase' : event.phase <;> first | rfl | exact absurd hphase' hphase
    · exact isAlarm_of_foldl (fun _ => by simp) hflaws event hevent s hs htab
  · obtain ⟨inner, rfl, hfile⟩ := events_file h
    obtain ⟨-, hn, hcount⟩ := (flaws_file _ _).1 hflaws
    refine ⟨hn, ?_⟩
    rw [ne_eq, ruleCount_foldl_eq_zero_iff hfile] at hcount
    simp only [true_and, not_forall, not_not] at hcount
    obtain ⟨event, hevent, hrule⟩ := hcount
    exact ⟨event, by simp [bracket, hevent], hrule⟩

/-- A match that raises no alarm and finds a rule has no flaws. -/
theorem flawless_of_clean (h : Run scheme (ref .file) pos rest (some n) nodes events)
    (hclean : ∀ event ∈ events, Clean event) (hn : n ≠ 0)
    (hrule : ∃ event ∈ events, FindsRule event) :
    (events.foldl watch.see { strict := false }).flaws = #[] := by
  obtain ⟨inner, rfl, hfile⟩ := events_file h
  refine (flaws_file _ _).2 ⟨?_, hn, ?_⟩
  · refine (isClear_foldl ⟨rfl, rfl, rfl⟩ (fun event hevent => hclean event ?_) hfile).flaws
    simp [bracket, hevent]
  · exact ruleCount_of_findsRule hfile hrule

end Files

end Abnf.Metagrammar
