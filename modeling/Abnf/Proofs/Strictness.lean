import Abnf.Proofs.Compile
import Abnf.Proofs.Metagrammar.Extensions
import Abnf.Proofs.Metagrammar.Totality

/-!
# Strict recognition

A strict observer notes the same flaws as any other, and the extensions that it sees. It notes a
user-defined terminal at the end of the choice between its two forms, and a case-sensitive string
when its closing quote is found, at the offset where the level remembers its opening quote; in both
cases this is where the phrase begins.

* `areNoted_of_clean`: what a strict observer notes along a run without alarm.
* `strict_recognition_exact`: strict recognition objects to the extensions in a text, and strict
  compilation accepts what has none of them, and CRLF line ends only.
-/

namespace Abnf.Metagrammar

open Engine

/-! ## Notes of extensions -/

/-- Adds the flaw of an extension, unless it is there. -/
def addExtension (flaws : Array (Nat × Flaw)) (entry : Nat × Extension) : Array (Nat × Flaw) :=
  if flaws.contains (entry.1, .extension entry.2) then flaws
  else flaws.push (entry.1, .extension entry.2)

/-- Extensions at increasing offsets are all added. -/
theorem foldl_addExtension {found : List (Nat × Extension)} {flaws : Array (Nat × Flaw)}
    (hfound : (found.map Prod.fst).Pairwise (· < ·))
    (hflaws : ∀ flaw ∈ flaws, ∀ entry ∈ found, flaw.1 < entry.1) :
    (found.foldl addExtension flaws).toList =
      flaws.toList ++ found.map fun entry => (entry.1, .extension entry.2) := by
  induction found generalizing flaws with
  | nil => simp
  | cons entry found ih =>
    rw [List.map_cons, List.pairwise_cons] at hfound
    have hnew : flaws.contains (entry.1, .extension entry.2) = false := by
      rw [Bool.eq_false_iff, ne_eq, Array.contains_iff_mem]
      exact fun hmem => Nat.lt_irrefl _ (hflaws _ hmem entry List.mem_cons_self)
    rw [List.foldl_cons, addExtension, hnew, if_neg Bool.false_ne_true, ih hfound.2]
    · simp
    · intro flaw hflaw other hother
      rcases Array.mem_push.1 hflaw with hflaw | rfl
      · exact hflaws flaw hflaw other (List.mem_cons_of_mem _ hother)
      · exact hfound.1 _ (List.mem_map_of_mem hother)

/-- Nothing stands in the way of noting extensions, and of nothing else. -/
structure Notes.IsStrict (notes : Notes) : Prop where
  strict : notes.strict = true
  tab : notes.tab = none

/-- A strict observer went from `before` to `after` and noted `found`, and nothing else. -/
structure Noted (before after : Notes) (found : List (Nat × Extension)) : Prop where
  isStrict : after.IsStrict
  flaws : after.flaws = found.foldl addExtension before.flaws

namespace Noted

variable {notes before middle after : Notes} {found found' : List (Nat × Extension)} {s : Symbol}
  {phase : Phase} {offset : Nat} {event : Event} {events : List Event}

theorem refl (h : notes.IsStrict) : Noted notes notes [] :=
  ⟨h, rfl⟩

theorem trans (h : Noted before middle found) (h' : Noted middle after found') :
    Noted before after (found ++ found') :=
  ⟨h'.isStrict, by rw [h'.flaws, h.flaws, List.foldl_append]⟩

theorem noteExtension (h : notes.IsStrict) (offset : Nat) (x : Extension) :
    Noted notes (notes.noteExtension offset x) [(offset, x)] := by
  have heq : notes.noteExtension offset x = notes.note offset (.extension x) := by
    rw [Notes.noteExtension, h.strict, if_pos rfl]
  rw [heq, Notes.note]
  split
  · rename_i hold
    exact ⟨h, by rw [List.foldl_cons, List.foldl_nil, addExtension, if_pos hold]⟩
  · rename_i hnew
    exact ⟨⟨h.strict, h.tab⟩, by rw [List.foldl_cons, List.foldl_nil, addExtension, if_neg hnew]⟩

end Noted

/-! ## One event -/

/-- Whether what a symbol shows is noted at its own end, whatever is around it. -/
def Symbol.isDirect : Symbol → Bool
  | file | udtOp | udtEmpty | udtNonEmpty | clsOp | clsClose => false
  | _ => true

section

variable {notes : Notes} {s : Symbol} {phase : Phase} {pos offset length : Nat} {event : Event}
  {events : List Event}

theorem noted_extension (h : notes.IsStrict) (hs : s.isDirect = true) {x : Extension}
    (hx : s.extension? = some x) : Noted notes (notes.observe s .matched offset) [(offset, x)] := by
  cases s <;> first | cases hx; done | cases hs; done | cases hx; exact .noteExtension h _ _

theorem Notes.IsStrict.leaveLevel (h : notes.IsStrict) : Noted notes notes.leaveLevel [] := by
  unfold Notes.leaveLevel
  split
  · exact ⟨⟨h.strict, h.tab⟩, rfl⟩
  · exact .refl h

theorem Notes.IsStrict.noteTab (h : notes.IsStrict) (flaw : Flaw) :
    Noted notes (notes.noteTab flaw) [] := by
  rw [Notes.noteTab, h.tab]
  exact .refl h

theorem noted_other (h : notes.IsStrict) (hs : s.isDirect = true)
    (halarm : s.isAlarm phase = false) (hx : phase = .matched → s.extension? = none) :
    Noted notes (notes.observe s phase offset) [] := by
  unfold Notes.observe
  split
  all_goals first
    | exact .refl h
    | exact ⟨⟨h.strict, h.tab⟩, rfl⟩
    | exact ⟨⟨h.strict, rfl⟩, rfl⟩
    | exact h.leaveLevel
    | exact h.noteTab _
    | cases hs; done
    | cases halarm; done
    | cases hx rfl

/-- A direct symbol notes what it shows. -/
theorem noted_see (h : notes.IsStrict) (hdirect : among Symbol.isDirect event.rule = true)
    (hclean : Clean event) : Noted notes (watch.see notes event) (shown? event).toList := by
  obtain ⟨s, hs, hdirect⟩ := exists_symbol_of_among hdirect
  have hsymbol : Symbol.ofIndex? event.rule = some s := by
    rw [hs, Symbol.ofIndex?_index]
  have halarm := hclean s hsymbol
  rw [see_eq hsymbol, shown?, hs, extensionOf?_index]
  split
  · rename_i hphase
    rw [hphase] at halarm ⊢
    cases hx : s.extension? with
    | none => exact noted_other h hdirect halarm fun _ => hx
    | some x => exact noted_extension h hdirect hx
  · exact noted_other h hdirect halarm fun hphase => absurd hphase ‹_›

end

/-! ## Sequences of events -/

/-- A strict observer notes what the events show, and nothing else. -/
structure AreNoted (events : List Event) : Prop where
  noted : ∀ {notes : Notes}, notes.IsStrict →
    Noted notes (events.foldl watch.see notes) (seen events)

namespace AreNoted

variable {events events' : List Event}

theorem nil : AreNoted [] :=
  ⟨Noted.refl⟩

theorem append (h : AreNoted events) (h' : AreNoted events') : AreNoted (events ++ events') := by
  refine ⟨fun {notes} hstrict => ?_⟩
  have hfirst := h.noted hstrict
  rw [List.foldl_append, seen_append]
  exact hfirst.trans (h'.noted hfirst.isStrict)

theorem singleton {event : Event} (hdirect : among Symbol.isDirect event.rule = true)
    (hclean : Clean event) : AreNoted [event] := by
  refine ⟨fun {notes} hstrict => ?_⟩
  have hseen : seen [event] = (shown? event).toList := by
    rw [seen, List.filterMap_cons]
    cases shown? event <;> rfl
  rw [hseen]
  exact noted_see hstrict hdirect hclean

theorem bracket {s : Symbol} {pos : Nat} {result : Option Nat} (hs : s.isDirect = true)
    (hclean : ∀ event ∈ bracket s.index pos result events, Clean event) (h : AreNoted events) :
    AreNoted (bracket s.index pos result events) := by
  have hdirect : among Symbol.isDirect s.index = true := among_index.trans hs
  have hactive : AreNoted [⟨s.index, .active, pos, 0⟩] :=
    .singleton hdirect (hclean _ (by simp [Engine.bracket]))
  have hend : AreNoted [⟨s.index, .ofResult result, pos, result.getD 0⟩] :=
    .singleton hdirect (hclean _ (by simp [Engine.bracket]))
  exact (hactive.append h).append hend

end AreNoted

section

variable {e : Expr Opcode} {pos : Nat} {rest : List UInt8} {result : Option Nat}
  {nodes : List Node} {events : List Event} {notes : Notes}

/-! ### User-defined terminals -/

/-- Whether a symbol occurs in the forms of a user-defined terminal, where nothing is noted. -/
def Symbol.isTerminalForm : Symbol → Bool
  | udtEmpty | udtNonEmpty | alphanum => true
  | _ => false

theorem see_terminalForm {event : Event} (h : among Symbol.isTerminalForm event.rule = true) :
    watch.see notes event = notes := by
  obtain ⟨s, hs, hform⟩ := exists_symbol_of_among h
  rw [see_eq (s := s) (by rw [hs, Symbol.ofIndex?_index])]
  cases s with
  | udtEmpty | udtNonEmpty | alphanum => cases event.phase <;> rfl
  | _ => cases hform

theorem foldl_terminalForm (h : ∀ event ∈ events, among Symbol.isTerminalForm event.rule = true) :
    events.foldl watch.see notes = notes := by
  induction events generalizing notes with
  | nil => rfl
  | cons event events ih =>
    rw [List.forall_mem_cons] at h
    rw [List.foldl_cons, see_terminalForm h.1, ih h.2]

theorem seen_udtBody (h : Run scheme Symbol.udtOp.body pos rest result nodes events) :
    result ≠ some 0 ∧ seen events = (result.map fun _ => (pos, .userTerminal)).toList := by
  cases h with
  | altHit h =>
    obtain ⟨hresult, hseen, -⟩ := extension_ref (s := .udtEmpty) rfl h
    exact ⟨hresult, hseen⟩
  | altMiss h h' =>
    obtain ⟨-, hfirst, -⟩ := extension_ref (s := .udtEmpty) rfl h
    cases h' with
    | altHit h' =>
      obtain ⟨hresult, hseen, -⟩ := extension_ref (s := .udtNonEmpty) rfl h'
      exact ⟨hresult, by rw [seen_append, hfirst, hseen]; rfl⟩
    | altMiss h' hnil =>
      obtain ⟨-, hseen, -⟩ := extension_ref (s := .udtNonEmpty) rfl h'
      cases hnil
      exact ⟨by simp, by rw [seen_append, seen_append, hfirst, hseen]; rfl⟩

/-- A user-defined terminal is noted when the choice between its forms ends, at the same offset. -/
theorem areNoted_udtOp (h : Run scheme Symbol.udtOp.body pos rest result nodes events) :
    AreNoted (bracket Symbol.udtOp.index pos result events) := by
  refine ⟨fun {notes} hstrict => ?_⟩
  have hforms : ∀ event ∈ events, among Symbol.isTerminalForm event.rule = true := by
    refine among_of_run (fun s hs => ?_) h rfl
    cases s <;> first | rfl | cases hs
  obtain ⟨hresult, hseen⟩ := seen_udtBody h
  rw [seen_bracket_of_none rfl, hseen]
  simp only [bracket, List.cons_append, List.foldl_cons, List.foldl_append, List.foldl_nil]
  rw [see_index, foldl_terminalForm hforms, see_index]
  cases result with
  | none => exact .refl hstrict
  | some n =>
    obtain ⟨n, rfl⟩ := Nat.exists_eq_succ_of_ne_zero fun hn => hresult (congrArg some hn)
    exact .noteExtension hstrict pos .userTerminal

/-! ### Case-sensitive strings -/

/-- A delimiter is not empty, and nothing else happens where it is tried. -/
theorem run_delimiter {s : Symbol} {c : Char} (hs : s.body = chars [c])
    (h : Run scheme (ref s) pos rest result nodes events) :
    result ≠ some 0 ∧ events = bracket s.index pos result [] := by
  cases h with
  | leaf h => simp [leafResult?] at h
  | rule hbody h =>
    rw [scheme_body] at hbody
    cases hbody
    rw [hs] at h
    cases h with
    | leaf h =>
      refine ⟨?_, rfl⟩
      rintro rfl
      simp [leafResult?, literalResult] at h

/-- Whether a symbol occurs between the quotes of a case-sensitive string. -/
def Symbol.isQuoted : Symbol → Bool
  | clsString | stringTab => true
  | _ => false

/-- A case-sensitive string has no opening quote, or, if no alarm is raised, both quotes. -/
theorem events_clsBody (h : Run scheme Symbol.clsOp.body pos rest result nodes events)
    (hclean : ∀ event ∈ events, Clean event) :
    (result = none ∧ events = bracket Symbol.clsOpen.index pos none []) ∨
      ∃ n inner offset m, result.isSome = true ∧
        (∀ event ∈ inner, among Symbol.isQuoted event.rule = true) ∧
        events = bracket Symbol.clsOpen.index pos (some (n + 1)) [] ++
          (inner ++ bracket Symbol.clsClose.index offset (some (m + 1)) []) := by
  cases h with
  | catMiss hopen => exact Or.inl ⟨rfl, (run_delimiter rfl hopen).2⟩
  | @catNext _ _ _ _ n _ _ _ _ _ hopen h =>
    obtain ⟨hn, rfl⟩ := run_delimiter (s := .clsOpen) rfl hopen
    obtain ⟨n, rfl⟩ := Nat.exists_eq_succ_of_ne_zero fun hzero => hn (congrArg some hzero)
    cases h with
    | catMiss hstring =>
      have hfails : Fails scheme (fun _ => True) (ref .clsString) _ _ :=
        ⟨_, hstring, fun _ _ => trivial⟩
      exact absurd ((fails_rule_iff (scheme_body .clsString)).1 hfails).2.2 not_fails_rep_zero
    | @catNext _ _ _ _ length _ inner _ _ _ hstring h =>
      have hinner : ∀ event ∈ inner, among Symbol.isQuoted event.rule = true := by
        refine among_of_run (fun s hs => ?_) hstring rfl
        cases s <;> first | rfl | cases hs
      cases h with
      | catMiss hclose =>
        obtain ⟨-, rfl⟩ := run_delimiter (s := .clsClose) rfl hclose
        have halarm : Clean ⟨Symbol.clsClose.index, .failed, pos + n.succ + length, 0⟩ :=
          hclean _ (by simp [bracket, Phase.ofResult])
        cases halarm .clsClose rfl
      | catNext hclose h =>
        obtain ⟨hm, rfl⟩ := run_delimiter (s := .clsClose) rfl hclose
        obtain ⟨m, rfl⟩ := Nat.exists_eq_succ_of_ne_zero fun hzero => hm (congrArg some hzero)
        cases h
        refine Or.inr ⟨n, inner, pos + n.succ + length, m, rfl, hinner, ?_⟩
        rw [List.append_nil]

theorem levels_see_quoted {event : Event} (h : among Symbol.isQuoted event.rule = true) :
    (watch.see notes event).levels = notes.levels := by
  obtain ⟨s, hs, hquoted⟩ := exists_symbol_of_among h
  rw [see_eq (s := s) (by rw [hs, Symbol.ofIndex?_index])]
  cases s with
  | stringTab => cases event.phase <;> rfl
  | clsString =>
    cases event.phase with
    | matched =>
      simp only [Notes.observe, Notes.noteTab, Notes.note]
      split
      · split <;> rfl
      · rfl
    | _ => rfl
  | _ => cases hquoted

theorem levels_foldl_quoted (h : ∀ event ∈ events, among Symbol.isQuoted event.rule = true) :
    (events.foldl watch.see notes).levels = notes.levels := by
  induction events generalizing notes with
  | nil => rfl
  | cons event events ih =>
    rw [List.forall_mem_cons] at h
    rw [List.foldl_cons, ih h.2, levels_see_quoted h.1]

theorem areNoted_of_direct (hdirect : ∀ event ∈ events, among Symbol.isDirect event.rule = true)
    (hclean : ∀ event ∈ events, Clean event) : AreNoted events := by
  induction events with
  | nil => exact .nil
  | cons event events ih =>
    rw [List.forall_mem_cons] at hdirect hclean
    exact (AreNoted.singleton hdirect.1 hclean.1).append (ih hdirect.2 hclean.2)

/-- A case-sensitive string is noted at its closing quote, where the level still remembers the
opening one. -/
theorem areNoted_clsOp (h : Run scheme Symbol.clsOp.body pos rest result nodes events)
    (hclean : ∀ event ∈ events, Clean event) :
    AreNoted (bracket Symbol.clsOp.index pos result events) := by
  refine ⟨fun {notes} hstrict => ?_⟩
  obtain ⟨-, hseen, -⟩ := extension_ref (s := .clsOp) rfl (.rule (scheme_body .clsOp) h)
  rw [hseen]
  rcases events_clsBody h hclean with ⟨rfl, rfl⟩ | ⟨n, inner, offset, m, hresult, hquoted, rfl⟩
  · exact .refl hstrict
  · obtain ⟨length, rfl⟩ := Option.isSome_iff_exists.1 hresult
    let opened := notes.modifyLevel fun level => { level with caseSensitiveString := pos }
    have hnone : ∀ event ∈ inner, among Symbol.isDirect event.rule = true ∧ shown? event = none := by
      intro event hevent
      obtain ⟨s, hs, hquoted⟩ := exists_symbol_of_among (hquoted event hevent)
      rw [shown?, hs, among_index, extensionOf?_index]
      cases s with
      | clsString | stringTab => exact ⟨rfl, ite_self _⟩
      | _ => cases hquoted
    have hinner : Noted opened (inner.foldl watch.see opened) [] := by
      have hseen : seen inner = [] :=
        List.filterMap_eq_nil_iff.2 fun event hevent => (hnone event hevent).2
      rw [← hseen]
      refine (areNoted_of_direct (fun event hevent => (hnone event hevent).1)
        fun event hevent => hclean event ?_).noted ⟨hstrict.strict, hstrict.tab⟩
      simp [hevent]
    -- Nothing in between touches the level, so the closing quote finds the place of the opening
    -- one.
    let closing := inner.foldl watch.see opened
    have hopened : Noted notes opened [] := ⟨⟨hstrict.strict, hstrict.tab⟩, rfl⟩
    have hlevel : closing.level.caseSensitiveString = pos := by
      rw [Notes.level, levels_foldl_quoted hquoted]
      rfl
    have hclose : closing.observe .clsClose .matched offset =
        closing.noteExtension pos .caseSensitiveString :=
      congrArg (closing.noteExtension · .caseSensitiveString) hlevel
    simp only [bracket, List.cons_append, List.nil_append, List.append_assoc, List.foldl_cons,
      List.foldl_append, List.foldl_nil, see_index]
    show Noted notes (closing.observe .clsClose .matched offset) [(pos, .caseSensitiveString)]
    rw [hclose]
    exact (hopened.trans hinner).trans (.noteExtension hinner.isStrict pos .caseSensitiveString)

/-! ### Runs -/

/-- Whether a symbol is noted as a whole: it is no part of a user-defined terminal or of a
case-sensitive string that is noted with the rest of it. -/
def Symbol.isWhole : Symbol → Bool
  | file | udtEmpty | udtNonEmpty | clsClose => false
  | _ => true

theorem isRunnable_of_isDirect {s : Symbol} (hs : s.isDirect = true) :
    s.body.isRunnable (among Symbol.isWhole) = true := by
  cases s <;> first | rfl | cases hs

/-- Along a run without alarm a strict observer notes the extensions that it sees. -/
theorem areNoted_of_clean (h : Run scheme e pos rest result nodes events)
    (he : e.isRunnable (among Symbol.isWhole) = true) (hclean : ∀ event ∈ events, Clean event) :
    AreNoted events := by
  induction h with
  | leaf | altNil | catNil | repDone => exact .nil
  | rule hbody hrun ih =>
    obtain ⟨s, hs, rfl⟩ := Option.map_eq_some_iff.1 hbody
    cases index_of_ofIndex? hs
    rename_i pos rest result nodes events
    have hinner : ∀ event ∈ events, Clean event :=
      fun event hevent => hclean event (by simp [bracket, hevent])
    cases hdirect : s.isDirect with
    | true => exact .bracket hdirect hclean (ih (isRunnable_of_isDirect hdirect) hinner)
    | false =>
      have hwhole : s.isWhole = true := among_index.symm.trans he
      cases s with
      | udtOp => exact areNoted_udtOp hrun
      | clsOp => exact areNoted_clsOp hrun hinner
      | file | udtEmpty | udtNonEmpty | clsClose => cases hwhole
      | _ => cases hdirect
  | altHit _ ih | catMiss _ ih =>
    simp only [Expr.isRunnable, Expr.allRunnable, Bool.and_eq_true] at he
    exact ih he.1 hclean
  | altMiss _ _ ih₁ ih₂ | catNext _ _ ih₁ ih₂ =>
    simp only [Expr.isRunnable, Expr.allRunnable, Bool.and_eq_true] at he
    rw [List.forall_mem_append] at hclean
    exact (ih₁ he.1 hclean.1).append (ih₂ he.2 hclean.2)
  | repMiss _ _ ih | repEmpty _ _ ih | and _ ih | not _ ih => exact ih he hclean
  | repNext _ _ _ ih₁ ih₂ =>
    rw [List.forall_mem_append] at hclean
    exact (ih₁ he hclean.1).append (ih₂ he hclean.2)

end

/-! ## Recognition -/

section

variable {source : Source} {strict : Bool} {recognition : Recognition}

/-- A strict observer of a whole text notes what is seen. -/
theorem flaws_strict {pos n : Nat} {rest : List UInt8} {nodes : List Node} {events : List Event}
    (h : Run scheme (ref .file) pos rest (some n) nodes events)
    (hclean : ∀ event ∈ events, Clean event) (hn : n ≠ 0)
    (hrule : ∃ event ∈ events, FindsRule event) :
    (events.foldl watch.see { strict := true }).flaws = (seen events).foldl addExtension #[] := by
  obtain ⟨inner, rfl, hfile⟩ := events_file h
  have hinner : AreNoted inner := by
    obtain ⟨-, -, _, ⟨inner', hrun, hclean'⟩, -⟩ :=
      (matches_rule_iff (scheme_body .file)).1 ⟨_, h, hclean⟩
    obtain ⟨-, -, heq⟩ := h.unique (.rule (scheme_body .file) hrun)
    obtain rfl : inner = inner' := by simpa [bracket] using heq
    exact areNoted_of_clean hrun rfl hclean'
  have hcount : (inner.foldl watch.see { strict := true }).ruleCount ≠ 0 :=
    ruleCount_of_findsRule hfile hrule
  have hmatched : Phase.ofResult (some n) = .matched := by
    cases n with
    | zero => exact absurd rfl hn
    | succ n => rfl
  have hnoted : Noted { strict := true } (inner.foldl watch.see { strict := true }) (seen inner) :=
    hinner.noted ⟨rfl, rfl⟩
  rw [seen_bracket_of_none rfl, ← hnoted.flaws]
  simp only [bracket, List.cons_append, List.foldl_cons, List.foldl_append, List.foldl_nil,
    see_index, hmatched]
  simp only [Notes.observe, hcount, if_false]

/-- Strict recognition of a text without flaws finds the extensions among its phrases, one behind
the other, and nothing else. -/
theorem recognize_strict (h : recognize source false = .ok recognition)
    (hflaws : recognition.flaws = []) :
    ((extensions recognition.records.forest).map Prod.fst).Pairwise (· < ·) ∧
      ∃ found, recognize source true = .ok found ∧ found.records = recognition.records ∧
        found.flaws = (extensions recognition.records.forest).map fun entry =>
          (entry.1, .extension entry.2) := by
  obtain ⟨nodes, events, hrun, hclean, hne, hrule, hrecords⟩ := run_of_flawless h hflaws
  obtain ⟨events', hproper, -⟩ := proper_of_clean hrun rfl hclean
  have hseen : seen events = extensions nodes := by
    have hfile : ProperMatch (ref .file) 0 source.bytes.toList source.bytes.toList.length nodes :=
      ⟨events', by rwa [Array.length_toList], fun _ _ => trivial⟩
    obtain ⟨_, hrun', hseen⟩ := accounted_file hfile
    obtain ⟨-, -, rfl⟩ := hrun.unique hrun'
    exact hseen
  have horder := (inOrder_extensions hrun).pairwise
  rw [hrecords, Records.forest_ofNodes]
  refine ⟨horder, ?_⟩
  obtain ⟨_, _, _, hrun', heq⟩ := recognize_eq source true
  obtain ⟨rfl, rfl, rfl⟩ := hrun.unique hrun'
  refine ⟨_, heq, rfl, ?_⟩
  rw [if_pos rfl, List.append_nil, flaws_strict hrun hclean hne hrule, hseen,
    foldl_addExtension horder (by simp)]
  rfl

/-- What strict recognition does not object to, recognition does not object to. -/
theorem flawless_of_strict (h : recognize source true = .ok recognition)
    (hflaws : recognition.flaws = []) :
    ∃ found, recognize source false = .ok found ∧ found.flaws = [] := by
  obtain ⟨nodes, events, hrun, hclean, hne, hrule, -⟩ := run_of_flawless h hflaws
  obtain ⟨_, _, _, hrun', heq⟩ := recognize_eq source false
  obtain ⟨rfl, rfl, rfl⟩ := hrun.unique hrun'
  refine ⟨_, heq, ?_⟩
  rw [if_pos rfl, flawless_of_clean hrun hclean hne hrule]
  rfl

end

end Abnf.Metagrammar

namespace Abnf

open Metagrammar

/-! ## Line ends -/

/-- The character check of a strict text adds that every line ends in CRLF. -/
theorem characterFlaws_strict {bytes : List UInt8} {number start textLength line offset : Nat}
    {started : Bool} (hstarted : started = true ↔ textLength ≠ 0) :
    characterFlaws true line offset started bytes = [] ↔
      characterFlaws false line offset started bytes = [] ∧
        ∀ line ∈ Line.catalog number start textLength bytes, line.ending = .crlf := by
  fun_induction Line.catalog number start textLength bytes generalizing line offset started with
  | case1 number start =>
    have hnot : started = false := by simpa using hstarted
    simp [characterFlaws, hnot]
  | case2 number start textLength hlength =>
    simp [characterFlaws, hstarted.2 hlength]
  | case3 number start textLength rest ih =>
    simp only [characterFlaws, List.forall_mem_cons, true_and]
    exact ih (by simp)
  | case4 number start textLength rest hcrlf ih =>
    simp [characterFlaws]
  | case5 number start textLength rest hcrlf ih =>
    simp [characterFlaws]
  | case6 number start textLength byte rest hcrlf hlf hcr ih =>
    have hnext : characterFlaws true line (offset + 1) true rest = [] ↔ _ := ih (by simp)
    simp only [characterFlaws, hlf, hcr, if_false]
    split
    · exact hnext
    · simp

theorem characterDiagnostics_strict (text : String) :
    (Source.ofString text).characterDiagnostics true = [] ↔
      (Source.ofString text).characterDiagnostics false = [] ∧
        ∀ line ∈ (Source.ofString text).lines, line.ending = .crlf := by
  simp only [Source.characterDiagnostics, List.map_eq_nil_iff, Source.ofString, Source.ofBytes,
    List.mem_toArray]
  exact characterFlaws_strict (by simp)

/-! ## Compiling -/

section

variable {strict : Bool} {text : String} {grammar : Grammar}

/-- A text that compiles has no flaws of characters or of structure. -/
theorem flawless_of_compileText (h : compileText strict text = .ok (.ok grammar)) :
    (Source.ofString text).characterDiagnostics strict = [] ∧
      ∃ recognition, recognize (.ofString text) strict = .ok recognition ∧
        recognition.flaws = [] := by
  obtain ⟨hcharacters, recognition, _, _, hrecognize, hform, -⟩ := exists_stages_of_compileText h
  exact ⟨hcharacters, recognition, hrecognize, hform⟩

/-- Where neither characters nor structure are objected to, strictness makes no difference. -/
theorem compileText_strict {recognition found : Recognition}
    (hcharacters : (Source.ofString text).characterDiagnostics true = [])
    (hcharacters' : (Source.ofString text).characterDiagnostics false = [])
    (hrecognize : recognize (.ofString text) true = .ok found)
    (hrecognize' : recognize (.ofString text) false = .ok recognition) (hflaws : found.flaws = [])
    (hflaws' : recognition.flaws = []) (hrecords : found.records = recognition.records) :
    compileText true text = compileText false text := by
  have htables : Tables.ofRecognition (.ofString text) found =
      Tables.ofRecognition (.ofString text) recognition := by
    rw [Tables.ofRecognition, Tables.ofRecognition, hflaws, hflaws', hrecords]
  simp only [compileText, hcharacters, hcharacters', hrecognize, hrecognize', bind, Except.bind,
    Recognition.diagnostics, hflaws, hflaws', htables]

/-- If recognition finds no flaw in a text, strict recognition objects to each operator that plain
ABNF does not have, in the order of the text and to nothing else. Strict compiling therefore gives
a grammar just if the text has CRLF line ends only, uses none of these operators, and compiles to
this grammar anyway. -/
theorem strict_recognition_exact :
    (∀ (source : Source) (recognition : Recognition),
      recognize source false = .ok recognition → recognition.diagnostics source = [] →
        ∃ found, recognize source true = .ok found ∧
          found.diagnostics source = (extensions recognition.records.forest).map (fun entry =>
            source.diagnostic entry.1 (Flaw.extension entry.2).message) ∧
          ((found.diagnostics source).map Diagnostic.offset).Pairwise (· < ·)) ∧
      ∀ text grammar, compile true [text] = .ok (.ok grammar) ↔
        (∀ line ∈ (Source.ofString text).lines, line.ending = .crlf) ∧
          compile false [text] = .ok (.ok grammar) ∧
          ∀ recognition, recognize (.ofString text) false = .ok recognition →
            extensions recognition.records.forest = [] := by
  constructor
  · intro source recognition hrecognize hdiagnostics
    have hflaws : recognition.flaws = [] := List.map_eq_nil_iff.1 hdiagnostics
    obtain ⟨horder, found, hstrict, -, hfound⟩ := recognize_strict hrecognize hflaws
    refine ⟨found, hstrict, ?_, ?_⟩
    · rw [Recognition.diagnostics, hfound, List.map_map]
      rfl
    · rw [Recognition.diagnostics, hfound, List.map_map, List.map_map]
      exact horder
  · intro text grammar
    rw [compile_singleton, compile_singleton]
    constructor
    · intro h
      obtain ⟨hcharacters, found, hstrict, hfound⟩ := flawless_of_compileText h
      obtain ⟨hcharacters', hlines⟩ := (characterDiagnostics_strict text).1 hcharacters
      obtain ⟨recognition, hrecognize, hflaws⟩ := flawless_of_strict hstrict hfound
      obtain ⟨-, found', hstrict', hrecords, hextensions⟩ := recognize_strict hrecognize hflaws
      cases hstrict.symm.trans hstrict'
      refine ⟨hlines, ?_, fun recognition' hrecognize' => ?_⟩
      · rwa [← compileText_strict hcharacters hcharacters' hstrict hrecognize hfound hflaws hrecords]
      · cases hrecognize.symm.trans hrecognize'
        rw [hfound] at hextensions
        exact List.map_eq_nil_iff.1 hextensions.symm
    · rintro ⟨hlines, h, hnone⟩
      obtain ⟨hcharacters', recognition, hrecognize, hflaws⟩ := flawless_of_compileText h
      have hcharacters := (characterDiagnostics_strict text).2 ⟨hcharacters', hlines⟩
      obtain ⟨-, found, hstrict, hrecords, hextensions⟩ := recognize_strict hrecognize hflaws
      have hfound : found.flaws = [] := by
        rw [hextensions, hnone recognition hrecognize, List.map_nil]
      rwa [compileText_strict hcharacters hcharacters' hstrict hrecognize hfound hflaws hrecords]

/-- A look-ahead at a case-sensitive string is fine, but strictly there are two objections. -/
theorem strict_recognition_exact_quoted :
    ∃ recognition found, recognize (.ofString "a=&'b'\n") false = .ok recognition ∧
      recognition.diagnostics (.ofString "a=&'b'\n") = [] ∧
      recognize (.ofString "a=&'b'\n") true = .ok found ∧
      found.diagnostics (.ofString "a=&'b'\n") =
        [⟨0, 2, "AND operator(&) found - strict ABNF specified."⟩,
          ⟨0, 3, "Case-sensitive string operator('...') found - strict ABNF specified."⟩] := by
  have hchecked : (read? (.ofString "a=&'b'\n") false).map
      (fun found => (found.1, extensions found.2)) =
        some ([], [(2, .and), (3, .caseSensitiveString)]) := by
    decide +kernel
  obtain ⟨⟨flaws, nodes⟩, hread, hfound⟩ := Option.map_eq_some_iff.1 hchecked
  obtain ⟨rfl, hextensions⟩ := Prod.mk.inj hfound
  obtain ⟨recognition, hrecognize, hflaws, hrecords⟩ := recognize_of_read? hread
  have hdiagnostics : recognition.diagnostics (.ofString "a=&'b'\n") = [] := by
    rw [Recognition.diagnostics, hflaws, List.map_nil]
  obtain ⟨found, hstrict, heq, -⟩ :=
    strict_recognition_exact.1 (.ofString "a=&'b'\n") recognition hrecognize hdiagnostics
  refine ⟨recognition, found, hrecognize, hdiagnostics, hstrict, ?_⟩
  rw [heq, hrecords, Records.forest_ofNodes, hextensions]
  decide +kernel

end

end Abnf
