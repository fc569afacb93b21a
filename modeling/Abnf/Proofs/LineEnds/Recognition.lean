import Abnf.Proofs.LineEnds.Bytes

/-!
# Recognition with other line ends

The metagrammar treats all line ends alike. Apart from its line breaks it has no expression that
matches a line feed or a carriage return, and a line break takes a whole line end, never a part of
it. So a run on converted bytes is the run on the bytes, with every place gone where its byte goes,
and the observer makes the same notes at these places.

* `Run.convert`: a run on converted bytes.
* `Notes.move_observe`: what the observer notes when offsets change.
* `recognize_convert`: recognition of converted bytes.
-/

namespace Abnf

/-! ## Places -/

namespace Node

mutual

/-- A tree whose phrases have gone elsewhere. -/
def move (place : Nat → Nat) : Node → Node
  | mk rule offset length children =>
    mk rule (place offset) (place (offset + length) - place offset) (moveAll place children)

/-- Trees whose phrases have gone elsewhere. -/
def moveAll (place : Nat → Nat) : List Node → List Node
  | [] => []
  | node :: nodes => move place node :: moveAll place nodes

end

@[simp] theorem moveAll_nil (place : Nat → Nat) : moveAll place [] = [] :=
  rfl

theorem moveAll_eq_map (place : Nat → Nat) (nodes : List Node) :
    moveAll place nodes = nodes.map (move place) := by
  induction nodes with
  | nil => rfl
  | cons node nodes ih => rw [moveAll, ih, List.map_cons]

theorem moveAll_append (place : Nat → Nat) (nodes nodes' : List Node) :
    moveAll place (nodes ++ nodes') = moveAll place nodes ++ moveAll place nodes' := by
  rw [moveAll_eq_map, List.map_append, moveAll_eq_map, moveAll_eq_map]

end Node

/-- An event of a phrase that has gone elsewhere. -/
def Engine.Event.move (place : Nat → Nat) (event : Engine.Event) : Engine.Event :=
  { event with
    offset := place event.offset
    length := place (event.offset + event.length) - place event.offset }

namespace Metagrammar

open Engine
open scoped Decisions

/-! ## Neutral expressions -/

/-- Whether a leaf matches neither line feeds nor carriage returns. -/
def isBlind : Opcode → Bool
  | .tbs chars => chars.all fun char => char != 10 && char != 13
  | .trg min max => !(min ≤ 10 && 10 ≤ max) && !(min ≤ 13 && 13 ≤ max)
  | .abg | .aen | .tls _ => false
  | _ => true

/-- Whether alternatives are those of a line break. -/
def isLineBreak : List (Expr Opcode) → Bool
  | [.atom (.tbs a), .atom (.tbs b), .atom (.tbs c)] => a == [13, 10] && b == [10] && c == [13]
  | _ => false

mutual

/-- Whether an expression matches line feeds and carriage returns by line breaks only. -/
def isNeutral : Expr Opcode → Bool
  | .atom op => isBlind op
  | .alt es => isLineBreak es || allNeutral es
  | .cat es => allNeutral es
  | .under _ e => isNeutral e

/-- Whether expressions match line feeds and carriage returns by line breaks only. -/
def allNeutral : List (Expr Opcode) → Bool
  | [] => true
  | e :: es => isNeutral e && allNeutral es

end

theorem isNeutral_body (s : Symbol) : isNeutral s.body = true := by
  cases s <;> rfl

theorem eq_lineBreak {es : List (Expr Opcode)} (h : isLineBreak es = true) :
    Expr.alt es = lineBreak := by
  unfold isLineBreak at h
  split at h
  · simp only [Bool.and_eq_true, beq_iff_eq] at h
    obtain ⟨⟨rfl, rfl⟩, rfl⟩ := h
    rfl
  · cases h

/-! ## Leaves -/

section

variable (ending : Ending) {pos pos' : Nat} {rest : List UInt8} {result : Option Nat}

theorem beginsWith_convert (rest : List UInt8) {chars : List UInt32}
    (hchars : ∀ char ∈ chars, char ≠ 10 ∧ char ≠ 13) :
    beginsWith id chars (ending.convert rest) = beginsWith id chars rest ∧
      (beginsWith id chars rest = true → 10 ∉ rest.take chars.length) := by
  induction chars generalizing rest with
  | nil => exact ⟨rfl, by simp⟩
  | cons char chars ih =>
    obtain ⟨hchar, hchars⟩ := List.forall_mem_cons.1 hchars
    cases rest with
    | nil => exact ⟨rfl, by simp [beginsWith]⟩
    | cons byte rest =>
      by_cases hbyte : byte = 10
      · subst hbyte
        have hlf : ((10 : UInt32) == char) = false := by simpa using Ne.symm hchar.1
        have hcr : ((13 : UInt32) == char) = false := by simpa using Ne.symm hchar.2
        cases ending <;> simp [beginsWith, Ending.bytes, hlf, hcr]
      · obtain ⟨heq, hclear⟩ := ih rest hchars
        rw [ending.convert_cons hbyte]
        simp only [beginsWith, heq, List.length_cons, List.take_succ_cons, Bool.and_eq_true,
          List.mem_cons, not_or, true_and]
        exact fun h => ⟨Ne.symm hbyte, hclear h.2⟩

theorem leafResult?_convert {op : Opcode} (hop : isBlind op = true)
    (h : leafResult? op pos rest = some result) :
    leafResult? op pos' (ending.convert rest) = some (result.map (ending.shift rest)) := by
  cases op with
  | tbs chars =>
    have hchars : ∀ char ∈ chars, char ≠ 10 ∧ char ≠ 13 := by simpa [isBlind] using hop
    obtain ⟨heq, hclear⟩ := beginsWith_convert ending rest hchars
    cases h
    simp only [leafResult?, literalResult, heq]
    split
    · rename_i hbegins
      rw [Option.map_some, ending.shift_of_not_mem (hclear hbegins)]
    · rfl
  | trg min max =>
    cases h
    simp only [isBlind, Bool.and_eq_true, Bool.not_eq_true'] at hop
    cases rest with
    | nil => rfl
    | cons byte rest =>
      by_cases hbyte : byte = 10
      · subst hbyte
        have hlf : (min ≤ (10 : UInt8).toUInt32 && (10 : UInt8).toUInt32 ≤ max) = false := hop.1
        have hcr : (min ≤ (13 : UInt8).toUInt32 && (13 : UInt8).toUInt32 ≤ max) = false := hop.2
        cases ending <;> simp only [leafResult?, rangeResult, Ending.convert_lineFeed, Ending.bytes,
          List.cons_append, hlf, hcr] <;> rfl
      · rw [ending.convert_cons hbyte]
        simp only [leafResult?, rangeResult]
        split
        · rw [Option.map_some, ending.shift_cons hbyte, Ending.shift_zero]
        · rfl
  | abg | aen | tls => cases hop
  | _ => cases h

/-! ## Line breaks -/

/-- The result of a line break. -/
def lineBreakResult (rest : List UInt8) : Option Nat :=
  (literalResult id [13, 10] rest).or ((literalResult id [10] rest).or (literalResult id [13] rest))

theorem run_lineBreak (pos : Nat) (rest : List UInt8) :
    Run scheme lineBreak pos rest (lineBreakResult rest) [] [] := by
  have hcrlf : Run scheme (chars ['\r', '\n']) pos rest (literalResult id [13, 10] rest) [] [] :=
    .leaf rfl
  have hlf : Run scheme (chars ['\n']) pos rest (literalResult id [10] rest) [] [] := .leaf rfl
  have hcr : Run scheme (chars ['\r']) pos rest (literalResult id [13] rest) [] [] := .leaf rfl
  unfold lineBreakResult
  generalize literalResult id [13, 10] rest = first at hcrlf ⊢
  generalize literalResult id [10] rest = second at hlf ⊢
  generalize literalResult id [13] rest = third at hcr ⊢
  cases first with
  | some n => exact .altHit hcrlf
  | none =>
    cases second with
    | some n => exact .altMiss hcrlf (.altHit hlf)
    | none =>
      cases third with
      | some n => exact .altMiss hcrlf (.altMiss hlf (.altHit hcr))
      | none => exact .altMiss hcrlf (.altMiss hlf (.altMiss hcr .altNil))

theorem lineBreakResult_cr {bytes : List UInt8} (h : bytes.head? ≠ some 10) :
    lineBreakResult (13 :: bytes) = some 1 := by
  cases bytes with
  | nil => rfl
  | cons byte bytes =>
    have hbyte : byte.toUInt32 ≠ 10 := by
      intro heq
      exact h (congrArg some (UInt8.toUInt32_inj.1 heq))
    simp [lineBreakResult, literalResult, beginsWith, hbyte]

/-- A line break takes a whole line end: both bytes of CRLF, and never a carriage return alone
where a line feed follows. -/
theorem lineBreakResult_convert (hrest : 13 ∉ rest) :
    lineBreakResult (ending.convert rest) = (lineBreakResult rest).map (ending.shift rest) := by
  cases rest with
  | nil => rfl
  | cons byte rest =>
    rw [List.mem_cons, not_or] at hrest
    by_cases hbyte : byte = 10
    · subst hbyte
      have hfound : lineBreakResult (10 :: rest) = some 1 := rfl
      have hshift : ending.shift (10 :: rest) 1 = ending.bytes.length := ending.shift_lineFeed rest 0
      rw [hfound, Option.map_some, hshift, ending.convert_lineFeed]
      cases ending with
      | crlf => rfl
      | cr => exact lineBreakResult_cr (Ending.head?_convert_ne .cr rest)
    · have hnone : ∀ rest : List UInt8, lineBreakResult (byte :: rest) = none := by
        have hlf : byte.toUInt32 ≠ 10 := fun heq => hbyte (UInt8.toUInt32_inj.1 heq)
        have hcr : byte.toUInt32 ≠ 13 := fun heq => hrest.1 (UInt8.toUInt32_inj.1 heq).symm
        simp [lineBreakResult, literalResult, beginsWith, hlf, hcr]
      rw [ending.convert_cons hbyte, hnone, hnone, Option.map_none]

end

/-! ## Runs -/

section

variable (ending : Ending) {bytes rest : List UInt8} {pos : Nat} {e : Expr Opcode}
  {result : Option Nat} {nodes : List Node} {events : List Event}

theorem ofResult_map_shift : Phase.ofResult (result.map (ending.shift rest)) = .ofResult result := by
  cases result with
  | none => rfl
  | some n =>
    cases n with
    | zero => rw [Option.map_some, Ending.shift_zero]
    | succ n =>
      obtain ⟨m, hm⟩ := Nat.exists_eq_add_of_le (ending.le_shift rest (n + 1))
      rw [Option.map_some, hm, Nat.add_right_comm]
      rfl

theorem getD_map_shift :
    (result.map (ending.shift rest)).getD 0 = ending.shift rest (result.getD 0) := by
  cases result <;> simp

theorem map_move_bracket (hrest : rest = bytes.drop pos) (rule : Nat) :
    (bracket rule pos result events).map (Event.move (ending.shift bytes)) =
      bracket rule (ending.shift bytes pos) (result.map (ending.shift rest))
        (events.map (Event.move (ending.shift bytes))) := by
  have hmove : ∀ phase n, Event.move (ending.shift bytes) ⟨rule, phase, pos, n⟩ =
      ⟨rule, phase, ending.shift bytes pos, ending.shift rest n⟩ := by
    intro phase n
    rw [Event.move, ending.shift_sub, hrest]
  simp only [bracket, List.map_append, List.map_cons, List.map_nil, hmove, ofResult_map_shift,
    getD_map_shift, Ending.shift_zero]

theorem moveAll_wrap (hrest : rest = bytes.drop pos) (rule : Nat) :
    Node.moveAll (ending.shift bytes) (scheme.wrap rule pos result nodes) =
      scheme.wrap rule (ending.shift bytes pos) (result.map (ending.shift rest))
        (Node.moveAll (ending.shift bytes) nodes) := by
  cases result with
  | none => rfl
  | some n =>
    simp only [Scheme.wrap, Option.map_some]
    split
    · rw [Node.moveAll, Node.moveAll, Node.move, ending.shift_sub, hrest]
    · rfl

theorem map_shift_add (rest : List UInt8) (n : Nat) (result : Option Nat) :
    (result.map (n + ·)).map (ending.shift rest) =
      (result.map (ending.shift (rest.drop n))).map (ending.shift rest n + ·) := by
  cases result <;> simp [ending.shift_add]

theorem map_shift_enough (rest : List UInt8) (min : UInt32) (count : Nat) :
    (enough min count).map (ending.shift rest) = enough min count := by
  unfold enough
  split
  · rw [Option.map_some, Ending.shift_zero]
  · rfl

theorem moveAll_if (place : Nat → Nat) (c : Prop) [Decidable c] (nodes : List Node) :
    Node.moveAll place (if c then nodes else []) = if c then Node.moveAll place nodes else [] := by
  split <;> rfl

/-- A run on converted bytes is the run on the bytes, with every place gone where its byte goes. -/
theorem Run.convert (hbytes : 13 ∉ bytes) (h : Run scheme e pos rest result nodes events)
    (he : isNeutral e = true) (hrest : rest = bytes.drop pos) :
    Run scheme e (ending.shift bytes pos) (ending.convert rest) (result.map (ending.shift rest))
      (Node.moveAll (ending.shift bytes) nodes) (events.map (Event.move (ending.shift bytes))) := by
  have hlineBreak : ∀ {es : List (Expr Opcode)} {pos rest result nodes events},
      isLineBreak es = true → rest = bytes.drop pos →
      Run scheme (.alt es) pos rest result nodes events →
      Run scheme (.alt es) (ending.shift bytes pos) (ending.convert rest)
        (result.map (ending.shift rest)) (Node.moveAll (ending.shift bytes) nodes)
        (events.map (Event.move (ending.shift bytes))) := by
    intro es pos rest result nodes events hes hrest h
    have hfree : 13 ∉ rest := by
      rw [hrest]
      exact fun hmem => hbytes (List.mem_of_mem_drop hmem)
    rw [eq_lineBreak hes] at h ⊢
    obtain ⟨rfl, rfl, rfl⟩ := h.unique (run_lineBreak pos rest)
    rw [← lineBreakResult_convert ending hfree]
    exact run_lineBreak _ _
  -- A line break is taken as a whole, since another of its alternatives matches after conversion.
  -- All else goes by induction on the run: offsets and lengths add up where their bytes go.
  induction h with
  | leaf h => exact .leaf (leafResult?_convert ending he h)
  | rule hbody _ ih =>
    obtain ⟨s, hs, rfl⟩ := Option.map_eq_some_iff.1 hbody
    rw [moveAll_wrap ending hrest, map_move_bracket ending hrest]
    exact .rule hbody (ih (isNeutral_body s) hrest)
  | altNil => exact .altNil
  | altHit h ih =>
    simp only [isNeutral, allNeutral, Bool.or_eq_true, Bool.and_eq_true] at he
    rcases he with hes | he
    · exact hlineBreak hes hrest (.altHit h)
    · exact .altHit (ih he.1 hrest)
  | altMiss h h' ih ih' =>
    simp only [isNeutral, allNeutral, Bool.or_eq_true, Bool.and_eq_true] at he
    rcases he with hes | he
    · exact hlineBreak hes hrest (.altMiss h h')
    · rw [List.map_append]
      refine .altMiss (ih he.1 hrest) (ih' ?_ hrest)
      simp [isNeutral, he.2]
  | catNil => exact .catNil
  | catMiss _ ih =>
    simp only [isNeutral, allNeutral, Bool.and_eq_true] at he
    exact .catMiss (ih he.1 hrest)
  | @catNext _ _ pos rest length nodes events result nodes' events' _ _ ih ih' =>
    simp only [isNeutral, allNeutral, Bool.and_eq_true] at he
    have hnext := ih' he.2 (by rw [hrest, List.drop_drop])
    rw [ending.shift_add, ← hrest, ← ending.drop_convert] at hnext
    have hrun := Run.catNext (ih he.1 hrest) hnext
    rwa [Option.isSome_map, ← map_shift_add, ← Node.moveAll_append, ← moveAll_if,
      ← List.map_append] at hrun
  | repDone =>
    rw [map_shift_enough]
    exact .repDone
  | repMiss hmax _ ih =>
    rw [map_shift_enough]
    exact .repMiss hmax (ih he hrest)
  | repEmpty hmax _ ih =>
    have hfirst := ih he hrest
    rw [Option.map_some, Ending.shift_zero] at hfirst
    rw [map_shift_enough, moveAll_if]
    exact .repEmpty hmax hfirst
  | @repNext _ max _ pos rest length nodes events result nodes' events' hmax _ _ ih ih' =>
    have hnext := ih' he (by rw [hrest, List.drop_drop])
    rw [ending.shift_add, ← hrest, ← ending.drop_convert] at hnext
    have hfirst := ih he hrest
    have hadd := map_shift_add ending rest (length + 1) result
    obtain ⟨m, hm⟩ := Nat.exists_eq_add_of_le (ending.le_shift rest (length + 1))
    rw [Option.map_some] at hfirst
    rw [hm, Nat.add_right_comm] at hfirst hnext hadd
    have hrun := Run.repNext hmax hfirst hnext
    rwa [Option.isSome_map, ← hadd, ← Node.moveAll_append, ← moveAll_if, ← List.map_append] at hrun
  | @and _ _ _ result _ _ _ ih =>
    have hrun := Run.and (ih he hrest)
    cases result with
    | none => exact hrun
    | some n => simpa using hrun
  | @not _ _ _ result _ _ _ ih =>
    have hrun := Run.not (ih he hrest)
    cases result with
    | none => simpa using hrun
    | some n => exact hrun

end

/-! ## Notes -/

/-- A level whose delimiters have gone elsewhere. -/
def Level.move (place : Nat → Nat) (level : Level) : Level where
  bracket := place level.bracket
  string := place level.string
  caseSensitiveString := place level.caseSensitiveString
  prose := place level.prose
  noted := level.noted

namespace Notes

/-- The notes about a text whose bytes have gone elsewhere. -/
def move (place : Nat → Nat) (notes : Notes) : Notes :=
  { notes with
    levels := notes.levels.map (Level.move place)
    tab := notes.tab.map place
    flaws := notes.flaws.map fun flaw => (place flaw.1, flaw.2) }

variable {place : Nat → Nat} (hplace : Function.Injective place) {notes : Notes}
include hplace

theorem move_note (offset : Nat) (flaw : Flaw) :
    (notes.note offset flaw).move place = (notes.move place).note (place offset) flaw := by
  have hcontains : (notes.move place).flaws.contains (place offset, flaw) =
      notes.flaws.contains (offset, flaw) := by
    rw [Bool.eq_iff_iff, Array.contains_iff_mem, Array.contains_iff_mem]
    simp [move, hplace.eq_iff]
  unfold note
  rw [hcontains]
  split
  · rfl
  · simp [move]

theorem move_noteExtension (offset : Nat) (found : Extension) :
    (notes.noteExtension offset found).move place =
      (notes.move place).noteExtension (place offset) found := by
  cases hstrict : notes.strict with
  | false => simp [noteExtension, move, hstrict]
  | true =>
    have hmoved : (notes.move place).strict = true := hstrict
    rw [noteExtension, noteExtension, hstrict, hmoved, if_pos rfl, if_pos rfl, move_note hplace]

theorem move_noteTab (flaw : Flaw) :
    (notes.noteTab flaw).move place = (notes.move place).noteTab flaw := by
  cases htab : notes.tab with
  | none => simp [noteTab, move, htab]
  | some tab =>
    have hmoved : (notes.move place).tab = some (place tab) := by simp [move, htab]
    simp only [noteTab, htab, hmoved, move_note hplace]

omit hplace

theorem move_leaveLevel : notes.leaveLevel.move place = (notes.move place).leaveLevel := by
  cases hlevels : notes.levels with
  | nil => simp [leaveLevel, move, hlevels]
  | cons level levels => cases levels <;> simp [leaveLevel, move, hlevels]

variable (hzero : place 0 = 0)
include hzero

/-- Where no level is open, offset 0 takes the place of every delimiter. -/
theorem level_move : (notes.move place).level = notes.level.move place := by
  cases hlevels : notes.levels with
  | nil => simp [level, move, hlevels, Level.move, hzero]
  | cons level levels => simp [Notes.level, move, hlevels]

theorem move_modifyLevel {f g : Level → Level}
    (h : (f notes.level).move place = g (notes.level.move place)) :
    (notes.modifyLevel f).move place = (notes.move place).modifyLevel g := by
  simp only [modifyLevel, level_move hzero, ← h]
  simp [move]

include hplace

theorem move_noteUnclosed (offset : Nat) (flaw : Flaw) :
    (notes.noteUnclosed offset flaw).move place =
      (notes.move place).noteUnclosed (place offset) flaw := by
  rw [noteUnclosed, move_note hplace]
  exact congrArg (fun notes => note notes (place offset) flaw) (move_modifyLevel hzero rfl)

/-- The observer notes the same where offsets change, and remembers the changed offsets. -/
theorem move_observe (s : Symbol) (phase : Phase) (offset : Nat) :
    (notes.observe s phase offset).move place =
      (notes.move place).observe s phase (place offset) := by
  -- What the observer decides by, the count of rules and what is noted on its level, does not move;
  -- the offsets that it remembers do.
  have hlevel : (notes.move place).level = notes.level.move place := level_move hzero
  cases s with
  | file =>
    cases phase with
    | matched =>
      by_cases hcount : notes.ruleCount = 0
      · have hmoved : (notes.move place).ruleCount = 0 := hcount
        simp only [observe, hcount, hmoved, if_true, move_note hplace]
      · have hmoved : (notes.move place).ruleCount ≠ 0 := hcount
        simp only [observe, hcount, hmoved, if_false]
    | empty => exact move_note hplace _ _
    | active | failed => rfl
  | basicElementError =>
    cases phase with
    | matched =>
      have hnoted : (notes.move place).level.noted = notes.level.noted := by rw [hlevel]; rfl
      simp only [observe, hnoted]
      split
      · exact move_modifyLevel hzero rfl
      · exact move_note hplace _ _
    | _ => rfl
  | tlsClose | clsClose | prosValClose | groupClose | optionClose =>
    cases phase <;> simp only [observe, hlevel] <;> first
      | rfl
      | exact move_note hplace _ _
      | exact move_noteExtension hplace _ _
      | exact move_noteUnclosed hplace hzero _ _
  | tlsOpen | clsOpen | prosValOpen =>
    cases phase with
    | matched =>
      simp only [observe]
      exact move_modifyLevel hzero rfl
    | _ => rfl
  | group | option =>
    cases phase with
    | active => simp [observe, enterLevel, move, Level.move, hzero]
    | _ => exact move_leaveLevel
  | rule =>
    cases phase with
    | active => simp [observe, move, Level.move, hzero]
    | _ => rfl
  | _ => first
    | rfl
    | cases phase <;> first
      | rfl
      | exact move_note hplace _ _
      | exact move_noteExtension hplace _ _
      | exact move_noteTab hplace _

theorem move_see (event : Event) :
    (watch.see notes event).move place = watch.see (notes.move place) (event.move place) := by
  cases hs : Symbol.ofIndex? event.rule with
  | none =>
    have hmoved : Symbol.ofIndex? (event.move place).rule = none := hs
    rw [see_eq_self hs, see_eq_self hmoved]
  | some s =>
    have hmoved : Symbol.ofIndex? (event.move place).rule = some s := hs
    rw [see_eq hs, see_eq hmoved]
    exact move_observe hplace hzero s event.phase event.offset

theorem move_foldl (events : List Event) :
    (events.foldl watch.see notes).move place =
      (events.map (Event.move place)).foldl watch.see (notes.move place) := by
  induction events generalizing notes with
  | nil => rfl
  | cons event events ih =>
    rw [List.foldl_cons, List.map_cons, List.foldl_cons, ih, move_see hplace hzero]

/-- The flaws that the observer notes along a whole run. -/
theorem flaws_foldl_move (strict : Bool) (events : List Event) :
    ((events.map (Event.move place)).foldl watch.see { strict := strict }).flaws.toList =
      (events.foldl watch.see { strict := strict }).flaws.toList.map fun flaw =>
        (place flaw.1, flaw.2) := by
  have hstart : Notes.move place { strict := strict } = { strict := strict } := by simp [Notes.move]
  have hfold := @move_foldl _ hplace { strict := strict } hzero events
  rw [hstart] at hfold
  rw [← hfold]
  simp [Notes.move]

end Notes

/-! ## Recognition -/

/-- The flaw of a text that is not recognized to its end. -/
theorem unread_move {place : Nat → Nat} (hplace : Function.Injective place) (hzero : place 0 = 0)
    (result : Option Nat) (size : Nat) :
    (if result.map place = some (place size) then []
      else [((result.map place).getD 0, Flaw.unreadable)]) =
    (if result = some size then [] else [(result.getD 0, Flaw.unreadable)]).map fun flaw =>
      (place flaw.1, flaw.2) := by
  cases result with
  | none => simp [hzero]
  | some n =>
    simp only [Option.map_some, Option.some.injEq, hplace.eq_iff, Option.getD_some]
    split <;> rfl

/-- Recognition finds the same flaws and phrases in converted bytes, where their bytes go. -/
theorem recognize_convert (ending : Ending) {bytes : Array UInt8} (hbytes : 13 ∉ bytes)
    {strict : Bool} {recognition : Recognition}
    (h : recognize (.ofBytes bytes) strict = .ok recognition) :
    ∃ found, recognize (ending.source bytes) strict = .ok found ∧
      found.flaws = recognition.flaws.map (fun flaw =>
        (ending.shift bytes.toList flaw.1, flaw.2)) ∧
      found.records.forest = Node.moveAll (ending.shift bytes.toList) recognition.records.forest := by
  have hlist : 13 ∉ bytes.toList := by simpa using hbytes
  obtain ⟨result, nodes, events, hrun, heq⟩ := recognize_eq (.ofBytes bytes) strict
  obtain ⟨result', nodes', events', hrun', heq'⟩ := recognize_eq (ending.source bytes) strict
  have hconverted := Run.convert ending hlist hrun rfl rfl
  rw [Ending.shift_zero] at hconverted
  obtain ⟨rfl, rfl, rfl⟩ := hconverted.unique hrun'
  cases h.symm.trans heq
  refine ⟨_, heq', ?_, ?_⟩
  · have hinjective := ending.shift_injective bytes.toList
    have hzero := ending.shift_zero bytes.toList
    have hsize : (ending.source bytes).bytes.size = ending.shift bytes.toList bytes.size := by
      have hlength := ending.length_convert bytes.toList
      rwa [Array.length_toList] at hlength
    rw [List.map_append, hsize]
    exact congrArg₂ (· ++ ·) (Notes.flaws_foldl_move hinjective hzero strict events)
      (unread_move hinjective hzero result bytes.size)
  · rw [Records.forest_ofNodes, Records.forest_ofNodes]

end Metagrammar

end Abnf
