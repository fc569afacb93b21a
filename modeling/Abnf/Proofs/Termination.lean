import Abnf.Proofs.Analysis.Nesting
import Abnf.Proofs.Canonical.Compile
import Abnf.Proofs.Safety

/-!
# Matching with a compiled grammar ends

In a compiled grammar no rule leads back to itself in the open. If look-ahead hides no way back
either, then matching ends, and never enters a rule again at the position where it is being tried.
It is not enough that the grammar compiles: a rule that looks ahead for itself at its beginning
passes every check, and matching with it never ends.

* `run_terminates`: matching with a compiled grammar ends, and enters no rule again.
* `compile_lookingAhead`: what look-ahead can hide.
-/

namespace Abnf

open Recursion

variable {grammar : Grammar}

/-- Matching with a compiled grammar ends, and never enters a rule at a position while it is being
tried there, if the engine has a meaning for its opcodes and look-ahead hides no way back. -/
theorem run_terminates {strict : Bool} {sources : List String}
    (hcompile : compile strict sources = .ok (.ok grammar))
    (hexecutable : ∀ rule ∈ grammar.rules, ∀ op ∈ rule.opcodes, op.isExecutable = true)
    (hback : HidesNoWayBack grammar.rules) {start : Nat} (hstart : start < grammar.rules.size)
    (input : Array UInt8) :
    (∀ (σ : Type) (watch : Engine.Watch σ) (init : σ), ∃ found,
        Engine.run grammar.rules watch start input init = .ok found) ∧
      ∃ found, Engine.trace grammar.rules [] (List.range grammar.rules.size) start input =
          .ok found ∧
        Engine.neverReenters [] found.observed.toList = true := by
  have hchecked := checked_of_compile hcompile
  obtain ⟨bodies, hbodies, hback⟩ := hback
  have hbody : ∀ recorded,
      (Grammar.Checked.schemeOf grammar.rules bodies recorded).body start = some (bodies start) :=
    fun _ => if_pos hstart
  refine ⟨fun σ watch init => ?_, ?_⟩
  · obtain ⟨_, _, _, -, heq⟩ :=
      (hchecked.descends hbodies hexecutable hback watch.recorded).run_realizes
        (Grammar.Checked.depicts hbodies watch) (hbody _) input init
    exact ⟨_, heq⟩
  · exact (hchecked.descends hbodies hexecutable hback _).trace_neverReenters
      (Grammar.Checked.depicts hbodies _) (hbody _) input

/-! ## Looking ahead for another rule -/

/-- A sequence that goes on with a literal behind a look-ahead has no rule at its left edge. -/
theorem not_edgeAt_guarded {opcodes : Array Opcode} {v : Nat → Prop} {t i c d : Nat} {cs : List Nat}
    {b : UInt32} {bs : List UInt32} (hop : opcodes[i]? = some (.cat (c :: d :: cs)))
    (hc : opcodes[c]? = some .and) (hd : opcodes[d]? = some (.tls (b :: bs))) :
    ¬ EdgeAt .left opcodes v t i := by
  have hcat : opcodes[i]? = some (.cat ([c] ++ d :: cs)) := hop
  refine not_edgeAt_cat hcat (fun e he => ?_) (not_holds_empty_literal hd)
  obtain rfl | rfl := List.mem_pair.1 he
  · exact not_edgeAt_of_isPlain hc rfl
  · exact not_edgeAt_of_isPlain hd rfl

/-- Two rules that recur. Before each step the first one looks ahead for the second one. -/
def peekingText : String :=
  "S = &A \"a\" S / \"b\"\nA = \"a\" A / \"b\"\n"

/-- The lines of the text. -/
def peekingLines : List Canonical.Line :=
  let s := Canonical.Name.ofLetter 'S' (.refl true)
  let a := Canonical.Name.ofLetter 'A' (.refl true)
  [⟨s, .cons (.cons (.leaf (some .and) (.name (.rule a)))
        (.cons (.character 'a' (.refl true)) (.last (.rule s))))
      (.last (.last (.character 'b' (.refl true))))⟩,
    ⟨a, .cons (.cons (.character 'a' (.refl true)) (.last (.rule a)))
      (.last (.last (.character 'b' (.refl true))))⟩]

/-- The expressions of the text. -/
def peekingBodies (r : Nat) : Expr Opcode :=
  if r = 0 then
    .alt [.cat [.under .and (.atom (.rnm 1)), .atom (.tls [97]), .atom (.rnm 0)], .atom (.tls [98])]
  else
    .alt [.cat [.atom (.tls [97]), .atom (.rnm 1)], .atom (.tls [98])]

/-- The table of the text. -/
def peeking : Array Rule :=
  #[⟨"S", 0, #[.alt [1, 6], .cat [2, 4, 5], .and, .rnm 1, .tls [97], .rnm 0, .tls [98]]⟩,
    ⟨"A", 1, #[.alt [1, 4], .cat [2, 3], .tls [97], .rnm 1, .tls [98]]⟩]

theorem hidesNoWayBack_peeking : HidesNoWayBack peeking := by
  have hlead : ∀ {r t}, Lead 2 peekingBodies r t → r = 0 ∧ t = 1 := by
    rintro r t ⟨hr, ht⟩
    obtain rfl | rfl := Nat.le_one_iff_eq_zero_or_eq_one.1 (Nat.lt_succ_iff.1 hr)
    · simpa [peekingBodies, Expr.leads, Expr.leadsOfAny, Expr.leadsInTurn, Expr.isNullable] using ht
    · simp [peekingBodies, Expr.leads, Expr.leadsOfAny, Expr.leadsInTurn, Expr.isNullable] at ht
  have hchain : ∀ {r t}, Relation.TransGen (Lead 2 peekingBodies) r t → r = 0 ∧ t = 1 := by
    intro r t h
    obtain ⟨_, hfirst, -⟩ := Relation.TransGen.head'_iff.1 h
    obtain ⟨_, -, hlast⟩ := Relation.TransGen.tail'_iff.1 h
    exact ⟨(hlead hfirst).1, (hlead hlast).2⟩
  refine ⟨peekingBodies, ⟨?_, ?_, ?_⟩, ?_⟩
  · intro r rule hr
    have hlt : r < 2 := (Array.getElem?_eq_some_iff.1 hr).1
    obtain rfl | rfl := Nat.le_one_iff_eq_zero_or_eq_one.1 (Nat.lt_succ_iff.1 hlt)
    all_goals
      cases hr
      rfl
  · intro r hr
    obtain rfl | rfl := Nat.le_one_iff_eq_zero_or_eq_one.1 (Nat.lt_succ_iff.1 hr)
    all_goals exact ⟨by decide, by decide⟩
  · intro r hr t ht
    have hall : ∀ r < 2, ∀ op ∈ (peekingBodies r).atoms, ∀ t ∈ op.target?, t < 2 := by decide
    exact hall r hr _ ht t rfl
  · intro r hcircle
    obtain ⟨hzero, hone⟩ := hchain hcircle
    exact absurd (hzero.symm.trans hone) (by decide)

/-- Analysis does not look into the operand of the look-ahead, and all else starts with a
literal. -/
theorem exists_analysis_peeking :
    ∃ analysis, Analysis.analyze peeking = .ok analysis ∧ analysis.faultyRules peeking = [] := by
  refine Analysis.faultyRules_eq_nil (by decide) (fun v hv => ?_) fun v r hcircle => ?_
  · intro r hr
    refine (hv.2 r hr).2 ⟨_, Array.getElem?_eq_getElem hr, ?_⟩
    obtain rfl | rfl := Nat.le_one_iff_eq_zero_or_eq_one.1 (Nat.lt_succ_iff.1 hr)
    · exact (Phrases.holds_alt_iff rfl).2 ⟨6, by simp, .leaf rfl rfl⟩
    · exact (Phrases.holds_alt_iff rfl).2 ⟨4, by simp, .leaf rfl rfl⟩
  · obtain ⟨t, ⟨rule, hrule, hedge⟩, -⟩ := Relation.TransGen.head'_iff.1 hcircle
    have hr : r < 2 := (Array.getElem?_eq_some_iff.1 hrule).1
    obtain rfl | rfl := Nat.le_one_iff_eq_zero_or_eq_one.1 (Nat.lt_succ_iff.1 hr)
    all_goals
      cases hrule
      obtain ⟨c, hc, hedge⟩ := (edgeAt_alt_iff rfl).1 hedge
      obtain rfl | rfl := List.mem_pair.1 hc
    · exact not_edgeAt_guarded rfl rfl rfl hedge
    · exact not_edgeAt_of_isPlain rfl rfl hedge
    · exact not_edgeAt_literal rfl rfl hedge
    · exact not_edgeAt_of_isPlain rfl rfl hedge

/-- Each step looks ahead over the rest of the input, and no rule is entered again. -/
theorem run_terminates_peeking :
    ∃ grammar, compile false [peekingText] = .ok (.ok grammar) ∧
      ∃ found, Engine.trace grammar.rules [] (List.range grammar.rules.size) 0 #[97, 97, 98] =
          .ok found ∧
        Engine.neverReenters [] found.observed.toList = true := by
  obtain ⟨grammar, hcompile, hrules⟩ := Canonical.exists_compile_print peekingLines peekingText
    (by simp [peekingLines]) (by decide +kernel) (by decide +kernel) exists_analysis_peeking
    (by decide +kernel)
  have hback := hidesNoWayBack_peeking
  rw [← hrules] at hback
  refine ⟨grammar, hcompile, (run_terminates hcompile ?_ hback ?_ #[97, 97, 98]).2⟩
  · rw [hrules]
    decide
  · rw [hrules]
    decide

/-! ## What look-ahead hides -/

/-- The line of the text `S = &S "a" / "b"`: the rule looks ahead for itself. -/
def lookingAheadLine : Canonical.Line :=
  let s := Canonical.Name.ofLetter 'S' (.refl true)
  ⟨s, .cons (.cons (.leaf (some .and) (.name (.rule s))) (.last (.character 'a' (.refl true))))
    (.last (.last (.character 'b' (.refl true))))⟩

/-- The table of the text. -/
def lookingAhead : Array Rule :=
  #[⟨"S", 0, #[.alt [1, 5], .cat [2, 4], .and, .rnm 0, .tls [97], .tls [98]]⟩]

theorem evaluate_lookingAhead {σ : Type} (watch : Engine.Watch σ) (input : Array UInt8)
    (depth : Nat) (state : Engine.State σ) :
    Engine.evaluate lookingAhead watch input depth 0 0 0 state = .error .exhausted := by
  induction depth using Nat.strong_induction_on generalizing state with
  | _ depth ih =>
    match depth with
    | 0 | 1 | 2 | 3 => rfl
    | depth + 4 =>
      have hrule : ∀ state,
          Engine.evaluate lookingAhead watch input (depth + 1) 0 3 0 state = .error .exhausted := by
        intro state
        have hbody := ih depth (by omega)
        show Engine.enterRule watch 0 0 (Engine.evaluate lookingAhead watch input depth 0 0 0)
          state = _
        simp only [Engine.enterRule, hbody, bind, Except.bind]
      have hand : ∀ state,
          Engine.evaluate lookingAhead watch input (depth + 2) 0 2 0 state = .error .exhausted := by
        intro state
        show (Engine.evaluate lookingAhead watch input (depth + 1) 0 3 0 state >>= fun _ => _) = _
        rw [hrule]
        rfl
      have hcat : ∀ state,
          Engine.evaluate lookingAhead watch input (depth + 3) 0 1 0 state = .error .exhausted := by
        intro state
        show (Engine.inSequence (Engine.evaluate lookingAhead watch input (depth + 2) 0) 0 [2, 4] 0
          state >>= fun _ => _) = _
        simp only [Engine.inSequence, hand, bind, Except.bind]
      show Engine.firstMatch
        (fun child => Engine.evaluate lookingAhead watch input (depth + 3) 0 child 0) [1, 5] state = _
      simp only [Engine.firstMatch, hcat, bind, Except.bind]

/-- Analysis does not look into the operand of the look-ahead. -/
theorem exists_analysis_lookingAhead :
    ∃ analysis, Analysis.analyze lookingAhead = .ok analysis ∧
      analysis.faultyRules lookingAhead = [] := by
  refine Analysis.faultyRules_eq_nil (by decide) (fun v hv r hr => ?_) fun v r hcircle => ?_
  · obtain rfl : r = 0 := Nat.lt_one_iff.1 hr
    refine (hv.2 0 hr).2 ⟨_, rfl, ?_⟩
    exact (Phrases.holds_alt_iff rfl).2 ⟨5, by simp, .leaf rfl rfl⟩
  · obtain ⟨t, ⟨rule, hrule, hedge⟩, -⟩ := Relation.TransGen.head'_iff.1 hcircle
    obtain rfl : r = 0 := Nat.lt_one_iff.1 (Array.getElem?_eq_some_iff.1 hrule).1
    cases hrule
    obtain ⟨c, hc, hedge⟩ := (edgeAt_alt_iff rfl).1 hedge
    obtain rfl | rfl := List.mem_pair.1 hc
    · exact not_edgeAt_guarded rfl rfl rfl hedge
    · exact not_edgeAt_of_isPlain rfl rfl hedge

/-- A rule that looks ahead for itself passes every stage, and matching with it never ends,
whatever depth it is allowed. -/
theorem compile_lookingAhead :
    ∃ grammar, compile false ["S = &S \"a\" / \"b\"\n"] = .ok (.ok grammar) ∧
      (∀ rule ∈ grammar.rules, ∀ op ∈ rule.opcodes, op.isExecutable = true) ∧
      0 < grammar.rules.size ∧
      (∀ depth state, Engine.evaluate grammar.rules (Engine.Watch.log [] []) #[98] depth 0 0 0
        state = .error .exhausted) ∧
      Engine.run grammar.rules (Engine.Watch.log [] []) 0 #[98] #[] = .error .exhausted := by
  obtain ⟨grammar, hcompile, hrules⟩ := Canonical.exists_compile_print [lookingAheadLine]
    "S = &S \"a\" / \"b\"\n" (List.cons_ne_nil _ _) (by decide +kernel) (by decide +kernel)
    exists_analysis_lookingAhead (by decide +kernel)
  refine ⟨grammar, hcompile, ?_⟩
  rw [hrules]
  refine ⟨by decide, by decide, evaluate_lookingAhead _ _, ?_⟩
  simp only [Engine.run, Engine.enterRule, evaluate_lookingAhead, bind, Except.bind]
  rfl

end Abnf
