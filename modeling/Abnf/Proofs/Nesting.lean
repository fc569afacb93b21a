import Abnf.Proofs.Analysis.Nesting
import Abnf.Proofs.Canonical.Compile
import Abnf.Proofs.Nullability

/-!
# Nested recursion of compiled grammars

Analysis says that a rule of a compiled grammar recurs between phrases just when one way back, which
enters no rule twice, has phrases around its places. It is not enough that a chain of references has
a phrase before it at some step and one behind it at another: the chain may have to enter a rule
twice, and an element may hide what one of its ways has at one side behind another of its ways,
which leads back at the same side at once.

* `nesting_exact`: where a compiled grammar is said to be nested.
* `compile_scattered`: phrases that are scattered over a chain.
-/

namespace Abnf

open Recursion
open scoped Decisions

/-! ## Scattered phrases -/

/-- A rule that recurs in a group, behind a phrase, and there before a phrase or not; and two rules
that recur through each other. -/
def scatteredText : String :=
  "S = \"z\" (S \"b\" / S) / \"q\"\nT = \"p\" A / \"q\"\nA = \"a\" A \"b\" / T\n"

/-- The lines of the text. -/
def scatteredLines : List Canonical.Line :=
  let s := Canonical.Name.ofLetter 'S' (.refl true)
  let t := Canonical.Name.ofLetter 'T' (.refl true)
  let a := Canonical.Name.ofLetter 'A' (.refl true)
  [⟨s, .cons (.cons (.character 'z' (.refl true)) (.last (.group none
      (.cons (.cons (.rule s) (.last (.character 'b' (.refl true)))) (.last (.last (.rule s)))))))
    (.last (.last (.character 'q' (.refl true))))⟩,
    ⟨t, .cons (.cons (.character 'p' (.refl true)) (.last (.rule a)))
      (.last (.last (.character 'q' (.refl true))))⟩,
    ⟨a, .cons (.cons (.character 'a' (.refl true))
        (.cons (.rule a) (.last (.character 'b' (.refl true)))))
      (.last (.last (.rule t)))⟩]

/-- The table of the text. -/
def scattered : Array Rule :=
  #[⟨"S", 0, #[.alt [1, 8], .cat [2, 3], .tls [122], .alt [4, 7], .cat [5, 6], .rnm 0, .tls [98],
      .rnm 0, .tls [113]]⟩,
    ⟨"T", 1, #[.alt [1, 4], .cat [2, 3], .tls [112], .rnm 2, .tls [113]]⟩,
    ⟨"A", 2, #[.alt [1, 5], .cat [2, 3, 4], .tls [97], .rnm 2, .tls [98], .rnm 1]⟩]

/-- The only rule at a left edge is the one that the last alternative of `A` refers to. -/
theorem edgeRef_scattered {v : Nat → Prop} {r t : Nat} (h : EdgeRef .left scattered v r t) :
    r = 2 ∧ t = 1 := by
  obtain ⟨rule, hrule, hedge⟩ := h
  have hr : r < 3 := (Array.getElem?_eq_some_iff.1 hrule).1
  obtain rfl | rfl | rfl : r = 0 ∨ r = 1 ∨ r = 2 := by omega
  all_goals
    cases hrule
    obtain ⟨c, hc, hedge⟩ := (edgeAt_alt_iff rfl).1 hedge
    obtain rfl | rfl := List.mem_pair.1 hc
    · exact absurd hedge (not_edgeAt_literal rfl rfl)
  · exact absurd hedge (not_edgeAt_of_isPlain rfl rfl)
  · exact absurd hedge (not_edgeAt_of_isPlain rfl rfl)
  · exact ⟨rfl, (edgeAt_ref_iff rfl).1 hedge⟩

theorem exists_analysis_scattered :
    ∃ analysis, Analysis.analyze scattered = .ok analysis ∧
      analysis.faultyRules scattered = [] := by
  refine Analysis.faultyRules_eq_nil (by decide) (fun v hv => ?_) fun v r hcircle => ?_
  · have hmem : ∀ {r : Nat}, r < 3 → Phrases.Equation .finite scattered (· ∈ v) r → r ∈ v :=
      fun hr => (hv.2 _ hr).2
    have hs : 0 ∈ v := by
      refine hmem (by decide) ⟨_, rfl, ?_⟩
      exact (Phrases.holds_alt_iff rfl).2 ⟨8, by simp, .leaf rfl rfl⟩
    have ht : 1 ∈ v := by
      refine hmem (by decide) ⟨_, rfl, ?_⟩
      exact (Phrases.holds_alt_iff rfl).2 ⟨4, by simp, .leaf rfl rfl⟩
    have ha : 2 ∈ v := by
      refine hmem (by decide) ⟨_, rfl, ?_⟩
      exact (Phrases.holds_alt_iff rfl).2 ⟨5, by simp, .ref rfl ht⟩
    intro r hr
    obtain rfl | rfl | rfl : r = 0 ∨ r = 1 ∨ r = 2 := by
      have hr : r < 3 := hr
      omega
    · exact hs
    · exact ht
    · exact ha
  · obtain ⟨t, hfirst, -⟩ := Relation.TransGen.head'_iff.1 hcircle
    obtain ⟨_, -, hlast⟩ := Relation.TransGen.tail'_iff.1 hcircle
    have hr := (edgeRef_scattered hfirst).1
    rw [(edgeRef_scattered hlast).2] at hr
    cases hr

theorem exists_compile_scattered :
    ∃ grammar, compile false [scatteredText] = .ok (.ok grammar) ∧ grammar.rules = scattered := by
  exact Canonical.exists_compile_print scatteredLines _ (by simp [scatteredLines])
    (by decide +kernel) (by decide +kernel) exists_analysis_scattered (by decide +kernel)

/-! ## Compiled grammars -/

theorem Grammar.Checked.exists_attributes {grammar : Grammar} (h : grammar.Checked) {r : Nat}
    (hr : r < grammar.rules.size) : ∃ a, grammar.analysis.attributes[r]? = some a := by
  obtain ⟨analysis, hanalyze, hsize, -⟩ := Analysis.analyze_exact h.tabled.ordered
  cases h.analyzed.symm.trans hanalyze
  exact ⟨_, Array.getElem?_eq_getElem (hsize ▸ hr)⟩

theorem Grammar.Checked.tells {grammar : Grammar} (h : grammar.Checked) {r : Nat} {a : Attributes}
    (ha : grammar.analysis.attributes[r]? = some a) :
    Tells grammar.rules (· ∈ Phrases.said grammar.analysis .empty)
      (· ∈ Phrases.said grammar.analysis .notEmpty) r (Way grammar.rules Afresh r [] r) a := by
  obtain ⟨analysis, hanalyze, htells⟩ := Analysis.tells_of_analyze h.tabled.ordered
  cases h.analyzed.symm.trans hanalyze
  exact htells r a ha

/-- A rule of a compiled grammar is said to recur between phrases just when there is a way from it
back to it that enters no rule twice, and phrases enclose the places of the way: one place has
phrases at both sides, or an outer place has one at one side, an inner place has one at the other
side, and there the element at the outer place does not lead back to the rule by itself. -/
theorem nesting_exact {strict : Bool} {sources : List String} {grammar : Grammar}
    (hcompile : compile strict sources = .ok (.ok grammar)) {r : Nat}
    (hr : r < grammar.rules.size) :
    ∃ a, grammar.analysis.attributes[r]? = some a ∧ (a.nested = true ↔
      ∃ places, Way grammar.rules Afresh r [] r places ∧
        Encloses grammar.rules (· ∈ Phrases.said grammar.analysis .empty)
          (· ∈ Phrases.said grammar.analysis .notEmpty) r places) := by
  have hchecked := checked_of_compile hcompile
  obtain ⟨a, ha⟩ := hchecked.exists_attributes hr
  exact ⟨a, ha, (hchecked.tells ha).nested⟩

/-- The rule `A` of the scattered grammar refers to itself between phrases. -/
theorem nesting_exact_scattered :
    ∃ grammar, compile false [scatteredText] = .ok (.ok grammar) ∧ 2 < grammar.rules.size ∧
      ∃ a, grammar.analysis.attributes[2]? = some a ∧ a.nested = true := by
  obtain ⟨grammar, hcompile, hrules⟩ := exists_compile_scattered
  have hsize : 2 < grammar.rules.size := by
    rw [hrules]
    decide
  obtain ⟨a, ha, hnested⟩ := nesting_exact hcompile hsize
  refine ⟨grammar, hcompile, hsize, a, ha, hnested.2 ?_⟩
  rw [hrules]
  have hcat : RefersAt [2] scattered[2].opcodes 2 1 [⟨[2], scattered[2].opcodes, [2], 3, [4]⟩] :=
    .cat rfl (.ref rfl)
  refine ⟨_, .step (by simp [Afresh]) rfl (.alt rfl (by decide) hcat) (.arrived (by decide)), ?_⟩
  refine encloses_singleton.2 fun side => ?_
  cases side with
  | left => exact ⟨2, by simp [Side.outside], .leaf rfl rfl⟩
  | right => exact ⟨4, by simp [Side.outside], .leaf rfl rfl⟩

/-! ## What analysis misses -/

theorem wayAt_pair_iff {rules : Array Rule} {origin : Nat} {path : List Nat}
    {opcodes : Array Opcode} {i c d : Nat} {places : List Place}
    (hop : opcodes[i]? = some (.cat [c, d])) : WayAt rules origin path opcodes i places ↔
      (∃ rest, places = ⟨path, opcodes, [], c, [d]⟩ :: rest ∧
        WayAt rules origin path opcodes c rest) ∨
      ∃ rest, places = ⟨path, opcodes, [c], d, []⟩ :: rest ∧
        WayAt rules origin path opcodes d rest := by
  rw [wayAt_cat_iff hop]
  constructor
  · rintro ⟨before, x, after, rest, heq, rfl, hway⟩
    match before with
    | [] =>
      cases heq
      exact .inl ⟨rest, rfl, hway⟩
    | [_] =>
      cases heq
      exact .inr ⟨rest, rfl, hway⟩
    | _ :: _ :: before => simp at heq
  · rintro (⟨rest, rfl, hway⟩ | ⟨rest, rfl, hway⟩)
    · exact ⟨[], c, [d], rest, rfl, rfl, hway⟩
    · exact ⟨[c], d, [], rest, rfl, rfl, hway⟩

section

variable {v w : Nat → Prop} {places : List Place}

/-- In `S`, the element that has a phrase before it leads back at its end as well, so that what one
of its ways has behind it does not count. -/
theorem not_encloses_s (h : Way scattered Afresh 0 [] 0 places) :
    ¬ Encloses scattered v w 0 places := by
  obtain ⟨c, hc, hbody⟩ := (wayAt_alt_iff rfl).1 ((way_iff rfl (by simp)).1 h)
  obtain rfl | rfl := List.mem_pair.1 hc
  · obtain ⟨inner, rfl, hinner⟩ | ⟨inner, rfl, hinner⟩ := (wayAt_pair_iff rfl).1 hbody
    · exact absurd hinner (not_wayAt_of_isPlain rfl rfl)
    rw [encloses_cons]
    rintro (hencloses | hboth | ⟨side, hside, hleads, -⟩)
    · obtain ⟨c, hc, hgroup⟩ := (wayAt_alt_iff rfl).1 hinner
      obtain rfl | rfl := List.mem_pair.1 hc
      · obtain ⟨rest, rfl, hrest⟩ | ⟨rest, rfl, hrest⟩ := (wayAt_pair_iff rfl).1 hgroup
        · obtain ⟨-, rfl⟩ := ((wayAt_ref_iff rfl).1 hrest).eq_of_mem (by decide)
          exact not_hasPhrase rfl (encloses_singleton.1 hencloses .left)
        · exact absurd hrest (not_wayAt_of_isPlain rfl rfl)
      · obtain ⟨-, rfl⟩ := ((wayAt_ref_iff rfl).1 hgroup).eq_of_mem (by decide)
        exact not_encloses_nil hencloses
    · exact not_hasPhrase rfl (hboth .right)
    · cases side with
      | left =>
        have hedge : EdgeAt .right scattered[0].opcodes v 0 3 :=
          (edgeAt_alt_iff rfl).2 ⟨7, by decide, .ref rfl⟩
        exact hleads ⟨0, hedge, .arrived (by decide)⟩
      | right => exact not_hasPhrase rfl hside
  · exact absurd hbody (not_wayAt_of_isPlain rfl rfl)

/-- The one way from `T` does not pass the place in `A` that has phrases around it. -/
theorem not_encloses_t (h : Way scattered Afresh 1 [] 1 places) :
    ¬ Encloses scattered v w 1 places := by
  obtain ⟨c, hc, hbody⟩ := (wayAt_alt_iff rfl).1 ((way_iff rfl (by simp)).1 h)
  obtain rfl | rfl := List.mem_pair.1 hc
  · obtain ⟨inner, rfl, hinner⟩ | ⟨inner, rfl, hinner⟩ := (wayAt_pair_iff rfl).1 hbody
    · exact absurd hinner (not_wayAt_of_isPlain rfl rfl)
    obtain ⟨c, hc, ha⟩ :=
      (wayAt_alt_iff rfl).1 ((way_iff rfl (by decide)).1 ((wayAt_ref_iff rfl).1 hinner))
    obtain rfl | rfl := List.mem_pair.1 hc
    · obtain ⟨before, c, after, rest, heq, rfl, hrest⟩ := (wayAt_cat_iff rfl).1 ha
      have hc : c ∈ [2, 3, 4] := by simp [heq]
      obtain rfl | rfl | rfl : c = 2 ∨ c = 3 ∨ c = 4 := by simpa using hc
      · exact absurd hrest (not_wayAt_of_isPlain rfl rfl)
      · exact absurd (((wayAt_ref_iff rfl).1 hrest).eq_of_mem (by decide)).1 (by decide)
      · exact absurd hrest (not_wayAt_of_isPlain rfl rfl)
    · obtain ⟨-, rfl⟩ := ((wayAt_ref_iff rfl).1 ha).eq_of_mem (by decide)
      exact fun hencloses => not_hasPhrase rfl (encloses_singleton.1 hencloses .right)
  · exact absurd hbody (not_wayAt_of_isPlain rfl rfl)

end

/-- A chain of references leads from a rule back to it, whatever rules it enters again, and at
either side some place of it has a phrase. -/
def Flanked (rules : Array Rule) (w : Nat → Prop) (r : Nat) : Prop :=
  ∃ places, Way rules (fun _ _ => True) r [] r places ∧
    ∀ side, ∃ place ∈ places, place.HasPhrase w side

theorem flanked_s (w : Nat → Prop) : Flanked scattered w 0 := by
  have hinner : RefersAt [0] scattered[0].opcodes 0 4
      [⟨[0], scattered[0].opcodes, [], 5, [6]⟩] := .cat rfl (.ref rfl)
  have houter : RefersAt [0] scattered[0].opcodes 0 1
      [⟨[0], scattered[0].opcodes, [2], 3, []⟩, ⟨[0], scattered[0].opcodes, [], 5, [6]⟩] :=
    .cat rfl (.alt rfl (by decide) hinner)
  refine ⟨_, .step trivial rfl (.alt rfl (by decide) houter) (.arrived (by decide)), fun side => ?_⟩
  cases side with
  | left => exact ⟨_, List.mem_cons_self, 2, by simp [Side.outside], .leaf rfl rfl⟩
  | right =>
    exact ⟨_, List.mem_cons_of_mem _ List.mem_cons_self, 6, by simp [Side.outside], .leaf rfl rfl⟩

theorem flanked_t (w : Nat → Prop) : Flanked scattered w 1 := by
  have hto : RefersAt [1] scattered[1].opcodes 2 1 [⟨[1], scattered[1].opcodes, [2], 3, []⟩] :=
    .cat rfl (.ref rfl)
  have hagain : RefersAt [2, 1] scattered[2].opcodes 2 1
      [⟨[2, 1], scattered[2].opcodes, [2], 3, [4]⟩] := .cat rfl (.ref rfl)
  have hback : RefersAt [2, 2, 1] scattered[2].opcodes 1 5 [] := .ref rfl
  have hway : Way scattered (fun _ _ => True) 1 [1] 2
      [⟨[2, 1], scattered[2].opcodes, [2], 3, [4]⟩] :=
    .step trivial rfl (.alt rfl (by decide) hagain)
      (.step trivial rfl (.alt rfl (by decide) hback) (.arrived (by decide)))
  refine ⟨_, .step trivial rfl (.alt rfl (by decide) hto) hway, fun side => ?_⟩
  cases side with
  | left => exact ⟨_, List.mem_cons_self, 2, by simp [Side.outside], .leaf rfl rfl⟩
  | right =>
    exact ⟨_, List.mem_cons_of_mem _ List.mem_cons_self, 4, by simp [Side.outside], .leaf rfl rfl⟩

/-- Two rules that recur between phrases are not said to be nested: `S`, which has the phrase behind
it in one of two alternatives only, and `T`, which has it only in a chain that enters `A` again. -/
theorem compile_scattered :
    ∃ grammar, compile false [scatteredText] = .ok (.ok grammar) ∧
      ∀ r ∈ [0, 1], Flanked grammar.rules (· ∈ Phrases.said grammar.analysis .notEmpty) r ∧
        ∃ a, grammar.analysis.attributes[r]? = some a ∧ a.nested = false := by
  obtain ⟨grammar, hcompile, hrules⟩ := exists_compile_scattered
  have hchecked := checked_of_compile hcompile
  refine ⟨grammar, hcompile, fun r hr => ?_⟩
  have hnot : ∀ {v w : Nat → Prop} {places}, Way scattered Afresh r [] r places →
      ¬ Encloses scattered v w r places := by
    obtain rfl | rfl := List.mem_pair.1 hr
    · exact not_encloses_s
    · exact not_encloses_t
  have hsize : r < grammar.rules.size := by
    rw [hrules]
    obtain rfl | rfl := List.mem_pair.1 hr <;> decide
  obtain ⟨a, ha⟩ := hchecked.exists_attributes hsize
  refine ⟨?_, a, ha, ?_⟩
  · rw [hrules]
    obtain rfl | rfl := List.mem_pair.1 hr
    · exact flanked_s _
    · exact flanked_t _
  · rw [← Bool.not_eq_true, (hchecked.tells ha).nested]
    rintro ⟨places, hway, hencloses⟩
    rw [hrules] at hway hencloses
    exact hnot hway hencloses

end Abnf
