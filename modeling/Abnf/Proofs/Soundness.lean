import Mathlib.Algebra.Ring.Nat
import Abnf.Proofs.Canonical.RoundTrip
import Abnf.Proofs.Engine.Derivation
import Abnf.Proofs.Nullability

/-!
# Attributes are sound for matching

A rule that matches a phrase was said to: some phrase of it is finite, and it was said to match
the empty phrase, or one that is not empty, if that is what it matched. What is matched is derived,
and what is said of phrases solves the equations of the rules, so it is enough that every derivation
keeps to the equations.

* `Phrases.holds_of_derives`: the equations hold of an opcode that derives a phrase.
* `attributes_sound`: the attributes hold of every rule that matches, in tables that are free of
  flaws and in what they reduce to.
-/

namespace Abnf

/-! ## Phrases that are matched -/

/-- Whether something that is said of phrases is about phrases of length `n`. -/
def Aspect.IsOf (n : Nat) : Aspect → Prop
  | .finite => True
  | .empty => n = 0
  | .notEmpty => 0 < n

namespace Phrases

variable {aspect : Aspect}

theorem isOf_part {parts : List Nat} (h : aspect.IsOf parts.sum) (haspect : aspect ≠ .notEmpty) :
    ∀ part ∈ parts, aspect.IsOf part := by
  intro part hpart
  cases aspect with
  | finite => trivial
  | empty => exact List.sum_eq_zero_iff.1 h part hpart
  | notEmpty => exact absurd rfl haspect

theorem exists_isOf_part {parts : List Nat} (h : aspect.IsOf parts.sum)
    (hparts : aspect ≠ .notEmpty → parts ≠ []) : ∃ part ∈ parts, aspect.IsOf part := by
  by_cases haspect : aspect = .notEmpty
  · subst haspect
    by_contra hnone
    push Not at hnone
    have hzero : parts.sum = 0 :=
      List.sum_eq_zero_iff.2 fun part hpart => Nat.eq_zero_of_not_pos (hnone part hpart)
    exact absurd h (by simp [Aspect.IsOf, hzero])
  · obtain ⟨part, rest, rfl⟩ := List.exists_cons_of_ne_nil (hparts haspect)
    exact ⟨part, by simp, isOf_part h haspect part (by simp)⟩

theorem has_ofLeaf_zeroWidth (h : aspect.IsOf 0) :
    (Attributes.ofPhrases true true false).has aspect = true := by
  cases aspect with
  | finite | empty => rfl
  | notEmpty => exact absurd h (Nat.lt_irrefl 0)

theorem has_ofLeaf_consuming {n : Nat} (hn : 0 < n) (h : aspect.IsOf n) :
    (Attributes.ofPhrases true false true).has aspect = true := by
  cases aspect with
  | finite | notEmpty => rfl
  | empty => exact absurd h (Nat.pos_iff_ne_zero.1 hn)

variable {rules : Array Rule} {v : Set Nat}

/-- The equations hold of an opcode that derives a phrase, if what is said of the rules solves
them. -/
theorem holds_of_derives (hv : v ∈ Solutions aspect rules)
    (hliterals : ∀ rule ∈ rules, .tbs [] ∉ rule.opcodes) {r i : Nat} {phrase : List UInt8}
    (h : Derives rules r i phrase) {rule : Rule} (hrule : rules[r]? = some rule)
    (hn : aspect.IsOf phrase.length) : Holds aspect rule.opcodes (· ∈ v) i := by
  induction h generalizing rule with
  | alt hop hmem _ ih =>
    rw [opcodeAt?_eq hrule] at hop
    exact .alt hop hmem (ih hrule hn)
  | @cat r i parts hop _ ih =>
    rw [opcodeAt?_eq hrule] at hop
    rw [List.length_flatMap] at hn
    by_cases haspect : aspect = .notEmpty
    · obtain ⟨length, hlength, hpart⟩ := exists_isOf_part hn (absurd haspect)
      obtain ⟨part, hmem, rfl⟩ := List.mem_map.1 hlength
      exact .catSome hop haspect (List.mem_map_of_mem hmem) (ih part hmem hrule hpart)
    · refine .catAll hop haspect fun child hchild => ?_
      obtain ⟨part, hmem, rfl⟩ := List.mem_map.1 hchild
      exact ih part hmem hrule (isOf_part hn haspect _ (List.mem_map_of_mem hmem))
  | @rep r i min max phrases hop _ hmin _ ih =>
    rw [opcodeAt?_eq hrule] at hop
    rw [List.length_flatten] at hn
    -- Without iterations nothing is known of the operand, and nothing is needed.
    by_cases hnone : phrases = [] ∧ aspect ≠ .notEmpty
    · obtain ⟨rfl, haspect⟩ := hnone
      obtain rfl : min = 0 := UInt32.toNat_inj.1 (Nat.le_zero.1 hmin)
      exact .repNone hop haspect
    · obtain ⟨length, hlength, hpart⟩ := exists_isOf_part hn fun haspect hnil =>
        hnone ⟨List.map_eq_nil_iff.1 hnil, haspect⟩
      obtain ⟨part, hmem, rfl⟩ := List.mem_map.1 hlength
      exact .rep hop (ih part hmem hrule hpart)
  | @rnm r i target phrase hop h ih =>
    rw [opcodeAt?_eq hrule] at hop
    obtain ⟨callee, hcallee⟩ := h.exists_rule
    -- A solution has a rule as soon as the equation of its body holds.
    have hlt : target < rules.size := (Array.getElem?_eq_some_iff.1 hcallee).1
    exact .ref hop ((hv.2 target hlt).2 ⟨callee, hcallee, ih hcallee hn⟩)
  | empty hop hempty =>
    rw [opcodeAt?_eq hrule] at hop
    refine .leaf hop ?_
    simp only [List.mem_cons, List.not_mem_nil, or_false] at hempty
    rcases hempty with rfl | rfl | rfl | rfl <;> exact has_ofLeaf_zeroWidth hn
  | @tbs r i phrase hop =>
    rw [opcodeAt?_eq hrule] at hop
    refine .leaf hop (has_ofLeaf_consuming (List.length_pos_iff.2 ?_) hn)
    rintro rfl
    exact hliterals rule (Array.mem_of_getElem? hrule) (Array.mem_of_getElem? hop)
  | @tls r i phrase hop =>
    rw [opcodeAt?_eq hrule] at hop
    cases phrase with
    | nil => exact .leaf hop (has_ofLeaf_zeroWidth hn)
    | cons byte phrase => exact .leaf hop (has_ofLeaf_consuming (Nat.succ_pos _) hn)
  | trg hop =>
    rw [opcodeAt?_eq hrule] at hop
    exact .leaf hop (has_ofLeaf_consuming Nat.one_pos hn)

end Phrases

/-! ## Attributes -/

/-- The attributes of rules hold of what the rules match, whatever the input, the position and what
is watched. -/
structure Analysis.SoundFor (rules : Array Rule) (analysis : Analysis) : Prop where
  size : analysis.attributes.size = rules.size
  matched : ∀ {r : Nat} {a : Attributes}, analysis.attributes[r]? = some a →
    ∀ {σ : Type} {watch : Engine.Watch σ} {input : Array UInt8} {depth pos n : Nat}
      {state state' : Engine.State σ},
    Engine.enterRule watch r pos (Engine.evaluate rules watch input depth r 0 pos) state =
        .ok (some n, state') →
      a.finite = true ∧ (n = 0 → a.empty = true) ∧ (0 < n → a.notEmpty = true)
  /-- A rule that is said to match no finite phrase never matches. -/
  infinite : ∀ {r : Nat} {a : Attributes}, analysis.attributes[r]? = some a → a.finite = false →
    ∀ {σ : Type} {watch : Engine.Watch σ} {input : Array UInt8} {init : σ} {found : Engine.Match σ},
    Engine.run rules watch r input init = .ok found → found.matched = none

namespace Tabled

variable {rules : Array Rule} {udts : Array Udt}

theorem nonempty_literals (h : Tabled rules udts) : ∀ rule ∈ rules, .tbs [] ∉ rule.opcodes :=
  fun rule hrule hmem => h.wellFormed.fits rule hrule _ hmem rfl

/-- What is said of rules holds of them where they match, if it solves the equations. -/
theorem has_of_enterRule (h : Tabled rules udts) {analysis : Analysis} {aspect : Aspect}
    (hsolution : Phrases.said analysis aspect ∈ Phrases.Solutions aspect rules) {r : Nat}
    (hr : r < rules.size) {a : Attributes} (ha : analysis.attributes[r]? = some a) {σ : Type}
    {watch : Engine.Watch σ} {input : Array UInt8} {depth pos n : Nat}
    {state state' : Engine.State σ}
    (hok : Engine.enterRule watch r pos (Engine.evaluate rules watch input depth r 0 pos) state =
      .ok (some n, state')) (hn : aspect.IsOf n) : a.has aspect = true := by
  obtain ⟨hlength, hderives⟩ := (Engine.evaluates_of_enterRule hok).yields rfl
  have hrule := Array.getElem?_eq_getElem hr
  rw [← Engine.length_phraseAt hlength] at hn
  have hholds := Phrases.holds_of_derives hsolution h.nonempty_literals hderives hrule hn
  obtain ⟨_, ha', hhas⟩ := (hsolution.2 r hr).2 ⟨_, hrule, hholds⟩
  cases ha.symm.trans ha'
  exact hhas

/-- Analysis of well-formed tables ends and is sound. -/
theorem exists_soundFor (h : Tabled rules udts) :
    ∃ analysis, Analysis.analyze rules = .ok analysis ∧ analysis.SoundFor rules := by
  obtain ⟨analysis, hanalyze, hsize, hfinite, hnotEmpty, hempty, -⟩ :=
    Analysis.analyze_exact h.ordered
  have hlt : ∀ {r : Nat} {a : Attributes}, analysis.attributes[r]? = some a → r < rules.size :=
    fun ha => hsize ▸ (Array.getElem?_eq_some_iff.1 ha).1
  refine ⟨analysis, hanalyze, hsize, ?_, ?_⟩
  · intro r a ha σ watch input depth pos n state state' hok
    exact ⟨h.has_of_enterRule hfinite.1 (hlt ha) ha hok trivial,
      h.has_of_enterRule hempty.1 (hlt ha) ha hok,
      h.has_of_enterRule hnotEmpty.1 (hlt ha) ha hok⟩
  · intro r a ha hinfinite σ watch input init found hrun
    obtain ⟨_, -, hrun⟩ := exists_of_bind_eq_ok hrun
    obtain ⟨⟨result, state⟩, hok, hrun⟩ := exists_of_bind_eq_ok hrun
    cases hrun
    cases result with
    | none => rfl
    | some n =>
      have hsaid : a.finite = true := h.has_of_enterRule hfinite.1 (hlt ha) ha hok trivial
      rw [hinfinite] at hsaid
      cases hsaid

end Tabled

/-- The attributes that analysis finds hold of every rule that matches, both in the tables of a text
without flaws and in the tables that they reduce to. -/
theorem attributes_sound {source : Source} {strict : Bool} {recognition : Metagrammar.Recognition}
    (hrecognize : Metagrammar.recognize source strict = .ok recognition)
    (hflaws : (Tables.ofRecognition source recognition).flaws = []) :
    ∃ reduced, Reduction.reduce (Tables.ofRecognition source recognition).rules = .ok reduced ∧
      ∀ rules ∈ [(Tables.ofRecognition source recognition).rules, reduced],
        ∃ analysis, Analysis.analyze rules = .ok analysis ∧ analysis.SoundFor rules := by
  have htabled := tabled_ofRecognition hrecognize hflaws
  obtain ⟨reduced, hreduce, hreduced⟩ := htabled.reduce
  refine ⟨reduced, hreduce, fun rules hrules => ?_⟩
  rcases List.mem_pair.1 hrules with rfl | rfl
  · exact htabled.exists_soundFor
  · exact hreduced.exists_soundFor

/-- A rule that recurs between brackets. -/
def bracketsText : String :=
  "A = \"a\" A \"b\" / \"c\"\n"

/-- The line of the text. -/
def bracketsLine : Canonical.Line :=
  let a := Canonical.Name.ofLetter 'A' (.refl true)
  ⟨a, .cons (.cons (.character 'a' (.refl true))
      (.cons (.rule a) (.last (.character 'b' (.refl true)))))
    (.last (.last (.character 'c' (.refl true))))⟩

/-- The table of the text. -/
def brackets : Array Rule :=
  #[⟨"A", 0, #[.alt [1, 5], .cat [2, 3, 4], .tls [97], .rnm 0, .tls [98], .cat [6], .tls [99]]⟩]

/-- The rule matches three bytes, and recurs for the one in the middle. So it is said to match a
finite phrase, and one that is not empty. -/
theorem attributes_sound_brackets :
    ∃ recognition, Metagrammar.recognize (.ofString bracketsText) false = .ok recognition ∧
      (Tables.ofRecognition (.ofString bracketsText) recognition).flaws = [] ∧
      (Tables.ofRecognition (.ofString bracketsText) recognition).rules = brackets ∧
      ∃ analysis a, Analysis.analyze brackets = .ok analysis ∧
        analysis.attributes[0]? = some a ∧ a.finite = true ∧ a.notEmpty = true := by
  obtain ⟨recognition, hrecognize, htables⟩ :=
    Canonical.exists_recognition_print [bracketsLine] (List.cons_ne_nil _ _)
      (by decide +kernel)
  have htext : Canonical.print [bracketsLine] = bracketsText := by decide +kernel
  have hrules : (Canonical.ruleTable [bracketsLine]).toArray = brackets := by decide +kernel
  rw [htext] at hrecognize htables
  rw [hrules] at htables
  have hflaws : (Tables.ofRecognition (.ofString bracketsText) recognition).flaws = [] := by
    rw [htables]
  refine ⟨recognition, hrecognize, hflaws, by rw [htables], ?_⟩
  obtain ⟨_, -, hsound⟩ := attributes_sound hrecognize hflaws
  rw [htables] at hsound
  obtain ⟨analysis, hanalyze, hsound⟩ := hsound brackets List.mem_cons_self
  have hsize : 0 < analysis.attributes.size := by
    rw [hsound.size]
    exact Nat.one_pos
  have ha := Array.getElem?_eq_getElem hsize
  have hok : Engine.enterRule (.log [] []) 0 0
      (Engine.evaluate brackets (.log [] []) #[97, 99, 98] 7 0 0 0) ⟨#[], #[]⟩ =
      .ok (some 3, ⟨#[], #[]⟩) := rfl
  obtain ⟨hfinite, -, hnotEmpty⟩ := hsound.matched ha hok
  exact ⟨analysis, _, hanalyze, ha, hfinite, hnotEmpty (Nat.succ_pos 2)⟩

end Abnf
