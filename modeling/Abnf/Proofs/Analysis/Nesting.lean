import Abnf.Proofs.Analysis.Passes
import Abnf.Proofs.Analysis.Ways

/-!
# Rules that recur between phrases

The walk from a rule keeps four flags for each expression, and in a sequence it combines those of
the parts. This loses which way back has a phrase at which side: of a part that leads back at both
of its ends, nothing more is known. What the walk finds is nested recursion just where the places of
one way that enters no rule twice are enclosed by phrases, and an outer place counts for one side
only where its element does not lead back at the other end.

* `Attributes.recursion_concatenation`: the flags of a sequence, by the positions of its parts.
* `Recursion.Tells`: what the flags of an expression tell of the ways through it.
* `Analysis.tells_of_analyze`: what the attributes of a rule tell of the ways back to it.
* `Analysis.faultyRules_eq_nil`: tables that analysis has nothing to object to.
-/

namespace Abnf

/-! ## Flags of sequences -/

namespace Attributes

theorem nested_alternation (parts : List Attributes) :
    (alternation parts).nested = parts.any nested :=
  apply_alternation (fun _ _ => rfl) rfl parts

theorem nested_repeated (min : UInt32) (a : Attributes) : (a.repeated min).nested = a.nested := by
  unfold repeated
  split <;> rfl

theorem nested_ofLeaf (op : Opcode) : (ofLeaf op).nested = false := by
  cases op <;> rfl

theorem cyclic_ofLeaf (op : Opcode) : (ofLeaf op).cyclic = false := by
  cases op <;> rfl

theorem recurs_iff {a : Attributes} (hcyclic : a.cyclic = true → ∀ side, a.recursAt side = true) :
    a.recurs = true ↔ ∃ side, a.recursAt side = true := by
  simp only [recurs, Bool.or_eq_true]
  constructor
  · rintro ((hleft | hright) | h)
    · exact ⟨.left, hleft⟩
    · exact ⟨.right, hright⟩
    · exact ⟨.left, hcyclic h .left⟩
  · rintro ⟨side, h⟩
    cases side with
    | left => exact .inl (.inl h)
    | right => exact .inl (.inr h)

/-- Some part stands at the end of a sequence that is not without parts. -/
theorem exists_outermost {α : Type} {as : List α} (h : as ≠ []) (side : Side) :
    ∃ before a after, as = before ++ a :: after ∧ side.outside before after = [] := by
  cases side with
  | left =>
    obtain ⟨a, rest, rfl⟩ := List.exists_cons_of_ne_nil h
    exact ⟨[], a, rest, rfl, rfl⟩
  | right =>
    obtain ⟨front, a, rfl⟩ := List.eq_nil_or_concat as |>.resolve_left h
    exact ⟨front, a, [], by simp, rfl⟩

/-- A sequence of parts that recur in every way recurs at both ends. -/
theorem recursAt_of_cyclic_concatenation {parts : List Attributes} (hne : parts ≠ [])
    (hparts : ∀ b ∈ parts, b.cyclic = true → ∀ side, b.recursAt side = true)
    (hcyclic : (concatenation parts).cyclic = true) (side : Side) :
    (concatenation parts).recursAt side = true := by
  obtain ⟨before, b, after, rfl, houtside⟩ := exists_outermost hne side
  have hb : b.cyclic = true := List.all_eq_true.1 hcyclic b (by simp)
  exact recursAt_concatenation_of rfl (by simp [houtside]) (hparts b (by simp) hb side)

/-- What is behind the first element of a kind is behind some element of the kind, and has all that
is behind the others. -/
theorem behind_first_iff {α : Type} {p : α → Bool} {Q : List α → Prop} (hnil : ¬ Q [])
    (hcons : ∀ a l, Q l → Q (a :: l)) (l : List α) :
    Q (l.dropWhile fun a => !p a).tail ↔
      ∃ before a after, l = before ++ a :: after ∧ p a = true ∧ Q after := by
  have happend : ∀ before l, Q l → Q (before ++ l) := by
    intro before l h
    induction before with
    | nil => exact h
    | cons a before ih => exact hcons a _ ih
  -- Behind the first element of the kind stands all that is behind any other one.
  induction l with
  | nil => simpa using hnil
  | cons a l ih =>
    by_cases ha : p a = true
    · rw [List.dropWhile_cons_of_neg (by simp [ha]), List.tail_cons]
      refine ⟨fun h => ⟨[], a, l, rfl, ha, h⟩, ?_⟩
      rintro ⟨before, b, after, heq, -, h⟩
      cases before with
      | nil =>
        cases heq
        exact h
      | cons b' before =>
        cases heq
        exact happend before _ (hcons b after h)
    · rw [List.dropWhile_cons_of_pos (by simp [ha])]
      refine ih.trans ⟨?_, ?_⟩
      · rintro ⟨before, b, after, rfl, hb, h⟩
        exact ⟨a :: before, b, after, rfl, hb, h⟩
      · rintro ⟨before, b, after, heq, hb, h⟩
        cases before with
        | nil =>
          cases heq
          exact absurd hb ha
        | cons b' before =>
          cases heq
          exact ⟨before, b, after, rfl, hb, h⟩

theorem thenPhrase_iff (flag : Attributes → Bool) (parts : List Attributes) :
    thenPhrase flag parts = true ↔ ∃ before a after, parts = before ++ a :: after ∧
      flag a = true ∧ after.any notEmpty = true := by
  have heq : thenPhrase flag parts = (parts.dropWhile fun a => !flag a).tail.any notEmpty := by
    induction parts with
    | nil => rfl
    | cons a parts ih =>
      unfold thenPhrase
      cases ha : flag a <;> simp [ha, ih]
  rw [heq]
  exact behind_first_iff (Q := fun l => l.any notEmpty = true) (by simp)
    (fun a l h => by simp [h]) parts

/-- A part that recurs at a side only, and can be non-empty, has a phrase at that side, or a part
that recurs has phrases at both sides. -/
def IsEnclosed (before : List Attributes) (a : Attributes) (after : List Attributes) : Prop :=
  (∃ side : Side, (side.outside before after).any notEmpty = true ∧ a.recursAt side = true ∧
    a.recursAt side.other = false ∧ a.notEmpty = true) ∨
  a.recurs = true ∧ ∀ side : Side, (side.outside before after).any notEmpty = true

theorem thenPhrase_reverse_iff (flag : Attributes → Bool) (parts : List Attributes) :
    thenPhrase flag parts.reverse = true ↔ ∃ before a after, parts = before ++ a :: after ∧
      flag a = true ∧ before.any notEmpty = true := by
  rw [thenPhrase_iff]
  constructor
  · rintro ⟨before, a, after, heq, ha, h⟩
    refine ⟨after.reverse, a, before.reverse, ?_, ha, by simpa using h⟩
    simpa using congrArg List.reverse heq
  · rintro ⟨before, a, after, rfl, ha, h⟩
    exact ⟨after.reverse, a, before.reverse, by simp, ha, by simpa using h⟩

theorem betweenPhrases_iff (parts : List Attributes) :
    betweenPhrases parts = true ↔ ∃ before a after, parts = before ++ a :: after ∧
      a.recurs = true ∧ before.any notEmpty = true ∧ after.any notEmpty = true := by
  have hbehind := behind_first_iff (p := recurs) (Q := fun l => l.any notEmpty = true) (by simp)
    fun a l h => by simp [h]
  refine (behind_first_iff (p := notEmpty) (Q := fun l =>
    (l.dropWhile fun a => !a.recurs).tail.any notEmpty = true) (by simp) (fun a l h => ?_)
    parts).trans ?_
  · obtain ⟨before, b, after, rfl, hb, h⟩ := (hbehind l).1 h
    exact (hbehind _).2 ⟨a :: before, b, after, rfl, hb, h⟩
  · simp only [hbehind]
    constructor
    · rintro ⟨front, x, _, rfl, hx, before, a, after, rfl, ha, hafter⟩
      exact ⟨front ++ x :: before, a, after, by simp, ha, by simp [hx], hafter⟩
    · rintro ⟨before, a, after, rfl, ha, hbefore, hafter⟩
      obtain ⟨x, hmem, hx⟩ := List.any_eq_true.1 hbefore
      obtain ⟨front, back, rfl⟩ := List.append_of_mem hmem
      exact ⟨front, x, _, by simp, hx, back, a, after, rfl, ha, hafter⟩

/-- A sequence is nested recursion if a part is, or if a part is enclosed. -/
theorem isNested_iff (parts : List Attributes) : isNested parts = true ↔
    ∃ before a after, parts = before ++ a :: after ∧
      (a.nested = true ∨ IsEnclosed before a after) := by
  simp only [isNested, Bool.or_eq_true, thenPhrase_reverse_iff, betweenPhrases_iff]
  simp only [thenPhrase_iff, Bool.and_eq_true, Bool.not_eq_true']
  constructor
  · rintro (((hnested | ⟨before, a, after, heq, ⟨⟨hright, hleft⟩, ha⟩, hafter⟩) |
      ⟨before, a, after, heq, ⟨⟨hleft, hright⟩, ha⟩, hbefore⟩) |
      ⟨before, a, after, heq, ha, hbefore, hafter⟩)
    · obtain ⟨a, hmem, ha⟩ := List.any_eq_true.1 hnested
      obtain ⟨before, after, rfl⟩ := List.append_of_mem hmem
      exact ⟨before, a, after, rfl, .inl ha⟩
    · exact ⟨before, a, after, heq, .inr (.inl ⟨.right, hafter, hright, hleft, ha⟩)⟩
    · exact ⟨before, a, after, heq, .inr (.inl ⟨.left, hbefore, hleft, hright, ha⟩)⟩
    · refine ⟨before, a, after, heq, .inr (.inr ⟨ha, fun side => ?_⟩)⟩
      cases side with
      | left => exact hbefore
      | right => exact hafter
  · rintro ⟨before, a, after, rfl, ha | ⟨side, hphrase, hside, hother, ha⟩ | ⟨ha, hboth⟩⟩
    · exact .inl (.inl (.inl (by simp [ha])))
    · cases side with
      | left => exact .inl (.inr ⟨before, a, after, rfl, ⟨⟨hside, hother⟩, ha⟩, hphrase⟩)
      | right => exact .inl (.inl (.inr ⟨before, a, after, rfl, ⟨⟨hside, hother⟩, ha⟩, hphrase⟩))
    · exact .inr ⟨before, a, after, rfl, ha, hboth .left, hboth .right⟩

/-! ### Positions -/

section Positions

variable {α : Type} {l : List α} {i : Fin l.length} {p : α → Prop}

/-- A place in a list is a position, with what stands before and behind it. -/
theorem exists_place_iff {P : List α → α → List α → Prop} :
    (∃ before a after, l = before ++ a :: after ∧ P before a after) ↔
      ∃ i : Fin l.length, P (l.take i) l[i] (l.drop (i + 1)) := by
  constructor
  · rintro ⟨before, a, after, rfl, h⟩
    exact ⟨⟨before.length, by simp⟩, by simpa using h⟩
  · rintro ⟨i, h⟩
    exact ⟨_, _, _, by simp, h⟩

theorem exists_before_iff : (∃ a ∈ l.take i, p a) ↔ ∃ j < i, p l[j] := by
  simp only [List.mem_take_iff_getElem]
  constructor
  · rintro ⟨_, ⟨j, hj, rfl⟩, h⟩
    exact ⟨⟨j, by omega⟩, Fin.lt_def.2 (by simp; omega), h⟩
  · rintro ⟨j, hj, h⟩
    exact ⟨_, ⟨j, by simp; omega, rfl⟩, h⟩

theorem exists_behind_iff : (∃ a ∈ l.drop (i + 1), p a) ↔ ∃ j > i, p l[j] := by
  simp only [List.mem_drop_iff_getElem]
  constructor
  · rintro ⟨_, ⟨j, hj, rfl⟩, h⟩
    exact ⟨⟨i + 1 + j, by omega⟩, Fin.lt_def.2 (by simp; omega), h⟩
  · rintro ⟨j, hj, h⟩
    obtain ⟨k, hk⟩ := Nat.exists_eq_add_of_lt (Fin.lt_def.1 hj)
    refine ⟨l[j], ⟨k, by omega, ?_⟩, h⟩
    congr 1
    omega

theorem forall_before_iff : (∀ a ∈ l.take i, p a) ↔ ∀ j < i, p l[j] := by
  simpa only [not_exists, not_and, not_not] using
    not_congr (exists_before_iff (i := i) (p := fun a => ¬ p a))

theorem forall_behind_iff : (∀ a ∈ l.drop (i + 1), p a) ↔ ∀ j > i, p l[j] := by
  simpa only [not_exists, not_and, not_not] using
    not_congr (exists_behind_iff (i := i) (p := fun a => ¬ p a))

end Positions

/-- Where a sequence recurs, said of the positions of its parts. It recurs first if some part does and
all those before it can be empty, and last if some part does and all those behind it can be empty. It
is nested recursion if a part is, if a part that recurs at one end only and can be non-empty has a
phrase at that end, or if a part that recurs has phrases at both sides. -/
theorem recursion_concatenation (parts : List Attributes) :
    ((concatenation parts).left = true ↔
      ∃ i : Fin parts.length, parts[i].left = true ∧ ∀ j < i, parts[j].empty = true) ∧
    ((concatenation parts).right = true ↔
      ∃ i : Fin parts.length, parts[i].right = true ∧ ∀ j > i, parts[j].empty = true) ∧
    ((concatenation parts).nested = true ↔
      (∃ i : Fin parts.length, parts[i].nested = true) ∨
      (∃ i j : Fin parts.length, i < j ∧ parts[i].right = true ∧ parts[i].left = false ∧
        parts[i].notEmpty = true ∧ parts[j].notEmpty = true) ∨
      (∃ i j : Fin parts.length, i < j ∧ parts[j].left = true ∧ parts[j].right = false ∧
        parts[j].notEmpty = true ∧ parts[i].notEmpty = true) ∨
      ∃ i j k : Fin parts.length, i < j ∧ j < k ∧ parts[i].notEmpty = true ∧
        (parts[j].left = true ∨ parts[j].right = true ∨ parts[j].cyclic = true) ∧
        parts[k].notEmpty = true) := by
  -- Attributes are found by splitting the list of parts, which positions say in another way.
  refine ⟨?_, ?_, ?_⟩
  · refine (recursAt_concatenation_iff .left parts).trans (exists_place_iff.trans ?_)
    exact exists_congr fun i => and_comm.trans (and_congr_right' forall_before_iff)
  · refine (recursAt_concatenation_iff .right parts).trans (exists_place_iff.trans ?_)
    exact exists_congr fun i => and_comm.trans (and_congr_right' forall_behind_iff)
  · change isNested parts = true ↔ _
    simp only [isNested, Bool.or_eq_true, or_assoc, thenPhrase_reverse_iff, betweenPhrases_iff]
    simp only [thenPhrase_iff, exists_place_iff, List.any_eq_true, exists_before_iff,
      exists_behind_iff, recurs, Bool.or_eq_true, Bool.and_eq_true, Bool.not_eq_true']
    refine or_congr ?_ (or_congr ?_ (or_congr ?_ ?_))
    · simp [List.exists_mem_iff_get]
    · constructor
      · rintro ⟨i, ⟨⟨hright, hleft⟩, hi⟩, j, hij, hj⟩
        exact ⟨i, j, hij, hright, hleft, hi, hj⟩
      · rintro ⟨i, j, hij, hright, hleft, hi, hj⟩
        exact ⟨i, ⟨⟨hright, hleft⟩, hi⟩, j, hij, hj⟩
    · constructor
      · rintro ⟨j, ⟨⟨hleft, hright⟩, hj⟩, i, hij, hi⟩
        exact ⟨i, j, hij, hleft, hright, hj, hi⟩
      · rintro ⟨i, j, hij, hleft, hright, hj, hi⟩
        exact ⟨j, ⟨⟨hleft, hright⟩, hj⟩, i, hij, hi⟩
    · constructor
      · rintro ⟨j, hj, ⟨i, hij, hi⟩, k, hjk, hk⟩
        exact ⟨i, j, k, hij, hjk, hi, or_assoc.1 hj, hk⟩
      · rintro ⟨i, j, k, hij, hjk, hi, hj, hk⟩
        exact ⟨j, or_assoc.2 hj, ⟨i, hij, hi⟩, k, hjk, hk⟩

end Attributes

/-! ## Flags and ways -/

namespace Recursion

open Walk Analysis Phrases

/-- What attributes tell of the ways through a rule or an expression: a way shows as recursion at an
end or as nested recursion, and nested recursion is that of a way with phrases around its places. -/
structure Tells (rules : Array Rule) (v w : Nat → Prop) (origin : Nat) (ways : List Place → Prop)
    (a : Attributes) : Prop where
  cyclic : a.cyclic = true → ∀ side, a.recursAt side = true
  shows : ∀ places, ways places → a.nested = true ∨ ∃ side, a.recursAt side = true
  nested : a.nested = true ↔ ∃ places, ways places ∧ Encloses rules v w origin places

/-- What a walk from `origin` finds of a rule: all that there is to know. -/
structure Surveys (rules : Array Rule) (v w : Nat → Prop) (assumed : Attributes) (origin : Nat)
    (path : List Nat) (rule : Nat) (a : Attributes) : Prop
    extends Exact rules v assumed origin path rule a where
  notEmpty : a.has .notEmpty = true ↔ w rule
  tells : Tells rules v w origin (Way rules Afresh origin path rule) a

/-- What a walk from `origin` finds of the expression at a position. -/
structure SurveysAt (rules : Array Rule) (v w : Nat → Prop) (origin : Nat) (path : List Nat)
    (opcodes : Array Opcode) (i : Nat) (a : Attributes) : Prop where
  notEmpty : a.has .notEmpty = true ↔ Holds .notEmpty opcodes w i
  empty : a.has .empty = true ↔ Holds .empty opcodes v i
  edges : ∀ side, a.recursAt side = true ↔
    ∃ t, EdgeAt side opcodes v t i ∧ Back (EdgeRef side rules v) origin path t
  tells : Tells rules v w origin (WayAt rules origin path opcodes i) a

section

variable {rules : Array Rule} {v w : Nat → Prop} {origin : Nat} {ways : List Place → Prop}
  {a : Attributes}

theorem Tells.congr {ways' : List Place → Prop} (h : Tells rules v w origin ways a)
    (hways : ∀ places, ways' places ↔ ways places) : Tells rules v w origin ways' a := by
  rwa [funext fun places => propext (hways places)]

/-- Where there is no way, nothing is told. -/
theorem tells_none (hways : ∀ places, ¬ ways places) (hcyclic : a.cyclic = false)
    (hnested : a.nested = false) : Tells rules v w origin ways a :=
  ⟨by simp [hcyclic], fun places h => absurd h (hways places), by simp [hways, hnested]⟩

theorem Tells.repeated (min : UInt32) (h : Tells rules v w origin ways a) :
    Tells rules v w origin ways (a.repeated min) := by
  refine ⟨fun hcyclic side => ?_, fun places hway => ?_, ?_⟩
  · rw [Attributes.recursAt_repeated]
    exact h.cyclic (by rwa [Attributes.cyclic_repeated] at hcyclic) side
  · simp only [Attributes.nested_repeated, Attributes.recursAt_repeated]
    exact h.shows places hway
  · rw [Attributes.nested_repeated]
    exact h.nested

/-! ### Parts -/

theorem Tells.alternation {cs : List Nat} {parts : List Attributes}
    {ways : Nat → List Place → Prop}
    (h : List.Forall₂ (fun c b => Tells rules v w origin (ways c) b) cs parts) :
    Tells rules v w origin (fun places => ∃ c ∈ cs, ways c places) (.alternation parts) := by
  refine ⟨fun hcyclic side => ?_, ?_, ?_⟩
  · rw [Attributes.cyclic_alternation, List.any_eq_true] at hcyclic
    obtain ⟨b, hb, hcyclic⟩ := hcyclic
    obtain ⟨c, -, htells⟩ := exists_left_of_mem h hb
    rw [Attributes.recursAt_alternation, List.any_eq_true]
    exact ⟨b, hb, htells.cyclic hcyclic side⟩
  · rintro places ⟨c, hc, hway⟩
    obtain ⟨b, hb, htells⟩ := exists_right_of_mem h hc
    simp only [Attributes.nested_alternation, Attributes.recursAt_alternation, List.any_eq_true]
    refine (htells.shows places hway).imp (fun hnested => ⟨b, hb, hnested⟩) ?_
    exact fun ⟨side, hside⟩ => ⟨side, b, hb, hside⟩
  · rw [Attributes.nested_alternation, List.any_eq_true]
    constructor
    · rintro ⟨b, hb, hnested⟩
      obtain ⟨c, hc, htells⟩ := exists_left_of_mem h hb
      obtain ⟨places, hway, hencloses⟩ := htells.nested.1 hnested
      exact ⟨places, ⟨c, hc, hway⟩, hencloses⟩
    · rintro ⟨places, ⟨c, hc, hway⟩, hencloses⟩
      obtain ⟨b, hb, htells⟩ := exists_right_of_mem h hc
      exact ⟨b, hb, htells.nested.2 ⟨places, hway, hencloses⟩⟩

/-! ### Sequences -/

section

variable {path : List Nat} {opcodes : Array Opcode} {c : Nat} {before after : List Nat}
  {bs₁ bs₂ : List Attributes} {b : Attributes}

theorem hasPhrase_iff (hbefore : List.Forall₂ (SurveysAt rules v w origin path opcodes) before bs₁)
    (hafter : List.Forall₂ (SurveysAt rules v w origin path opcodes) after bs₂) (side : Side) :
    Place.HasPhrase w side ⟨path, opcodes, before, c, after⟩ ↔
      (side.outside bs₁ bs₂).any Attributes.notEmpty = true := by
  have houtside : List.Forall₂ (SurveysAt rules v w origin path opcodes)
      (side.outside before after) (side.outside bs₁ bs₂) := by
    cases side with
    | left => exact hbefore
    | right => exact hafter
  rw [List.any_eq_true]
  constructor
  · rintro ⟨x, hx, hholds⟩
    obtain ⟨y, hy, hxy⟩ := exists_right_of_mem houtside hx
    exact ⟨y, hy, hxy.notEmpty.2 hholds⟩
  · rintro ⟨y, hy, hhas⟩
    obtain ⟨x, hx, hxy⟩ := exists_left_of_mem houtside hy
    exact ⟨x, hx, hxy.notEmpty.1 hhas⟩

variable (hordered : Ordered rules) (hsettled : Settled rules v w)
  (hclosed : ∀ r, Equation .notEmpty rules w r → w r) {rule : Rule} (hmem : rule ∈ rules)
  (hrule : rule.opcodes = opcodes)
include hordered hsettled hmem hrule

/-- A way through an expression that does not lead back at an end has a phrase at that side. -/
theorem SurveysAt.exists_phrase (h : SurveysAt rules v w origin path opcodes c b) {side : Side}
    (hside : b.recursAt side = false) {places : List Place}
    (hway : WayAt rules origin path opcodes c places) :
    ∃ place ∈ places, place.HasPhrase w side := by
  by_contra hnone
  push Not at hnone
  rw [(h.edges side).2 (hway.leadsBack hordered hsettled hmem hrule hnone)] at hside
  cases hside

/-- Where a part recurs at an end, but the sequence does not, a phrase stands in between. -/
theorem any_notEmpty_of_recursAt {i : Nat} {cs : List Nat} (hop : opcodes[i]? = some (.cat cs))
    (h : List.Forall₂ (SurveysAt rules v w origin path opcodes) cs (bs₁ ++ b :: bs₂)) {side : Side}
    (hside : b.recursAt side = true)
    (hnot : (Attributes.concatenation (bs₁ ++ b :: bs₂)).recursAt side ≠ true) :
    (side.outside bs₁ bs₂).any Attributes.notEmpty = true := by
  subst hrule
  by_contra hnone
  rw [List.any_eq_true] at hnone
  push Not at hnone
  refine hnot (Attributes.recursAt_concatenation_of rfl (fun x hx => ?_) hside)
  obtain ⟨c, hc, hx'⟩ := exists_left_of_mem h (Side.mem_of_mem_outside hx)
  have hlt := ((hordered.opcodes rule hmem).forward hop hc).2
  exact hx'.empty.2 ((hsettled rule hmem c hlt).resolve_right fun hholds =>
    hnone x hx (hx'.notEmpty.2 hholds))

include hclosed

/-- A part shows nested recursion in a sequence just where the places of a way through it are
enclosed by phrases, its own place included. -/
theorem SurveysAt.isEnclosed_iff (h : SurveysAt rules v w origin path opcodes c b)
    (hphrase : ∀ side, Place.HasPhrase w side ⟨path, opcodes, before, c, after⟩ ↔
      (side.outside bs₁ bs₂).any Attributes.notEmpty = true) :
    b.nested = true ∨ Attributes.IsEnclosed bs₁ b bs₂ ↔
      ∃ places, WayAt rules origin path opcodes c places ∧
        Encloses rules v w origin (⟨path, opcodes, before, c, after⟩ :: places) := by
  have hleads : ∀ side, Place.LeadsBack rules v origin side ⟨path, opcodes, before, c, after⟩ ↔
      b.recursAt side = true := fun side => (h.edges side).symm
  simp only [encloses_cons, hphrase, hleads, Bool.not_eq_true, Attributes.IsEnclosed,
    Attributes.recurs_iff h.tells.cyclic]
  constructor
  · rintro (hnested | ⟨side, houtside, hside, hother, -⟩ | ⟨⟨side, hside⟩, hboth⟩)
    · obtain ⟨places, hway, hencloses⟩ := h.tells.nested.1 hnested
      exact ⟨places, hway, .inl hencloses⟩
    · obtain ⟨places, hway⟩ := exists_wayAt ((h.edges side).1 hside)
      refine ⟨places, hway, .inr (.inr ⟨side, houtside, hother, ?_⟩)⟩
      exact h.exists_phrase hordered hsettled hmem hrule hother hway
    · obtain ⟨places, hway⟩ := exists_wayAt ((h.edges side).1 hside)
      exact ⟨places, hway, .inr (.inl hboth)⟩
  · rintro ⟨places, hway, hencloses | hboth | ⟨side, houtside, hother, hinner⟩⟩
    · exact .inl (h.tells.nested.2 ⟨places, hway, hencloses⟩)
    · exact (h.tells.shows places hway).imp_right fun hside => .inr ⟨hside, hboth⟩
    · refine (h.tells.shows places hway).imp_right fun hshows => .inl ⟨side, houtside, ?_, hother,
        h.notEmpty.2 (hway.notEmpty hclosed hinner)⟩
      obtain ⟨side', hside'⟩ := hshows
      cases side <;> cases side' <;> simp_all [Side.other]

/-- A way through a part of a sequence shows as nested recursion or at an end of the sequence. -/
theorem SurveysAt.shows_concatenation {i : Nat} {cs : List Nat}
    (hop : opcodes[i]? = some (.cat cs))
    (h : List.Forall₂ (SurveysAt rules v w origin path opcodes) cs (bs₁ ++ b :: bs₂))
    (hb : SurveysAt rules v w origin path opcodes c b) {places : List Place}
    (hway : WayAt rules origin path opcodes c places) :
    (Attributes.concatenation (bs₁ ++ b :: bs₂)).nested = true ∨
      ∃ side, (Attributes.concatenation (bs₁ ++ b :: bs₂)).recursAt side = true := by
  by_contra! hnone
  obtain ⟨hnested, hends⟩ := hnone
  replace hnested : ¬ (b.nested = true ∨ Attributes.IsEnclosed bs₁ b bs₂) := fun henclosed =>
    hnested ((Attributes.isNested_iff _).2 ⟨bs₁, b, bs₂, rfl, henclosed⟩)
  have houtside : ∀ side, b.recursAt side = true →
      (side.outside bs₁ bs₂).any Attributes.notEmpty = true := fun side hside =>
    any_notEmpty_of_recursAt hordered hsettled hmem hrule hop h hside (hends side)
  obtain ⟨side, hside⟩ := (hb.tells.shows places hway).resolve_left fun h => hnested (.inl h)
  refine hnested (.inr ?_)
  cases hother : b.recursAt side.other with
  | true =>
    refine .inr ⟨(Attributes.recurs_iff hb.tells.cyclic).2 ⟨side, hside⟩, ?_⟩
    exact side.forall_iff.2 ⟨houtside side hside, houtside side.other hother⟩
  | false =>
    have hphrase := hb.exists_phrase hordered hsettled hmem hrule hother hway
    exact .inl ⟨side, houtside side hside, hside, hother,
      hb.notEmpty.2 (hway.notEmpty hclosed hphrase)⟩

theorem Tells.concatenation {i : Nat} {cs : List Nat} {parts : List Attributes}
    (hop : opcodes[i]? = some (.cat cs))
    (h : List.Forall₂ (SurveysAt rules v w origin path opcodes) cs parts) :
    Tells rules v w origin (WayAt rules origin path opcodes i) (.concatenation parts) := by
  have henclosed := fun {before c after bs₁ b bs₂}
      (hbefore : List.Forall₂ (SurveysAt rules v w origin path opcodes) before bs₁)
      (hb : SurveysAt rules v w origin path opcodes c b)
      (hafter : List.Forall₂ (SurveysAt rules v w origin path opcodes) after bs₂) =>
    hb.isEnclosed_iff hordered hsettled hclosed hmem hrule (hasPhrase_iff hbefore hafter)
  refine ⟨Attributes.recursAt_of_cyclic_concatenation ?_ fun b hb => ?_, fun places hway => ?_, ?_⟩
  · rintro rfl
    have hop' : rule.opcodes[i]? = some (.cat cs) := hrule ▸ hop
    exact (hordered.opcodes rule hmem).branches hop' rfl (List.forall₂_nil_right_iff.1 h)
  · obtain ⟨c, -, hc⟩ := exists_left_of_mem h hb
    exact hc.tells.cyclic
  · obtain ⟨before, c, after, rest, rfl, rfl, hrest⟩ := (wayAt_cat_iff hop).1 hway
    obtain ⟨bs₁, b, bs₂, rfl, -, hb, -⟩ := exists_split_of_forall₂ h
    exact hb.shows_concatenation hordered hsettled hclosed hmem hrule hop h hrest
  · change Attributes.isNested parts = true ↔ _
    rw [Attributes.isNested_iff]
    constructor
    · rintro ⟨bs₁, b, bs₂, rfl, hnested⟩
      obtain ⟨before, c, after, rfl, hbefore, hb, hafter⟩ := exists_split_of_forall₂ h.flip
      obtain ⟨places, hway, hencloses⟩ := (henclosed hbefore.flip hb hafter.flip).1 hnested
      exact ⟨_, (wayAt_cat_iff hop).2 ⟨before, c, after, places, rfl, rfl, hway⟩, hencloses⟩
    · rintro ⟨_, hway, hencloses⟩
      obtain ⟨before, c, after, rest, rfl, rfl, hrest⟩ := (wayAt_cat_iff hop).1 hway
      obtain ⟨bs₁, b, bs₂, rfl, hbefore, hb, hafter⟩ := exists_split_of_forall₂ h
      exact ⟨bs₁, b, bs₂, rfl, (henclosed hbefore hb hafter).2 ⟨rest, hrest, hencloses⟩⟩

/-- A walk finds of an expression what there is to know, if it does of the rules. -/
theorem surveysAt_of_attributesAt {assumed : Attributes} {depth i : Nat} {a : Attributes}
    (hassumed : ∀ side, assumed.recursAt side = true)
    (h : AttributesAt (Surveys rules v w assumed origin path) opcodes depth i a) :
    SurveysAt rules v w origin path opcodes i a := by
  induction depth generalizing i a with
  | zero =>
    obtain ⟨_, he, -⟩ := h
    cases he
  | succ depth ih =>
    have hnotEmpty : a.has .notEmpty = true ↔ Holds .notEmpty opcodes w i :=
      ⟨h.holds fun t b hb => hb.notEmpty.1, h.has fun t b hb => hb.notEmpty.2⟩
    have hempty : a.has .empty = true ↔ Holds .empty opcodes v i :=
      ⟨h.holds fun t b hb => hb.empty.1, h.has fun t b hb => hb.empty.2⟩
    have hedges : ∀ side, a.recursAt side = true ↔
        ∃ t, EdgeAt side opcodes v t i ∧ Back (EdgeRef side rules v) origin path t := by
      intro side
      rw [h.recursAt_iff fun t b hb => ⟨hb.empty, hb.edges side⟩]
      simp only [hassumed side, true_and]
    refine ⟨hnotEmpty, hempty, hedges, ?_⟩
    rcases h.cases with ⟨op, hop, hplain, rfl⟩ | ⟨t, hop, ht⟩ | ⟨cs, parts, hop, hparts, rfl⟩ |
      ⟨cs, parts, hop, hparts, rfl⟩ | ⟨min, max, b, hop, hb, rfl⟩
    · exact tells_none (fun places => not_wayAt_of_isPlain hop hplain)
        (Attributes.cyclic_ofLeaf op) (Attributes.nested_ofLeaf op)
    · exact ht.tells.congr fun places => wayAt_ref_iff hop
    · refine Tells.congr (.alternation (hparts.imp fun c b h => (ih h).tells)) fun places => ?_
      exact wayAt_alt_iff hop
    · exact .concatenation hordered hsettled hclosed hmem hrule hop (hparts.imp fun c b h => ih h)
    · exact ((ih hb).tells.repeated min).congr fun places => wayAt_rep_iff hop

end

/-! ## The walk -/

variable {analysis : Analysis} {shapes : Nat → Expr Opcode} {assumed : Attributes}

/-- A walk from a rule finds all that there is to know, if it takes the rule to recur in every
way. -/
theorem respects_surveys (h : Outlined rules shapes) (hordered : Ordered rules)
    (hsize : analysis.attributes.size = rules.size)
    (hempty : ∀ (r : Nat) a, analysis.attributes[r]? = some a → (a.has .empty = true ↔ v r))
    (hnotEmpty : ∀ (r : Nat) a, analysis.attributes[r]? = some a → (a.has .notEmpty = true ↔ w r))
    (hsolution : ∀ r < rules.size, v r ↔ Equation .empty rules v r)
    (hsolution' : ∀ r < rules.size, w r ↔ Equation .notEmpty rules w r)
    (hsettled : Settled rules v w)
    (hreaches : ∀ r, Relation.TransGen (RefersTo rules) r origin →
      (analysis.classes[r]?.any (·.reaches origin)) = true)
    (hrecorded : analysis.attributes[origin]? = some assumed)
    (hassumed : ∀ side, assumed.recursAt side = true) (hnested : assumed.nested = false) :
    Respects (plan analysis origin) rules.size shapes
      (fun memo => ∀ rule path a, memo[rule :: path]? = some a →
        Surveys rules v w assumed origin path rule a)
      (Surveys rules v w assumed origin) := by
  have hclosed : ∀ r, Equation .notEmpty rules w r → w r := by
    rintro r heq
    obtain ⟨_, hrule, -⟩ := id heq
    exact (hsolution' r (Array.getElem?_eq_some_iff.1 hrule).1).2 heq
  -- A rule is known because it is the start, because it is cut off from the start, or by its body.
  refine respects_of hsize ?_ ?_ ?_
  · intro path recorded hrecorded' hopen
    cases hrecorded.symm.trans hrecorded'
    refine ⟨.arrived (hempty origin _ hrecorded) hopen, hnotEmpty origin _ hrecorded, ?_⟩
    refine ⟨fun _ => hassumed, fun _ _ => .inr ⟨.left, hassumed .left⟩, ?_⟩
    refine ⟨by simp [hnested], ?_⟩
    rintro ⟨places, hway, hencloses⟩
    cases hway with
    | arrived => exact absurd hencloses not_encloses_nil
    | step hnot => exact absurd hopen hnot
  · intro path rule recorded hrecorded' hcut
    refine ⟨.cut (hempty rule recorded hrecorded') hcut (hreaches rule), ?_, ?_⟩
    · simpa using hnotEmpty rule recorded hrecorded'
    · refine tells_none (fun places hway => ?_) rfl rfl
      exact hcut.not_back (hreaches rule) hway.back_refersTo
  · intro path r a hr hnot hbody
    have hrule := Array.getElem?_eq_getElem hr
    have hat : AttributesAt (Surveys rules v w assumed origin (r :: path)) rules[r].opcodes
        (rules[r].opcodes.size + 1) 0 a := ⟨shapes r, h.shape r _ hrule, hbody⟩
    have hexact : AttributesAt (Exact rules v assumed origin (r :: path)) rules[r].opcodes
        (rules[r].opcodes.size + 1) 0 a :=
      ⟨shapes r, h.shape r _ hrule, hbody.mono fun t b _ hb => hb.toExact⟩
    have hsurveys := surveysAt_of_attributesAt hordered hsettled hclosed (Array.getElem_mem hr) rfl
      hassumed hat
    refine ⟨.of_body hrule hnot (hsolution r hr) hexact, ?_, ?_⟩
    · rw [hsurveys.notEmpty, hsolution' r hr]
      refine ⟨fun hholds => ⟨_, hrule, hholds⟩, ?_⟩
      rintro ⟨rule, hrule', hholds⟩
      cases hrule.symm.trans hrule'
      exact hholds
    · exact hsurveys.tells.congr fun places => way_iff hrule hnot

end

end Recursion

/-! ## What analysis says -/

namespace Analysis

open Recursion

/-- Analysis tells of every rule which ways lead back to it. -/
theorem tells_of_analyze {rules : Array Rule} (h : Ordered rules) :
    ∃ analysis, analyze rules = .ok analysis ∧
      ∀ (r : Nat) a, analysis.attributes[r]? = some a →
        Tells rules (· ∈ Phrases.said analysis .empty) (· ∈ Phrases.said analysis .notEmpty) r
          (Way rules Afresh r [] r) a := by
  obtain ⟨shapes, hshapes⟩ := Walk.exists_outlined h
  obtain ⟨classified, found, analysis, hstages⟩ := exists_stages h
  have hwalked := walked_of_propagate hstages.recursion
  -- Before the pass, the recursive rules are taken to recur at both ends, and no rule in between.
  have hinitial : ∀ (r : Nat) b, found.attributes[r]? = some b → b.nested = false ∧
      (b.left = true ↔ Relation.TransGen (RefersTo rules) r r) ∧ b.right = b.left ∧
        b.cyclic = b.left := by
    intro r b hb
    have hkept := hstages.kept r
    rw [hb, Option.map_some, eq_comm, Option.map_eq_some_iff] at hkept
    obtain ⟨c, hc, hsame⟩ := hkept
    obtain ⟨hleft, hnested, hright, hcyclic, -⟩ := Attributes.mk.inj hsame
    refine ⟨hnested.symm, ?_, hright.symm.trans hleft, hcyclic.symm.trans hleft⟩
    rw [← hleft]
    exact hstages.classifies.recursive hc
  refine ⟨analysis, hstages.analyze, fun r a ha => ?_⟩
  rw [Phrases.said_congr hwalked.phrases, Phrases.said_congr hwalked.phrases]
  have hrecursive := mem_recursiveRules_iff hstages.classifies hstages.found_classes (r := r)
  by_cases hcircle : Relation.TransGen (RefersTo rules) r r
  · obtain ⟨b, memo, hstart, hget⟩ := hwalked.walked r (by simpa using hrecursive.2 hcircle)
    rw [ha, eq_comm, Option.map_eq_some_iff] at hget
    obtain ⟨assumed, hassumed, rfl⟩ := hget
    obtain ⟨hnested, hleft, hright, -⟩ := hinitial r assumed hassumed
    have hends : ∀ side, assumed.recursAt side = true := by
      intro side
      cases side with
      | left => exact hleft.2 hcircle
      | right => exact hright.trans (hleft.2 hcircle)
    have hsaid : ∀ aspect (t : Nat) b, found.attributes[t]? = some b →
        (b.has aspect = true ↔ t ∈ Phrases.said found aspect) :=
      fun aspect t b hb => by simp [Phrases.said, hb]
    obtain ⟨b', memo', hstart', -, hsurveys⟩ := Walk.start_spec hshapes.shaped
      (respects_surveys hshapes h hstages.found_size (hsaid .empty) (hsaid .notEmpty)
        hstages.empty.1.2 hstages.notEmpty.1.2
        (settled_of_solutions h hstages.empty hstages.notEmpty.1)
        (fun t => hstages.classifies.any_reaches hstages.found_classes) hassumed hends hnested)
      (lt_of_reaches hcircle) {} (by simp)
    cases hstart.symm.trans hstart'
    have htells := hsurveys.tells
    refine ⟨fun hcyclic side => ?_, ?_, htells.nested⟩
    · rw [Attributes.recursAt_withRecursion]
      exact htells.cyclic hcyclic side
    · simp only [Attributes.recursAt_withRecursion]
      exact htells.shows
  · rw [hwalked.pending r (by simpa using mt hrecursive.1 hcircle)] at ha
    obtain ⟨hnested, hleft, -, hcyclic⟩ := hinitial r a ha
    have hnone : ∀ places, ¬ Way rules Afresh r [] r places :=
      fun places hway => hcircle (hway.back_refersTo.transGen (by simp))
    refine tells_none hnone ?_ hnested
    rw [hcyclic, ← Bool.not_eq_true, hleft]
    exact hcircle

/-- Analysis has nothing to object to if every rule matches some finite phrase, and none leads back
to itself along the left edge. -/
theorem faultyRules_eq_nil {rules : Array Rule} (h : Ordered rules)
    (hfinite : ∀ v ∈ Phrases.Solutions .finite rules, ∀ r < rules.size, r ∈ v)
    (hleft : ∀ v r, ¬ Relation.TransGen (EdgeRef .left rules v) r r) :
    ∃ analysis, analyze rules = .ok analysis ∧ analysis.faultyRules rules = [] := by
  obtain ⟨analysis, hanalyze, hsize, hleast, -, -, hedges⟩ := analyze_exact h
  obtain ⟨_, hanalyze', htells⟩ := tells_of_analyze h
  cases hanalyze.symm.trans hanalyze'
  refine ⟨analysis, hanalyze, List.flatMap_eq_nil_iff.2 ?_⟩
  rintro ⟨rule, a⟩ hmem
  obtain ⟨r, hr⟩ := List.getElem?_of_mem hmem
  obtain ⟨hrule, ha⟩ := List.getElem?_zip_eq_some.1 hr
  rw [Array.getElem?_toList] at hrule ha
  have hnot : a.left ≠ true := fun hflag => hleft _ r ((hedges r a .left ha).1 hflag)
  have hcyclic : a.cyclic ≠ true := fun hflag => hnot ((htells r a ha).cyclic hflag .left)
  have hsaid : a.finite = true := by
    obtain ⟨b, hb, hflag⟩ := hfinite _ hleast.1 r (Array.getElem?_eq_some_iff.1 hrule).1
    cases ha.symm.trans hb
    exact hflag
  simp [Attributes.faults, hnot, hcyclic, hsaid]

end Analysis

end Abnf
