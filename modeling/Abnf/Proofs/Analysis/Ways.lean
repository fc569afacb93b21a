import Mathlib.Order.FixedPoints
import Abnf.Proofs.Analysis.Edges

/-!
# Ways back to a rule

A way back from a rule to itself is a chain of references. Each reference stands at places in the
sequences that enclose it, and what stands before and after these places is what the rule has around
itself when it recurs.

* `Recursion.Way`: ways back, with the places that they pass.
* `Recursion.Encloses`: what the places of a way have to have around them for nested recursion.
* `Recursion.Way.back`: a way without phrases at one side of its places leads along that edge.
-/

namespace Abnf

/-- The other end of a phrase. -/
def Side.other : Side → Side
  | left => right
  | right => left

theorem Side.forall_iff (side : Side) {P : Side → Prop} :
    (∀ side, P side) ↔ P side ∧ P side.other := by
  refine ⟨fun h => ⟨h _, h _⟩, fun h side' => ?_⟩
  cases side <;> cases side' <;> simp_all [other]

theorem Side.mem_of_mem_outside {α : Type} {before after : List α} {a b : α} {side : Side}
    (h : b ∈ side.outside before after) : b ∈ before ++ a :: after := by
  cases side with
  | left => exact List.mem_append_left _ h
  | right => exact List.mem_append_right _ (List.mem_cons_of_mem _ h)

namespace Recursion

open Analysis Phrases

/-! ## Places -/

/-- A place in a sequence, and the rules that are open there, innermost first. -/
structure Place where
  path : List Nat
  opcodes : Array Opcode
  before : List Nat
  element : Nat
  after : List Nat

/-- Rule `t` is referred to by the expression at a position, other than in the operands of
look-around operators. The places are those of the sequences that enclose the reference, outermost
first. -/
inductive RefersAt (path : List Nat) (opcodes : Array Opcode) (t : Nat) : Nat → List Place → Prop
  | ref {i : Nat} : opcodes[i]? = some (.rnm t) → RefersAt path opcodes t i []
  | alt {i c : Nat} {cs : List Nat} {places : List Place} : opcodes[i]? = some (.alt cs) → c ∈ cs →
    RefersAt path opcodes t c places → RefersAt path opcodes t i places
  | cat {i c : Nat} {before after : List Nat} {places : List Place} :
    opcodes[i]? = some (.cat (before ++ c :: after)) → RefersAt path opcodes t c places →
    RefersAt path opcodes t i (⟨path, opcodes, before, c, after⟩ :: places)
  | rep {i : Nat} {min : UInt32} {max : Option UInt32} {places : List Place} :
    opcodes[i]? = some (.rep min max) → RefersAt path opcodes t (i + 1) places →
    RefersAt path opcodes t i places

/-- There is a way from a rule back to `origin`, which is open, that passes the places. Rules are
entered on the way where `enters` allows it, given the rules that are open. -/
inductive Way (rules : Array Rule) (enters : List Nat → Nat → Prop) (origin : Nat) :
    List Nat → Nat → List Place → Prop
  | arrived {path : List Nat} : origin ∈ path → Way rules enters origin path origin []
  | step {path : List Nat} {r t : Nat} {rule : Rule} {places places' : List Place} :
    enters path r → rules[r]? = some rule → RefersAt (r :: path) rule.opcodes t 0 places →
    Way rules enters origin (r :: path) t places' →
    Way rules enters origin path r (places ++ places')

/-- No rule is entered while it is open. -/
def Afresh (path : List Nat) (r : Nat) : Prop := r ∉ path

/-- There is a way from the expression at a position back to `origin`, which passes the places and
enters no rule that is open. -/
def WayAt (rules : Array Rule) (origin : Nat) (path : List Nat) (opcodes : Array Opcode) (i : Nat)
    (places : List Place) : Prop :=
  ∃ t inner outer, places = outer ++ inner ∧ RefersAt path opcodes t i outer ∧
    Way rules Afresh origin path t inner

/-- At a side of a place stands an element that can be non-empty, where `w` are the rules that
can. -/
def Place.HasPhrase (w : Nat → Prop) (side : Side) (place : Place) : Prop :=
  ∃ b ∈ side.outside place.before place.after, Holds .notEmpty place.opcodes w b

/-- The element at a place has a way back along an edge, where `v` are the rules that can be
empty. -/
def Place.LeadsBack (rules : Array Rule) (v : Nat → Prop) (origin : Nat) (side : Side)
    (place : Place) : Prop :=
  ∃ t, EdgeAt side place.opcodes v t place.element ∧
    Back (EdgeRef side rules v) origin place.path t

/-- The places of a way are enclosed by phrases: one place has phrases at both sides, or an outer
place has one at one side and an inner place at the other side, and at that side the element at the
outer place does not lead back by itself. -/
def Encloses (rules : Array Rule) (v w : Nat → Prop) (origin : Nat) (places : List Place) : Prop :=
  (∃ place ∈ places, ∀ side, place.HasPhrase w side) ∨
    ∃ side outer inner, [outer, inner].Sublist places ∧ outer.HasPhrase w side ∧
      inner.HasPhrase w side.other ∧ ¬ outer.LeadsBack rules v origin side.other

variable {rules : Array Rule} {enters : List Nat → Nat → Prop} {origin : Nat} {v w : Nat → Prop}
  {path : List Nat} {opcodes : Array Opcode} {i r t : Nat} {places : List Place} {side : Side}

theorem not_encloses_nil : ¬ Encloses rules v w origin [] := by
  simp [Encloses]

/-- A place more encloses the others, or has a phrase at one side of them. -/
theorem encloses_cons {place : Place} : Encloses rules v w origin (place :: places) ↔
    Encloses rules v w origin places ∨ (∀ side, place.HasPhrase w side) ∨
      ∃ side, place.HasPhrase w side ∧ ¬ place.LeadsBack rules v origin side.other ∧
        ∃ inner ∈ places, inner.HasPhrase w side.other := by
  constructor
  · rintro (⟨inner, hmem, hboth⟩ | ⟨side, outer, inner, hsub, houter, hinner, hnot⟩)
    · rcases List.mem_cons.1 hmem with rfl | hmem
      · exact .inr (.inl hboth)
      · exact .inl (.inl ⟨inner, hmem, hboth⟩)
    · rcases List.sublist_cons_iff.1 hsub with hsub | ⟨rest, heq, hrest⟩
      · exact .inl (.inr ⟨side, outer, inner, hsub, houter, hinner, hnot⟩)
      · cases heq
        exact .inr (.inr ⟨side, houter, hnot, inner, List.singleton_sublist.1 hrest, hinner⟩)
  · rintro (hplaces | hboth | ⟨side, houter, hnot, inner, hmem, hinner⟩)
    · rcases hplaces with ⟨inner, hmem, hboth⟩ | ⟨side, outer, inner, hsub, hrest⟩
      · exact .inl ⟨inner, List.mem_cons_of_mem _ hmem, hboth⟩
      · exact .inr ⟨side, outer, inner, hsub.cons _, hrest⟩
    · exact .inl ⟨place, List.mem_cons_self, hboth⟩
    · have hsub := (List.singleton_sublist.2 hmem).cons_cons place
      exact .inr ⟨side, place, inner, hsub, houter, hinner, hnot⟩

theorem encloses_singleton {place : Place} :
    Encloses rules v w origin [place] ↔ ∀ side, place.HasPhrase w side := by
  simp [encloses_cons, not_encloses_nil]

/-- Nothing can stand where nothing is. -/
theorem not_hasPhrase {place : Place} (h : side.outside place.before place.after = []) :
    ¬ place.HasPhrase w side := by
  rintro ⟨b, hb, -⟩
  rw [h] at hb
  cases hb

/-! ## Ways and edges -/

theorem RefersAt.mem (h : RefersAt path opcodes t i places) : .rnm t ∈ opcodes := by
  induction h with
  | ref h => exact Array.mem_of_getElem? h
  | alt _ _ _ ih | cat _ _ ih | rep _ _ ih => exact ih

theorem EdgeAt.exists_refersAt (path : List Nat) (h : EdgeAt side opcodes v t i) :
    ∃ places, RefersAt path opcodes t i places := by
  induction h with
  | ref hop => exact ⟨[], .ref hop⟩
  | alt hop hc _ ih =>
    obtain ⟨places, hplaces⟩ := ih
    exact ⟨places, .alt hop hc hplaces⟩
  | cat hop _ _ ih =>
    obtain ⟨places, hplaces⟩ := ih
    exact ⟨_, .cat hop hplaces⟩
  | rep hop _ ih =>
    obtain ⟨places, hplaces⟩ := ih
    exact ⟨places, .rep hop hplaces⟩

/-- A way back that enters no open rule is a way back along references. -/
theorem Way.back_refersTo (h : Way rules Afresh origin path r places) :
    Back (RefersTo rules) origin path r := by
  induction h with
  | arrived hmem => exact .arrived hmem
  | step hnot hrule hrefers _ ih => exact .step hnot ⟨_, hrule, hrefers.mem⟩ ih

/-- A way ends at an open rule. -/
theorem Way.eq_of_mem (h : Way rules Afresh origin path r places) (hmem : r ∈ path) :
    r = origin ∧ places = [] := by
  cases h with
  | arrived => exact ⟨rfl, rfl⟩
  | step hnot => exact absurd hmem hnot

theorem Back.exists_way (h : Back (EdgeRef side rules v) origin path r) :
    ∃ places, Way rules Afresh origin path r places := by
  induction h with
  | arrived hmem => exact ⟨[], .arrived hmem⟩
  | @step path r t hnot hlead _ ih =>
    obtain ⟨rule, hrule, hedge⟩ := hlead
    obtain ⟨outer, houter⟩ := hedge.exists_refersAt (r :: path)
    obtain ⟨inner, hinner⟩ := ih
    exact ⟨_, .step hnot hrule houter hinner⟩

/-! ### Ways without phrases at a side -/

/-- Every rule can be empty or non-empty, so every expression of the table can. -/
theorem holds_empty_or_notEmpty (h : Opcodes.Ordered opcodes)
    (hrefs : ∀ t, .rnm t ∈ opcodes → v t ∨ w t) (hi : i < opcodes.size) :
    Holds .empty opcodes v i ∨ Holds .notEmpty opcodes w i := by
  -- Children stand behind their parents, so there is less left of the opcodes on each step down.
  induction hleft : opcodes.size - i using Nat.strongRecOn generalizing i with
  | _ left ih =>
    have hget : opcodes[i]? = some opcodes[i] := Array.getElem?_eq_getElem hi
    have hlater : ∀ j, i < j → j < opcodes.size →
        Holds .empty opcodes v j ∨ Holds .notEmpty opcodes w j :=
      fun j hij hj => ih (opcodes.size - j) (by omega) hj rfl
    have hchild : ∀ c ∈ opcodes[i].children,
        Holds .empty opcodes v c ∨ Holds .notEmpty opcodes w c :=
      fun c hc => hlater c (h.forward hget hc).1 (h.forward hget hc).2
    cases hop : opcodes[i] with
    | rnm t =>
      rw [hop] at hget
      exact (hrefs t (Array.mem_of_getElem? hget)).imp (.ref hget) (.ref hget)
    | alt cs =>
      rw [hop] at hget hchild
      obtain ⟨c, hc⟩ := List.exists_mem_of_ne_nil _ (h.branches hget rfl)
      exact (hchild c hc).imp (.alt hget hc) (.alt hget hc)
    | cat cs =>
      rw [hop] at hget hchild
      by_cases hsome : ∃ c ∈ cs, Holds .notEmpty opcodes w c
      · obtain ⟨c, hc, hholds⟩ := hsome
        exact .inr (.catSome hget rfl hc hholds)
      · refine .inl (.catAll hget (by simp) fun c hc => (hchild c hc).resolve_right ?_)
        exact fun hholds => hsome ⟨c, hc, hholds⟩
    | rep min max =>
      rw [hop] at hget
      exact (hlater (i + 1) (Nat.lt_succ_self i) (h.governed hget rfl)).imp (.rep hget) (.rep hget)
    | tls chars =>
      rw [hop] at hget
      cases hchars : chars.isEmpty with
      | true => exact .inl (.leaf hget hchars)
      | false =>
        refine .inr (.leaf hget ?_)
        simp [Attributes.ofLeaf, Attributes.ofPhrases, Attributes.has, hchars]
    | udt | bkr | tbs | trg =>
      rw [hop] at hget
      exact .inr (.leaf hget rfl)
    | and | not | bka | bkn | abg | aen =>
      rw [hop] at hget
      exact .inl (.leaf hget rfl)

/-- Each expression of a table is said to be able to be empty or non-empty. -/
def Settled (rules : Array Rule) (v w : Nat → Prop) : Prop :=
  ∀ rule ∈ rules, ∀ i < rule.opcodes.size,
    Holds .empty rule.opcodes v i ∨ Holds .notEmpty rule.opcodes w i

/-- What is supported by the equations of a greatest solution is in it. -/
theorem subset_of_supported {v z : Set Nat} (hv : IsGreatest (Solutions .empty rules) v)
    (hz : ∀ r ∈ z, Equation .empty rules (· ∈ z) r) : z ⊆ v := by
  let step : Set Nat →o Set Nat :=
    ⟨fun u => {r | Equation .empty rules (· ∈ u) r}, fun _ _ hle _ h => h.mono fun t _ ht => hle ht⟩
  have hfixed : step.gfp ∈ Solutions .empty rules := by
    refine ⟨fun r hr => ?_, fun r _ => ?_⟩
    · rw [← step.map_gfp] at hr
      obtain ⟨_, hrule, -⟩ := hr
      exact (Array.getElem?_eq_some_iff.1 hrule).1
    · exact iff_of_eq (congrArg (r ∈ ·) step.map_gfp.symm)
  exact Set.Subset.trans (step.le_gfp hz) (hv.2 hfixed)

/-- What analysis says of phrases leaves no expression without any. -/
theorem settled_of_solutions {v w : Set Nat} (h : Ordered rules)
    (hv : IsGreatest (Solutions .empty rules) v) (hw : w ∈ Solutions .notEmpty rules) :
    Settled rules (· ∈ v) (· ∈ w) := by
  -- The rules that are not said to be non-empty support each other in being empty.
  have hsub : {r | r < rules.size ∧ r ∉ w} ∪ v ⊆ v := by
    refine subset_of_supported hv ?_
    rintro r (⟨hr, hnot⟩ | hr)
    · have hget := Array.getElem?_eq_getElem hr
      have hordered := h.opcodes _ (Array.getElem_mem hr)
      refine ⟨_, hget, (holds_empty_or_notEmpty (w := (· ∈ w)) hordered (fun t ht => ?_)
        hordered.nonempty).resolve_right fun hholds => ?_⟩
      · have hlt := h.inRange _ (Array.getElem_mem hr) t ht
        by_cases hmem : t ∈ w
        · exact .inr hmem
        · exact .inl (.inl ⟨hlt, hmem⟩)
      · exact hnot ((hw.2 r hr).2 ⟨_, hget, hholds⟩)
    · exact ((hv.1.2 r (hv.1.1 r hr)).1 hr).mono fun t _ ht => .inr ht
  refine fun rule hrule i hi => holds_empty_or_notEmpty (h.opcodes rule hrule) (fun t ht => ?_) hi
  by_cases hmem : t ∈ w
  · exact .inr hmem
  · exact .inl (hsub (.inl ⟨h.inRange rule hrule t ht, hmem⟩))

/-- A reference without phrases at one side of its places stands at that edge. -/
theorem RefersAt.edgeAt (h : RefersAt path opcodes t i places) (hordered : Opcodes.Ordered opcodes)
    (hsettled : ∀ i < opcodes.size, Holds .empty opcodes v i ∨ Holds .notEmpty opcodes w i)
    (hnone : ∀ place ∈ places, ¬ place.HasPhrase w side) : EdgeAt side opcodes v t i := by
  induction h with
  | ref hop => exact .ref hop
  | alt hop hc _ ih => exact .alt hop hc (ih hnone)
  | @cat i c before after places hop _ ih =>
    obtain ⟨hplace, hnone⟩ := List.forall_mem_cons.1 hnone
    refine .cat hop (fun b hb => ?_) (ih hnone)
    have hlt := (hordered.forward hop (Side.mem_of_mem_outside hb)).2
    exact (hsettled b hlt).resolve_right fun hholds => hplace ⟨b, hb, hholds⟩
  | rep hop _ ih => exact .rep hop (ih hnone)

/-- A way without phrases at one side of its places leads back along that edge. -/
theorem Way.back (h : Way rules Afresh origin path r places) (hordered : Ordered rules)
    (hsettled : Settled rules v w) (hnone : ∀ place ∈ places, ¬ place.HasPhrase w side) :
    Back (EdgeRef side rules v) origin path r := by
  induction h with
  | arrived hmem => exact .arrived hmem
  | step hnot hrule hrefers _ ih =>
    obtain ⟨houter, hinner⟩ := List.forall_mem_append.1 hnone
    have hmem := Array.mem_of_getElem? hrule
    have hedge := hrefers.edgeAt (hordered.opcodes _ hmem) (hsettled _ hmem) houter
    exact .step hnot ⟨_, hrule, hedge⟩ (ih hinner)

/-! ### Ways with phrases -/

/-- What refers to a rule that can be non-empty, or has a phrase around a reference, can be
non-empty. -/
theorem RefersAt.notEmpty (side : Side) (h : RefersAt path opcodes t i places)
    (hphrase : w t ∨ ∃ place ∈ places, place.HasPhrase w side) : Holds .notEmpty opcodes w i := by
  induction h with
  | ref hop => exact .ref hop (by simpa using hphrase)
  | alt hop hc _ ih => exact .alt hop hc (ih hphrase)
  | @cat i c before after places hop _ ih =>
    by_cases hplace : Place.HasPhrase w side ⟨path, opcodes, before, c, after⟩
    · obtain ⟨b, hb, hholds⟩ := hplace
      exact .catSome hop rfl (Side.mem_of_mem_outside hb) hholds
    · refine .catSome hop rfl (by simp) (ih ?_)
      simpa [hplace] using hphrase
  | rep hop _ ih => exact .rep hop (ih hphrase)

theorem Way.notEmpty (h : Way rules enters origin path r places)
    (hclosed : ∀ r, Equation .notEmpty rules w r → w r)
    (hphrase : ∃ place ∈ places, place.HasPhrase w side) : w r := by
  induction h with
  | arrived => simp at hphrase
  | @step path r t rule outer inner _ hrule hrefers _ ih =>
    refine hclosed r ⟨rule, hrule, hrefers.notEmpty side ?_⟩
    obtain ⟨place, hmem, hhas⟩ := hphrase
    rcases List.mem_append.1 hmem with hmem | hmem
    · exact .inr ⟨place, hmem, hhas⟩
    · exact .inl (ih ⟨place, hmem, hhas⟩)

/-! ### One equation for each kind of opcode -/

theorem not_wayAt_of_isPlain {op : Opcode} (hop : opcodes[i]? = some op)
    (hplain : op.isPlain = true) : ¬ WayAt rules origin path opcodes i places := by
  rintro ⟨t, inner, outer, -, hrefers, -⟩
  cases hrefers with
  | ref hop' | alt hop' | cat hop' | rep hop' =>
    cases hop.symm.trans hop'
    cases hplain

theorem wayAt_ref_iff (hop : opcodes[i]? = some (.rnm t)) :
    WayAt rules origin path opcodes i places ↔ Way rules Afresh origin path t places := by
  constructor
  · rintro ⟨t', inner, outer, rfl, hrefers, hway⟩
    cases hrefers with
    | ref hop' =>
      cases hop.symm.trans hop'
      exact hway
    | alt hop' | cat hop' | rep hop' => cases hop.symm.trans hop'
  · exact fun hway => ⟨t, places, [], rfl, .ref hop, hway⟩

theorem wayAt_alt_iff {cs : List Nat} (hop : opcodes[i]? = some (.alt cs)) :
    WayAt rules origin path opcodes i places ↔
      ∃ c ∈ cs, WayAt rules origin path opcodes c places := by
  constructor
  · rintro ⟨t, inner, outer, rfl, hrefers, hway⟩
    cases hrefers with
    | alt hop' hc hrefers =>
      cases hop.symm.trans hop'
      exact ⟨_, hc, t, inner, outer, rfl, hrefers, hway⟩
    | ref hop' | cat hop' | rep hop' => cases hop.symm.trans hop'
  · rintro ⟨c, hc, t, inner, outer, rfl, hrefers, hway⟩
    exact ⟨t, inner, outer, rfl, .alt hop hc hrefers, hway⟩

theorem wayAt_cat_iff {cs : List Nat} (hop : opcodes[i]? = some (.cat cs)) :
    WayAt rules origin path opcodes i places ↔ ∃ before c after rest, cs = before ++ c :: after ∧
      places = ⟨path, opcodes, before, c, after⟩ :: rest ∧
        WayAt rules origin path opcodes c rest := by
  constructor
  · rintro ⟨t, inner, outer, rfl, hrefers, hway⟩
    cases hrefers with
    | cat hop' hrefers =>
      cases hop.symm.trans hop'
      exact ⟨_, _, _, _, rfl, rfl, t, inner, _, rfl, hrefers, hway⟩
    | ref hop' | alt hop' | rep hop' => cases hop.symm.trans hop'
  · rintro ⟨before, c, after, _, rfl, rfl, t, inner, outer, rfl, hrefers, hway⟩
    exact ⟨t, inner, _, rfl, .cat hop hrefers, hway⟩

theorem wayAt_rep_iff {min : UInt32} {max : Option UInt32}
    (hop : opcodes[i]? = some (.rep min max)) :
    WayAt rules origin path opcodes i places ↔ WayAt rules origin path opcodes (i + 1) places := by
  constructor
  · rintro ⟨t, inner, outer, rfl, hrefers, hway⟩
    cases hrefers with
    | rep hop' hrefers => exact ⟨t, inner, outer, rfl, hrefers, hway⟩
    | ref hop' | alt hop' | cat hop' => cases hop.symm.trans hop'
  · rintro ⟨t, inner, outer, rfl, hrefers, hway⟩
    exact ⟨t, inner, outer, rfl, .rep hop hrefers, hway⟩

/-- The ways back from a rule are those through its expression. -/
theorem way_iff {rule : Rule} (hrule : rules[r]? = some rule) (hnot : r ∉ path) :
    Way rules Afresh origin path r places ↔
      WayAt rules origin (r :: path) rule.opcodes 0 places := by
  constructor
  · intro h
    cases h with
    | arrived hmem => exact absurd hmem hnot
    | step _ hrule' hrefers hway =>
      cases hrule.symm.trans hrule'
      exact ⟨_, _, _, rfl, hrefers, hway⟩
  · rintro ⟨t, inner, outer, rfl, hrefers, hway⟩
    exact .step hnot hrule hrefers hway

/-! ### Ways through expressions -/

/-- A way without phrases at one side of its places leads back along that edge. -/
theorem WayAt.leadsBack (h : WayAt rules origin path opcodes i places) (hordered : Ordered rules)
    (hsettled : Settled rules v w) {rule : Rule} (hmem : rule ∈ rules)
    (hrule : rule.opcodes = opcodes)
    (hnone : ∀ place ∈ places, ¬ place.HasPhrase w side) :
    ∃ t, EdgeAt side opcodes v t i ∧ Back (EdgeRef side rules v) origin path t := by
  obtain ⟨t, inner, outer, rfl, hrefers, hway⟩ := h
  obtain ⟨houter, hinner⟩ := List.forall_mem_append.1 hnone
  subst hrule
  exact ⟨t, hrefers.edgeAt (hordered.opcodes rule hmem) (hsettled rule hmem) houter,
    hway.back hordered hsettled hinner⟩

/-- An expression with a way that has a phrase at a side of some place can be non-empty. -/
theorem WayAt.notEmpty (h : WayAt rules origin path opcodes i places)
    (hclosed : ∀ r, Equation .notEmpty rules w r → w r)
    (hphrase : ∃ place ∈ places, place.HasPhrase w side) : Holds .notEmpty opcodes w i := by
  obtain ⟨t, inner, outer, rfl, hrefers, hway⟩ := h
  obtain ⟨place, hmem, hhas⟩ := hphrase
  refine hrefers.notEmpty side ?_
  rcases List.mem_append.1 hmem with hmem | hmem
  · exact .inr ⟨place, hmem, hhas⟩
  · exact .inl (hway.notEmpty hclosed ⟨place, hmem, hhas⟩)

/-- What leads back along an edge has a way back. -/
theorem exists_wayAt
    (h : ∃ t, EdgeAt side opcodes v t i ∧ Back (EdgeRef side rules v) origin path t) :
    ∃ places, WayAt rules origin path opcodes i places := by
  obtain ⟨t, hedge, hback⟩ := h
  obtain ⟨outer, houter⟩ := hedge.exists_refersAt path
  obtain ⟨inner, hinner⟩ := hback.exists_way
  exact ⟨_, t, inner, outer, rfl, houter, hinner⟩

end Recursion

end Abnf
