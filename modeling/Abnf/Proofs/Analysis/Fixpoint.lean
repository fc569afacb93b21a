import Abnf.Proofs.Analysis.Equations
import Abnf.Proofs.Analysis.Groups
import Abnf.Proofs.Analysis.Views

/-!
# The phrases pass solves the equations

The pass starts with nothing said of the rules and says more of them the further it walks. What it
says is always in the least solution of the equations. It misses nothing in the end: a rule gets
into the least solution at some stage, on the ground of rules at earlier stages, and a walk into
the rule meets such rules open on its path only if they lead back to it, which is why the walks
that start in a group count for their start alone. All of this is so however much the walks see of
what they remember.

* `Stage`, `InLeast`: the least solution of monotone equations, stage by stage.
* `Phrases.propagate_exact`: the pass finds the least solution.
-/

namespace Abnf.Phrases

open Walk Analysis

/-! ## Stages -/

/-- What has got into the least solution of the equations `F` after some rounds. -/
def Stage (size : Nat) (F : (Nat → Prop) → Nat → Prop) : Nat → Nat → Prop
  | 0, _ => False
  | n + 1, r => r < size ∧ F (Stage size F n) r

/-- The least solution of the equations `F`. -/
def InLeast (size : Nat) (F : (Nat → Prop) → Nat → Prop) (r : Nat) : Prop :=
  ∃ n, Stage size F n r

section

variable {size : Nat} {F : (Nat → Prop) → Nat → Prop}

theorem Stage.lt {n r : Nat} (h : Stage size F n r) : r < size := by
  cases n with
  | zero => cases h
  | succ n => exact h.1

theorem InLeast.lt {r : Nat} (h : InLeast size F r) : r < size :=
  h.elim fun _ hn => hn.lt

variable (hmono : Monotone F)
include hmono

theorem Stage.succ {n r : Nat} (h : Stage size F n r) : Stage size F (n + 1) r := by
  induction n generalizing r with
  | zero => cases h
  | succ n ih => exact ⟨h.1, hmono (fun t => ih) r h.2⟩

theorem Stage.mono {m n r : Nat} (hle : m ≤ n) (h : Stage size F m r) : Stage size F n r := by
  induction hle with
  | refl => exact h
  | step _ ih => exact ih.succ hmono

open Classical in
/-- Some round adds nothing. -/
theorem exists_stage_succ_subset (size : Nat) :
    ∃ n, ∀ r, Stage size F (n + 1) r → Stage size F n r := by
  by_contra hgrow
  push Not at hgrow
  let reached n := (Finset.range size).filter (Stage size F n)
  have hcard : ∀ n, n ≤ (reached n).card := by
    intro n
    induction n with
    | zero => exact Nat.zero_le _
    | succ n ih =>
      obtain ⟨r, hr, hnot⟩ := hgrow n
      refine Nat.lt_of_le_of_lt ih (Finset.card_lt_card ⟨?_, fun hsub => ?_⟩)
      · exact fun t ht => Finset.mem_filter.2
          ⟨(Finset.mem_filter.1 ht).1, (Finset.mem_filter.1 ht).2.succ hmono⟩
      · have hmem := hsub (Finset.mem_filter.2 ⟨Finset.mem_range.2 hr.1, hr⟩)
        exact hnot (Finset.mem_filter.1 hmem).2
  have hle : (reached (size + 1)).card ≤ size := by
    simpa using Finset.card_filter_le (Finset.range size) (Stage size F (size + 1))
  exact absurd (hcard (size + 1)) (by omega)

/-- The least solution is a solution. -/
theorem inLeast_iff {r : Nat} (hr : r < size) : InLeast size F r ↔ F (InLeast size F) r := by
  constructor
  · rintro ⟨n, hn⟩
    cases n with
    | zero => cases hn
    | succ n => exact hmono (fun t ht => ⟨n, ht⟩) r hn.2
  · intro h
    obtain ⟨last, hlast⟩ := exists_stage_succ_subset hmono size
    have hall : ∀ n t, Stage size F n t → Stage size F last t := by
      intro n
      induction n with
      | zero => exact fun t ht => ht.elim
      | succ n ih => exact fun t ht => hlast t ⟨ht.1, hmono ih t ht.2⟩
    exact ⟨last + 1, hr, hmono (fun t ⟨n, ht⟩ => hall n t ht) r h⟩

/-- The least solution is below every other one. -/
theorem InLeast.le {w : Nat → Prop} (hw : ∀ r < size, F w r → w r) {r : Nat}
    (h : InLeast size F r) : w r := by
  obtain ⟨n, hn⟩ := h
  induction n generalizing r with
  | zero => cases hn
  | succ n ih => exact hw r hn.1 (hmono (fun t => ih) r hn.2)

end

/-! ## Walks -/

/-- Attributes of the rules of a table say `bit` just by the equations `F`. -/
structure Evaluates (rules : Array Rule) (shapes : Nat → Expr Opcode) (bit : Attributes → Bool)
    (F : (Nat → Prop) → Nat → Prop) : Prop where
  outlined : Outlined rules shapes
  mono : Monotone F
  sound : ∀ {P : Nat → Attributes → Prop} {v : Nat → Prop} {r : Nat} {a : Attributes},
    r < rules.size → HasAttributes P (shapes r) a → (∀ t b, P t b → bit b = true → v t) →
      bit a = true → F v r
  complete : ∀ {P : Nat → Attributes → Prop} {v : Nat → Prop} {r : Nat} {a : Attributes},
    r < rules.size → HasAttributes P (shapes r) a → (∀ t b, P t b → v t → bit b = true) →
      F v r → bit a = true
  phrasePart : ∀ a : Attributes, bit a.phrasePart = bit a
  withPhrases : ∀ a b : Attributes, bit (a.withPhrases b) = bit b

/-- What a walk finds of a rule: nothing that is not in the least solution, and all that got there
before the rules on the path that the rule leads back to. -/
def Finds (rules : Array Rule) (bit : Attributes → Bool) (F : (Nat → Prop) → Nat → Prop)
    (path : List Nat) (rule : Nat) (a : Attributes) : Prop :=
  (bit a = true → InLeast rules.size F rule) ∧
    ∀ n, Stage rules.size F n rule →
      (∀ p ∈ path, Relation.ReflTransGen (RefersTo rules) rule p → ¬ Stage rules.size F n p) →
      bit a = true

/-- What is recorded while the pass runs, beside what was known of recursion at first: nothing that
is not in the least solution, and all of it for the rules that are complete, among which are the
rules in `done`. -/
structure Records (initial : Array Attributes) (rules : Array Rule) (bit : Attributes → Bool)
    (F : (Nat → Prop) → Nat → Prop) (done : Nat → Prop) (state : State) : Prop where
  size : state.attributes.size = rules.size
  kept : ∀ r : Nat, state.attributes[r]?.map (·.withPhrases {}) =
    initial[r]?.map (·.withPhrases {})
  completeSize : state.complete.size = rules.size
  sound : ∀ (r : Nat) a, state.attributes[r]? = some a → bit a = true → InLeast rules.size F r
  exact : ∀ (r : Nat) a, state.complete[r]? = some true → state.attributes[r]? = some a →
    InLeast rules.size F r → bit a = true
  done : ∀ r, done r → state.complete[r]? = some true

/-- What is remembered of walks is what they find. -/
def Remembers (rules : Array Rule) (bit : Attributes → Bool) (F : (Nat → Prop) → Nat → Prop)
    (state : State) : Prop :=
  ∀ memo, state.memo = some memo → ∀ (rule : Nat) path a, memo[rule :: path]? = some a →
    Finds rules bit F path rule a

section

variable {rules : Array Rule} {shapes : Nat → Expr Opcode} {bit : Attributes → Bool}
  {F : (Nat → Prop) → Nat → Prop} {done : Nat → Prop} {path : List Nat} {rule : Nat}
  {a : Attributes} {initial : Array Attributes} {state : State} {view : State → State}

/-- Any rules that are complete may count as done. -/
theorem Records.of_complete {done' : Nat → Prop} (h : Records initial rules bit F done state)
    (hdone : ∀ r, done' r → state.complete[r]? = some true) :
    Records initial rules bit F done' state :=
  ⟨h.size, h.kept, h.completeSize, h.sound, h.exact, hdone⟩

/-- What is remembered is not recorded. -/
theorem Records.setMemo (h : Records initial rules bit F done state) (memo : Option Memo) :
    Records initial rules bit F done { state with memo := memo } :=
  ⟨h.size, h.kept, h.completeSize, h.sound, h.exact, h.done⟩

/-- A walk that leads from no rule on its path back to the path finds all there is. -/
theorem Finds.eq_true (h : Finds rules bit F path rule a)
    (hpath : ∀ p ∈ path, ¬ Relation.ReflTransGen (RefersTo rules) rule p)
    (hleast : InLeast rules.size F rule) : bit a = true := by
  obtain ⟨n, hn⟩ := hleast
  exact h.2 n hn fun p hp hreach => absurd hreach (hpath p hp)

/-- What a walk finds of the rules in an expression gives what it finds of the rule. -/
theorem Evaluates.finds (heval : Evaluates rules shapes bit F) (hrule : rule < rules.size)
    (h : HasAttributes (Finds rules bit F (rule :: path)) (shapes rule) a) :
    Finds rules bit F path rule a := by
  constructor
  · intro ha
    exact (inLeast_iff heval.mono hrule).2
      (heval.sound hrule h (fun t b hb => hb.1) ha)
  · intro n hn hpath
    -- The rule may have got in earlier than `n`: look at the round that brought it in.
    induction n with
    | zero => cases hn
    | succ n ih =>
      by_cases hearlier : Stage rules.size F n rule
      · exact ih hearlier fun p hp hreach hstage => hpath p hp hreach (hstage.succ heval.mono)
      · refine heval.complete hrule (h.mono fun t b ht hb => And.intro ht hb) ?_ hn.2
        rintro t b ⟨ht, hb⟩ hstage
        refine hb.2 n hstage (List.forall_mem_cons.2 ⟨fun _ => hearlier, ?_⟩)
        intro p hp hreach hstage'
        exact hpath p hp (.head (heval.outlined.refers rule hrule t ht) hreach)
          (hstage'.succ heval.mono)

/-- What the pass knows of a rule without entering it is what a walk would find. -/
theorem Records.known (hview : Restricts view) (heval : Evaluates rules shapes bit F)
    (h : Records initial rules bit F done state)
    (hmemo : Remembers rules bit F state) (path : List Nat) (hrule : rule < rules.size) :
    ∃ known, (plan.through view).known? path rule state = .ok known ∧
      (rule ∈ path → known.isSome = true) ∧
      (known = none → rule ∉ path ∧ state.complete[rule]? ≠ some true) ∧
      ∀ a, known = some a → Finds rules bit F path rule a := by
  obtain ⟨recorded, hrecorded⟩ : ∃ recorded, state.attributes[rule]? = some recorded :=
    ⟨_, Array.getElem?_eq_getElem (by rw [h.size]; exact hrule)⟩
  simp only [Plan.through, plan, hview.attributes, hview.complete, fetch_eq_ok.2 hrecorded, bind,
    Except.bind]
  split
  · rename_i hopen
    refine ⟨_, rfl, by simp, by simp, ?_⟩
    rintro a h'
    cases h'
    rw [Finds, heval.phrasePart]
    refine ⟨h.sound rule recorded hrecorded, fun n hn hpath => ?_⟩
    rw [Bool.or_eq_true, List.contains_iff_mem] at hopen
    rcases hopen with hopen | hcomplete
    · exact absurd hn (hpath rule hopen .refl)
    · refine h.exact rule recorded ?_ hrecorded ⟨n, hn⟩
      cases hget : state.complete[rule]? <;> simp_all
  · rename_i hclosed
    simp only [Bool.or_eq_true, List.contains_iff_mem, not_or] at hclosed
    refine ⟨_, rfl, fun hmem => absurd hmem hclosed.1, fun _ => ⟨hclosed.1, ?_⟩, fun a ha => ?_⟩
    · intro hcomplete
      simp [hcomplete] at hclosed
    · obtain ⟨seen, hseen, ha⟩ := Option.bind_eq_some_iff.1 ha
      obtain ⟨memory, hmemory, hpart⟩ := hview.memo state seen hseen
      exact hmemo memory hmemory rule path a (hpart _ a ha)

/-- A rule that is known before any walk is complete. -/
theorem complete_of_known (hview : Restricts view)
    (h : (plan.through view).known? [] rule state = .ok (some a))
    (hmemo : ∀ memo, state.memo = some memo → memo[[rule]]? = none) :
    state.complete[rule]? = some true := by
  simp only [Plan.through, plan, hview.complete, bind, Except.bind] at h
  split at h
  · cases h
  split at h
  · rename_i hcomplete
    cases hget : state.complete[rule]? <;> simp_all
  · obtain ⟨seen, hseen, ha⟩ := Option.bind_eq_some_iff.1 (Except.ok.inj h)
    obtain ⟨memory, hmemory, hpart⟩ := hview.memo state seen hseen
    simpa [hmemo memory hmemory] using hpart _ a ha

/-- Recording what was found of a rule. -/
theorem Records.record (heval : Evaluates rules shapes bit F)
    (h : Records initial rules bit F done state)
    (hfinds : Finds rules bit F path rule a) {complete : Array Bool} {memo : Option Memo}
    (hsize : complete.size = state.complete.size)
    (hother : ∀ r, r ≠ rule → complete[r]? = state.complete[r]?)
    (hkept : state.complete[rule]? = some true → complete[rule]? = some true)
    (hexact : complete[rule]? = some true → InLeast rules.size F rule → bit a = true) :
    Records initial rules bit F done
      ⟨state.attributes.modify rule fun recorded => recorded.withPhrases a, complete, memo⟩ := by
  have hbit : ∀ (r : Nat) b,
      (state.attributes.modify rule fun recorded => recorded.withPhrases a)[r]? = some b →
        (r = rule ∧ bit b = bit a) ∨ (r ≠ rule ∧ state.attributes[r]? = some b) := by
    intro r b hb
    obtain ⟨recorded, hrecorded, ⟨rfl, rfl⟩ | ⟨hne, rfl⟩⟩ := getElem?_modify_eq_some hb
    · exact Or.inl ⟨rfl, heval.withPhrases _ _⟩
    · exact Or.inr ⟨hne, hrecorded⟩
  exact {
    size := by simpa using h.size
    kept := fun r => (map_getElem?_modify (fun _ => by rfl) rule r).trans (h.kept r)
    completeSize := hsize.trans h.completeSize
    sound := fun r b hb hbit' => by
      rcases hbit r b hb with ⟨rfl, heq⟩ | ⟨-, hb⟩
      · exact hfinds.1 (heq ▸ hbit')
      · exact h.sound r b hb hbit'
    exact := fun r b hcomplete hb hleast => by
      rcases hbit r b hb with ⟨rfl, heq⟩ | ⟨hne, hb⟩
      · rw [heq]
        exact hexact hcomplete hleast
      · exact h.exact r b (hother r hne ▸ hcomplete) hb hleast
    done := fun r hr => by
      by_cases heq : r = rule
      · exact heq ▸ hkept (heq ▸ h.done r hr)
      · exact hother r heq ▸ h.done r hr }

/-! ### Walks outside groups -/

/-- Rules of which no walk leads back to its path: none is in a circle with another one, and they
refer to each other and to rules in `done` only. -/
structure Acyclic (rules : Array Rule) (done free : Nat → Prop) : Prop where
  apart : ∀ r t, free r → Relation.TransGen (RefersTo rules) r t →
    Relation.TransGen (RefersTo rules) t r → t = r
  closed : ∀ r t, free r → RefersTo rules r t → free t ∨ done t

theorem guides_final (hview : Restricts view) (heval : Evaluates rules shapes bit F)
    {free : Nat → Prop} (hfree : Acyclic rules done free) :
    Guides (plan.through view) rules.size shapes
      (fun path rule => (∀ p ∈ path, Relation.TransGen (RefersTo rules) p rule) ∧
        (free rule ∨ done rule))
      (fun path rule => (∀ p ∈ path, Relation.TransGen (RefersTo rules) p rule) ∧ free rule ∧
        rule ∉ path ∧ rule < rules.size)
      (fun state => Records initial rules bit F done state ∧ state.memo = none)
      (Finds rules bit F) := by
  refine ⟨?_, ?_, ?_, ?_⟩
  · rintro path rule state hrule ⟨halong, hside⟩ ⟨hrecords, hmemo⟩
    obtain ⟨known, hknown, hopen, hnone, hfinds⟩ :=
      hrecords.known hview heval (by simp [Remembers, hmemo]) path hrule
    refine ⟨known, hknown, hopen, fun heq => ?_, hfinds⟩
    obtain ⟨hnot, hincomplete⟩ := hnone heq
    exact ⟨halong, hside.resolve_right fun hdone => hincomplete (hrecords.done rule hdone), hnot,
      hrule⟩
  · rintro path rule target ⟨halong, hside, -, hrule⟩ htarget
    have hstep := heval.outlined.refers rule hrule target htarget
    refine ⟨List.forall_mem_cons.2 ⟨.single hstep, fun p hp => (halong p hp).tail hstep⟩, ?_⟩
    exact hfree.closed rule target hside hstep
  · intro path rule a hrule _ _ h
    exact heval.finds hrule h
  · rintro path rule a state hrule ⟨halong, hside, hnot, -⟩ ⟨hrecords, hmemo⟩ hfinds
    have hexact : InLeast rules.size F rule → bit a = true := by
      refine hfinds.eq_true fun p hp hreach => ?_
      rcases Relation.reflTransGen_iff_eq_or_transGen.1 hreach with heq | hreach
      · exact hnot (heq ▸ hp)
      · exact hnot (hfree.apart rule p hside hreach (halong p hp) ▸ hp)
    simp only [Plan.through, plan, hmemo, Option.isNone_none, if_true, Option.map_none, and_true]
    refine hrecords.record heval hfinds (by simp) ?_ ?_ fun _ => hexact
    · exact fun r hr => Array.getElem?_setIfInBounds_ne (Ne.symm hr)
    · exact fun _ => Array.getElem?_setIfInBounds_self_of_lt (hrecords.completeSize ▸ hrule)

/-- A walk outside groups makes its start final. -/
theorem walkRule_exact (hview : Restricts view) (heval : Evaluates rules shapes bit F)
    {free : Nat → Prop} (hfree : Acyclic rules done free) (hrule : rule < rules.size)
    (hside : free rule) (hrecords : Records initial rules bit F done state)
    (hmemo : state.memo = none) :
    ∃ state', walkRuleThrough view rules state rule = .ok state' ∧ state'.memo = none ∧
      Records initial rules bit F (fun r => r = rule ∨ done r) state' := by
  obtain ⟨a, state', heq, ⟨hrecords', hmemo'⟩, -, hend⟩ :=
    (guides_final hview heval hfree).start heval.outlined.shaped hrule ⟨by simp, Or.inl hside⟩
      state ⟨hrecords, hmemo⟩
  have hcomplete : state'.complete[rule]? = some true := by
    rcases hend with ⟨hknown, rfl⟩ | ⟨inner, rfl, hinner, hmemo⟩
    · exact complete_of_known hview hknown (by simp [hmemo])
    · simp only [Plan.through, plan, hmemo, Option.isNone_none, if_true]
      exact Array.getElem?_setIfInBounds_self_of_lt (hinner.completeSize ▸ hrule)
  refine ⟨state', by rw [walkRuleThrough, heq]; rfl, hmemo', hrecords'.of_complete ?_⟩
  rintro r (rfl | hr)
  · exact hcomplete
  · exact hrecords'.done r hr

/-! ### Walks into groups -/

theorem guides_member (hview : Restricts view) (heval : Evaluates rules shapes bit F)
    (complete : Array Bool) :
    Guides (plan.through view) rules.size shapes (fun _ _ => True)
      (fun path rule => rule ∉ path ∧ complete[rule]? ≠ some true)
      (fun state => Records initial rules bit F done state ∧ state.complete = complete ∧
        state.memo.isSome = true ∧ Remembers rules bit F state)
      (Finds rules bit F) := by
  refine ⟨?_, fun _ _ _ _ _ => trivial, ?_, ?_⟩
  · rintro path rule state hrule - ⟨hrecords, rfl, -, hmemo⟩
    exact hrecords.known hview heval hmemo path hrule
  · intro path rule a hrule _ _ h
    exact heval.finds hrule h
  · rintro path rule a state hrule ⟨-, hincomplete⟩ ⟨hrecords, rfl, hsome, hmemo⟩ hfinds
    obtain ⟨memo, hmemo'⟩ := Option.isSome_iff_exists.1 hsome
    simp only [Plan.through, plan, hmemo', Option.isNone_some, Bool.false_eq_true, if_false,
      Option.map_some, Option.isSome_some, true_and]
    refine ⟨hrecords.record heval hfinds rfl (fun _ _ => rfl) id fun h => absurd h hincomplete, ?_⟩
    intro memo' heq
    cases heq
    exact forall_insert (P := fun r path b => Finds rules bit F path r b) (hmemo memo hmemo') hfinds

/-- A walk from a member of a group makes the member final: nothing is open when it starts. -/
theorem walkMember_exact (hview : Restricts view) (heval : Evaluates rules shapes bit F)
    (hrule : rule < rules.size) (hrecords : Records initial rules bit F done state) :
    ∃ state', walkMemberThrough view rules state rule = .ok state' ∧
      Records initial rules bit F (fun r => r = rule ∨ done r) state' := by
  have hinitial := hrecords.setMemo (some {})
  obtain ⟨a, state', heq, ⟨hrecords', hcomplete, -, -⟩, hfinds, hend⟩ :=
    (guides_member hview heval state.complete).start heval.outlined.shaped hrule trivial
      { state with memo := some {} } ⟨hinitial, rfl, rfl, by
        intro memo hmemo r path a ha
        cases hmemo
        simp at ha⟩
  have hexact : ∀ b, state'.attributes[rule]? = some b → InLeast rules.size F rule →
      bit b = true := by
    intro b hb hleast
    rcases hend with ⟨hknown, rfl⟩ | ⟨inner, rfl, hinner, -⟩
    · refine hinitial.exact rule b (complete_of_known hview hknown ?_) hb hleast
      intro memo hmemo
      cases hmemo
      simp
    · simp only [Plan.through, plan, Array.getElem?_modify, if_true] at hb
      obtain ⟨recorded, -, rfl⟩ := Option.map_eq_some_iff.1 hb
      rw [heval.withPhrases]
      exact hfinds.eq_true (by simp) hleast
  refine ⟨{ state' with complete := state'.complete.setIfInBounds rule true }, ?_, hrecords'.size,
    hrecords'.kept, by simpa using hrecords'.completeSize, hrecords'.sound, ?_, ?_⟩
  · simp only [walkMemberThrough, walkRuleThrough, heq, bind, Except.bind]
    rfl
  · intro r b hr hb hleast
    by_cases hrr : r = rule
    · subst hrr
      exact hexact b hb hleast
    · rw [Array.getElem?_setIfInBounds_ne (Ne.symm hrr)] at hr
      exact hrecords'.exact r b hr hb hleast
  · intro r hr
    by_cases hrr : r = rule
    · subst hrr
      exact Array.getElem?_setIfInBounds_self_of_lt (hrecords'.completeSize ▸ hrule)
    · rw [Array.getElem?_setIfInBounds_ne (Ne.symm hrr)]
      exact hrecords'.done r (hr.resolve_left hrr)

/-! ## The pass -/

theorem Records.of_done {done' : Nat → Prop} (hle : ∀ r, done' r → done r)
    (h : Records initial rules bit F done state) : Records initial rules bit F done' state :=
  h.of_complete fun r hr => h.done r (hle r hr)

/-- The walks outside groups make their starts final. -/
theorem walkRules_exact (hview : Restricts view) (heval : Evaluates rules shapes bit F)
    {free : Nat → Prop} (hfree : Acyclic rules done free) {rs : List Nat}
    (hrs : ∀ r ∈ rs, r < rules.size ∧ free r) (hrecords : Records initial rules bit F done state)
    (hmemo : state.memo = none) :
    ∃ state', rs.foldlM (walkRuleThrough view rules) state = .ok state' ∧
      Records initial rules bit F (fun r => r ∈ rs ∨ done r) state' := by
  have hstep : ∀ r ∈ rs, ∀ done' state, (∀ t, done t → done' t) →
      Records initial rules bit F done' state ∧ state.memo = none →
        ∃ state', walkRuleThrough view rules state r = .ok state' ∧
          Records initial rules bit F (fun t => t = r ∨ done' t) state' ∧ state'.memo = none := by
    rintro r hr done' state hle ⟨hrecords, hmemo⟩
    have hfree' : Acyclic rules done' free :=
      ⟨hfree.apart, fun r t hr hstep => (hfree.closed r t hr hstep).imp_right (hle t)⟩
    obtain ⟨state', heq, hmemo', hrecords'⟩ := walkRule_exact hview heval hfree'
      (hrs r hr).1 (hrs r hr).2 hrecords hmemo
    exact ⟨state', heq, hrecords', hmemo'⟩
  obtain ⟨state', heq, hrecords', -⟩ :=
    foldlM_done (fun done state => Records initial rules bit F done state ∧ state.memo = none)
      (fun hle h => ⟨h.1.of_done hle, h.2⟩) hstep ⟨hrecords, hmemo⟩
  exact ⟨state', heq, hrecords'⟩

/-- The walks from members of groups make the members final. -/
theorem walkMembers_exact (hview : Restricts view) (heval : Evaluates rules shapes bit F)
    {rs : List Nat} (hrs : ∀ r ∈ rs, r < rules.size)
    (hrecords : Records initial rules bit F done state) :
    ∃ state', rs.foldlM (walkMemberThrough view rules) state = .ok state' ∧
      Records initial rules bit F (fun r => r ∈ rs ∨ done r) state' :=
  foldlM_done (Records initial rules bit F) (fun hle h => h.of_done hle)
    (fun r hr _ _ _ h => walkMember_exact hview heval (hrs r hr) h) hrecords

end

theorem mem_rulesOfKind_iff {analysis : Analysis} {kinds : List Kind} {r : Nat} :
    r ∈ rulesOfKind analysis kinds ↔ ∃ c, analysis.classes[r]? = some c ∧ c.kind ∈ kinds := by
  simp only [rulesOfKind, List.mem_filter, List.mem_range, Option.any_eq_true,
    List.contains_iff_mem]
  refine ⟨fun h => h.2, fun h => ⟨?_, h⟩⟩
  obtain ⟨c, hc, -⟩ := h
  exact (Array.getElem?_eq_some_iff.1 hc).1

/-- A rule in a group. -/
def Grouped (analysis : Analysis) (r : Nat) : Prop :=
  ∃ c, analysis.classes[r]? = some c ∧ c.kind = .inGroup

section

variable {rules : Array Rule} {analysis : Analysis} (h : Classifies rules analysis)
include h

theorem not_grouped_of_kind {kinds : List Kind} (hkinds : Kind.inGroup ∉ kinds) {r : Nat}
    (hr : r ∈ rulesOfKind analysis kinds) : r < rules.size ∧ ¬ Grouped analysis r := by
  obtain ⟨c, hc, hkind⟩ := mem_rulesOfKind_iff.1 hr
  refine ⟨h.size ▸ (Array.getElem?_eq_some_iff.1 hc).1, ?_⟩
  rintro ⟨c', hc', hgroup⟩
  cases hc.symm.trans hc'
  exact hkinds (hgroup ▸ hkind)

theorem Grouped.mem_flatten {r : Nat} (hr : Grouped analysis r) :
    r ∈ analysis.groups.toList.flatten := by
  obtain ⟨c, hc, hkind⟩ := hr
  obtain ⟨g, hg⟩ := Option.isSome_iff_exists.1 ((h.inGroup hc).1 hkind)
  obtain ⟨members, hmembers, hr⟩ := (h.group hc g).1 hg
  exact List.mem_flatten.2 ⟨members, Array.mem_toList_iff.2 (Array.mem_of_getElem? hmembers), hr⟩

theorem eq_of_circle {r t : Nat} (hr : ¬ Grouped analysis r)
    (hto : Relation.TransGen (RefersTo rules) r t)
    (hback : Relation.TransGen (RefersTo rules) t r) : t = r := by
  by_contra hne
  have hc := Array.getElem?_eq_getElem (h.size ▸ lt_of_reaches hto)
  exact hr ⟨_, hc, (h.circle hc).2 ⟨t, hne, hto, hback⟩⟩

/-- The rules that reach no group have no way into one. -/
theorem acyclic_apart (done : Nat → Prop) : Acyclic rules done fun r =>
    ¬ Grouped analysis r ∧ ∀ t, Relation.TransGen (RefersTo rules) r t → ¬ Grouped analysis t := by
  refine ⟨fun r t hr => eq_of_circle h hr.1, fun r t hr hstep => Or.inl ⟨?_, fun u hu => ?_⟩⟩
  · exact hr.2 t (.single hstep)
  · exact hr.2 u (.head hstep hu)

/-- Rules outside groups have no way back from outside the groups. -/
theorem acyclic_of_grouped_done {done : Nat → Prop} (hdone : ∀ r, Grouped analysis r → done r) :
    Acyclic rules done fun r => ¬ Grouped analysis r := by
  refine ⟨fun r t hr => eq_of_circle h hr, fun r t _ _ => ?_⟩
  by_cases ht : Grouped analysis t
  · exact Or.inr (hdone t ht)
  · exact Or.inl ht

/-- Every rule is the start of a walk of the pass. -/
theorem mem_walks {r : Nat} (hr : r < rules.size) :
    r ∈ rulesOfKind analysis [.refersToGroup, .recursiveRefersToGroup] ∨
      r ∈ analysis.groups.toList.flatten ∨
        r ∈ rulesOfKind analysis [.nonRecursive, .recursive] := by
  have hr' : r < analysis.classes.size := h.size ▸ hr
  have hc := Array.getElem?_eq_getElem hr'
  have hkinds : ∀ kinds, analysis.classes[r].kind ∈ kinds → r ∈ rulesOfKind analysis kinds :=
    fun kinds hmem => mem_rulesOfKind_iff.2 ⟨_, hc, hmem⟩
  cases hkind : analysis.classes[r].kind with
  | nonRecursive | recursive => exact Or.inr (Or.inr (hkinds _ (by simp [hkind])))
  | inGroup => exact Or.inr (Or.inl (Grouped.mem_flatten h ⟨_, hc, hkind⟩))
  | refersToGroup | recursiveRefersToGroup => exact Or.inl (hkinds _ (by simp [hkind]))

/-- The pass ends, and what it says is the least solution of the equations, whatever was said before
if it was in the least solution, and however much the walks see of what they remember. -/
theorem propagateThrough_of_sound {view : State → State} (hview : Restricts view)
    {shapes : Nat → Expr Opcode} {bit : Attributes → Bool}
    {F : (Nat → Prop) → Nat → Prop} (heval : Evaluates rules shapes bit F)
    {before : Array Attributes} (hsize : before.size = rules.size)
    (hsound : ∀ (r : Nat) a, before[r]? = some a → bit a = true → InLeast rules.size F r) :
    ∃ attributes, propagateThrough view rules { analysis with attributes := before } =
        .ok { analysis with attributes := attributes } ∧
      attributes.size = rules.size ∧
      (∀ r : Nat, attributes[r]?.map (·.withPhrases {}) = before[r]?.map (·.withPhrases {})) ∧
      ∀ (r : Nat) a, attributes[r]? = some a → (bit a = true ↔ InLeast rules.size F r) := by
  have hstart : Records before rules bit F (fun _ => False)
      ⟨before, Array.replicate before.size false, none⟩ := by
    refine ⟨hsize, fun _ => rfl, by simpa using hsize, hsound, fun r a hcomplete => ?_, by simp⟩
    simp [Array.getElem?_replicate] at hcomplete
  have hrs₁ : ∀ r ∈ rulesOfKind analysis [.nonRecursive, .recursive], r < rules.size ∧
      ¬ Grouped analysis r ∧
        ∀ t, Relation.TransGen (RefersTo rules) r t → ¬ Grouped analysis t := by
    intro r hr
    obtain ⟨hlt, hnot⟩ := not_grouped_of_kind h (by simp) hr
    refine ⟨hlt, hnot, ?_⟩
    rintro t hreach ⟨c', hc', hgroup⟩
    obtain ⟨c, hc, hkind⟩ := mem_rulesOfKind_iff.1 hr
    exact h.apart hc hc' hkind hreach hgroup
  have hrs₂ : ∀ r ∈ analysis.groups.toList.flatten, r < rules.size := by
    intro r hr
    obtain ⟨group, hgroup, hr⟩ := List.mem_flatten.1 hr
    exact h.members group (Array.mem_toList_iff.1 hgroup) r hr
  have hrs₃ : ∀ r ∈ rulesOfKind analysis [.refersToGroup, .recursiveRefersToGroup],
      r < rules.size ∧ ¬ Grouped analysis r :=
    fun r hr => not_grouped_of_kind h (by simp) hr
  obtain ⟨state₁, heq₁, hrecords₁⟩ :=
    walkRules_exact hview heval (acyclic_apart h _) hrs₁ hstart rfl
  obtain ⟨state₂, heq₂, hrecords₂⟩ := walkMembers_exact hview heval hrs₂ hrecords₁
  -- The third walks start with the groups done, and without a memory.
  obtain ⟨state₃, heq₃, hrecords₃⟩ := walkRules_exact hview heval
    (acyclic_of_grouped_done h fun r hr => Or.inl (hr.mem_flatten h)) hrs₃
      (hrecords₂.setMemo none) rfl
  refine ⟨state₃.attributes, ?_, hrecords₃.size, hrecords₃.kept, fun r a ha =>
    ⟨hrecords₃.sound r a ha, ?_⟩⟩
  · change (((rulesOfKind analysis [.nonRecursive, .recursive]).foldlM
        (walkRuleThrough view rules) _ >>= fun state =>
      analysis.groups.toList.flatten.foldlM (walkMemberThrough view rules) state >>= fun state =>
      (rulesOfKind analysis [.refersToGroup, .recursiveRefersToGroup]).foldlM
        (walkRuleThrough view rules) { state with memo := none } >>= fun state => _) :
          Except Fault Analysis) = _
    simp only [bind, Except.bind, heq₁, heq₂, heq₃]
    rfl
  · have hr : r < rules.size := hrecords₃.size ▸ (Array.getElem?_eq_some_iff.1 ha).1
    refine hrecords₃.exact r a (hrecords₃.done r ?_) ha
    exact (mem_walks h hr).imp_right fun hmem => hmem.imp_right Or.inl

/-- After classification the pass ends, and what it says is the least solution of the equations. -/
theorem propagate_exact {shapes : Nat → Expr Opcode} {bit : Attributes → Bool}
    {F : (Nat → Prop) → Nat → Prop} (heval : Evaluates rules shapes bit F)
    (hinitial : ∀ kind, bit (initialAttributes kind) = false) :
    ∃ attributes, propagate rules analysis = .ok { analysis with attributes := attributes } ∧
      attributes.size = rules.size ∧
      (∀ r : Nat, attributes[r]?.map (·.withPhrases {}) =
        analysis.attributes[r]?.map (·.withPhrases {})) ∧
      ∀ (r : Nat) a, attributes[r]? = some a → (bit a = true ↔ InLeast rules.size F r) := by
  have hsize : analysis.attributes.size = rules.size := by
    rw [h.attributes, Array.size_map, h.size]
  refine propagateThrough_of_sound h restricts_id heval hsize fun r a ha hbit => ?_
  rw [h.attributes, Array.getElem?_map] at ha
  obtain ⟨c, -, rfl⟩ := Option.map_eq_some_iff.1 ha
  simp [hinitial] at hbit

end

/-! ## Solutions -/

/-- The right-hand side of the equation of a rule. -/
def Equation (aspect : Aspect) (rules : Array Rule) (v : Nat → Prop) (r : Nat) : Prop :=
  ∃ rule, rules[r]? = some rule ∧ Holds aspect rule.opcodes v 0

/-- The solutions of the equations of a table: sets of its rules that have just the rules of which
the equations say so. -/
def Solutions (aspect : Aspect) (rules : Array Rule) : Set (Set Nat) :=
  {v | (∀ r ∈ v, r < rules.size) ∧ ∀ r < rules.size, r ∈ v ↔ Equation aspect rules (· ∈ v) r}

/-- The rules of which an analysis says something. -/
def said (analysis : Analysis) (aspect : Aspect) : Set Nat :=
  {r | ∃ a, analysis.attributes[r]? = some a ∧ a.has aspect = true}

section

variable {aspect : Aspect} {rules : Array Rule} {shapes : Nat → Expr Opcode}

theorem Equation.mono {v w : Nat → Prop} {r : Nat} (hle : ∀ t, RefersTo rules r t → v t → w t)
    (h : Equation aspect rules v r) : Equation aspect rules w r := by
  obtain ⟨rule, hrule, hholds⟩ := h
  exact ⟨rule, hrule, hholds.mono fun t ht => hle t ⟨rule, hrule, ht⟩⟩

theorem evaluates (h : Outlined rules shapes) (aspect : Aspect) :
    Evaluates rules shapes (·.has aspect) (Equation aspect rules) where
  outlined := h
  mono _ _ hle _ h := h.mono fun t _ => hle t
  sound {P v r a} hr hhas hP ha := by
    have hrule := Array.getElem?_eq_getElem hr
    exact ⟨_, hrule, AttributesAt.holds ⟨shapes r, h.shape r _ hrule, hhas⟩ hP ha⟩
  complete {P v r a} hr hhas hP hv := by
    obtain ⟨rule, hrule, hholds⟩ := hv
    exact AttributesAt.has ⟨shapes r, h.shape r rule hrule, hhas⟩ hP hholds
  phrasePart a := Attributes.has_phrasePart a
  withPhrases a b := Attributes.has_withPhrases a b

/-- The right-hand side of the equation for what cannot be empty. -/
def Denial (rules : Array Rule) (v : Nat → Prop) (r : Nat) : Prop :=
  ¬ Equation .empty rules (fun t => ¬ v t) r

theorem monotone_denial (rules : Array Rule) : Monotone (Denial rules) :=
  fun _ _ hle _ h h' => h (h'.mono fun t _ hv hw => hv (hle t hw))

/-- What cannot be empty is found as a least solution. -/
theorem evaluates_denial (h : Outlined rules shapes) :
    Evaluates rules shapes (fun a => !a.empty) (Denial rules) where
  outlined := h
  mono := monotone_denial rules
  sound {P v r a} hr hhas hP ha hv := by
    have hempty := (evaluates h .empty).complete hr hhas
      (fun t b hb ht => by
        by_contra hempty
        exact ht (hP t b hb (by simpa [Attributes.has] using hempty))) hv
    simp_all [Attributes.has]
  complete {P v r a} hr hhas hP hv := by
    by_contra hempty
    refine hv ((evaluates h .empty).sound hr hhas (fun t b hb hempty ht => ?_) ?_)
    · have hnot := hP t b hb ht
      simp_all [Attributes.has]
    · simpa [Attributes.has] using hempty
  phrasePart _ := rfl
  withPhrases _ _ := rfl

/-- Flags that are in the least solution are the least solution. -/
theorem isLeast_said {analysis : Analysis} (hsize : analysis.attributes.size = rules.size)
    (hflags : ∀ (r : Nat) a, analysis.attributes[r]? = some a →
      (a.has aspect = true ↔ InLeast rules.size (Equation aspect rules) r)) :
    IsLeast (Solutions aspect rules) (said analysis aspect) := by
  have hmono : Monotone (Equation aspect rules) := fun _ _ hle _ h => h.mono fun t _ => hle t
  have hsaid : ∀ r, r ∈ said analysis aspect ↔ InLeast rules.size (Equation aspect rules) r := by
    intro r
    constructor
    · rintro ⟨a, ha, hhas⟩
      exact (hflags r a ha).1 hhas
    · intro hleast
      have ha := Array.getElem?_eq_getElem (hsize ▸ hleast.lt : r < analysis.attributes.size)
      exact ⟨_, ha, (hflags r _ ha).2 hleast⟩
  refine ⟨⟨fun r hr => ((hsaid r).1 hr).lt, fun r hr => ?_⟩, fun w hw r hr => ?_⟩
  · rw [hsaid, inLeast_iff hmono hr]
    exact iff_of_eq (congrArg (Equation aspect rules · r)
      (funext fun t => (propext (hsaid t)).symm))
  · exact ((hsaid r).1 hr).le hmono fun t ht h => (hw.2 t ht).2 h

/-- Flags that are missing just where the least solution denies them are the greatest solution. -/
theorem isGreatest_said {analysis : Analysis} (h : Outlined rules shapes)
    (hsize : analysis.attributes.size = rules.size)
    (hflags : ∀ (r : Nat) a, analysis.attributes[r]? = some a →
      ((!a.empty) = true ↔ InLeast rules.size (Denial rules) r)) :
    IsGreatest (Solutions .empty rules) (said analysis .empty) := by
  have hsaid : ∀ r < rules.size,
      (r ∈ said analysis .empty ↔ ¬ InLeast rules.size (Denial rules) r) := by
    intro r hr
    have ha := Array.getElem?_eq_getElem (hsize ▸ hr : r < analysis.attributes.size)
    rw [← hflags r _ ha]
    simp [said, ha, Attributes.has]
  have hlt : ∀ r ∈ said analysis .empty, r < rules.size := by
    rintro r ⟨a, ha, -⟩
    exact hsize ▸ (Array.getElem?_eq_some_iff.1 ha).1
  refine ⟨⟨hlt, fun r hr => ?_⟩, fun w hw r hr => ?_⟩
  · rw [hsaid r hr, inLeast_iff (monotone_denial rules) hr, Denial, not_not]
    constructor <;> intro heq <;> refine heq.mono fun t ht hv => ?_
    · exact (hsaid t (h.inRange r t ht)).2 hv
    · exact (hsaid t (h.inRange r t ht)).1 hv
  · refine (hsaid r (hw.1 r hr)).2 fun hleast => ?_
    refine hleast.le (w := fun t => t ∉ w) (monotone_denial rules) (fun t ht hnot hmem => ?_) hr
    exact hnot (((hw.2 t ht).1 hmem).mono fun u _ hu => not_not.2 hu)

/-- Analysis of the phrases ends. What can be finite and what can be non-empty is the least solution
of its equations, and what can be empty the greatest. -/
theorem propagate_solutions (h : Ordered rules) :
    ∃ classified found, classify rules = .ok classified ∧ Classifies rules classified ∧
      propagate rules classified = .ok found ∧ found.classes = classified.classes ∧
      found.attributes.size = rules.size ∧
      (∀ r : Nat, found.attributes[r]?.map (·.withPhrases {}) =
        classified.attributes[r]?.map (·.withPhrases {})) ∧
      IsLeast (Solutions .finite rules) (said found .finite) ∧
      IsLeast (Solutions .notEmpty rules) (said found .notEmpty) ∧
      IsGreatest (Solutions .empty rules) (said found .empty) := by
  obtain ⟨shapes, hshapes⟩ := exists_outlined h
  obtain ⟨classified, hclassify, hclasses⟩ := classify_exact h.inRange
  obtain ⟨attributes, heq, hsize, hkept, hfinite⟩ :=
    propagate_exact hclasses (evaluates hshapes .finite) fun _ => rfl
  obtain ⟨attributes', heq', -, -, hnotEmpty⟩ :=
    propagate_exact hclasses (evaluates hshapes .notEmpty) fun _ => rfl
  obtain ⟨attributes'', heq'', -, -, hempty⟩ :=
    propagate_exact hclasses (evaluates_denial hshapes) fun _ => rfl
  cases heq.symm.trans heq'
  cases heq.symm.trans heq''
  exact ⟨classified, _, hclassify, hclasses, heq, rfl, hsize, hkept, isLeast_said hsize hfinite,
    isLeast_said hsize hnotEmpty, isGreatest_said hshapes hsize hempty⟩

end

end Abnf.Phrases
