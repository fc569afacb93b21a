import Abnf.Proofs.Engine.Descent
import Abnf.Proofs.Engine.Records

/-!
# What is kept of a match does not influence it

Two runs of a table that differ in what they record and in what they show an observer go through
the same evaluations. Their records differ, and so do the sizes that records are cut back to; but
at every point the run that records less has the records of the other one, less those of the rules
that it does not record.

* `Records.restrict`: the records of some rules only.
* `Mirrors`: what holds between the states of two runs.
* `run_alike`: a run goes as one that keeps more.
* `run_unobserved`: what a run keeps, in terms of a run that keeps more.
-/

namespace Abnf

namespace Records

/-! ## Restricted records -/

/-- How many of the first `n` records are of rules in `keep`. -/
def rank (keep : Nat → Bool) (records : List Record) (n : Nat) : Nat :=
  (records.take n).countP (keep ·.rule)

/-- Those of some records that are of rules in `keep`; what they name as their partners are places
among all the records of such rules in `table`. -/
def renumbered (keep : Nat → Bool) (table records : List Record) : List Record :=
  (records.filter (keep ·.rule)).map fun record =>
    { record with partner := rank keep table record.partner }

/-- The records of the rules in `keep` only, each naming its partner by the new place. -/
def restrict (keep : Nat → Bool) (records : Records) : Records :=
  (renumbered keep records.toList records.toList).toArray

/-- All records name partners among them. -/
def Inside (records : Records) : Prop :=
  ∀ record ∈ records, record.partner < records.size

variable {keep : Nat → Bool}

theorem rank_append {records : List Record} (more : List Record) {n : Nat}
    (hn : n ≤ records.length) : rank keep (records ++ more) n = rank keep records n := by
  rw [rank, List.take_append_of_le_length hn, rank]

/-- Only the rules of the records count. -/
theorem rank_congr {records records' : List Record}
    (h : records.map Record.rule = records'.map Record.rule) (n : Nat) :
    rank keep records n = rank keep records' n := by
  have hmap : ∀ records, rank keep records n = ((records.map Record.rule).take n).countP keep := by
    intro records
    rw [rank, ← List.map_take, List.countP_map]
    rfl
  rw [hmap, hmap, h]

theorem rank_length (records : List Record) :
    rank keep records records.length = (records.filter (keep ·.rule)).length := by
  rw [rank, List.take_length, List.countP_eq_length_filter]

@[simp] theorem length_renumbered (table records : List Record) :
    (renumbered keep table records).length = rank keep records records.length := by
  rw [renumbered, List.length_map, rank_length]

theorem size_restrict (records : Records) :
    (restrict keep records).size = rank keep records.toList records.size := by
  rw [restrict, List.size_toArray, length_renumbered, Array.length_toList]

theorem renumbered_append (table records records' : List Record) :
    renumbered keep table (records ++ records') =
      renumbered keep table records ++ renumbered keep table records' := by
  rw [renumbered, List.filter_append, List.map_append]
  rfl

theorem renumbered_singleton (table : List Record) (record : Record) :
    renumbered keep table [record] =
      if keep record.rule then [{ record with partner := rank keep table record.partner }]
      else [] := by
  rw [renumbered, List.filter_singleton]
  cases keep record.rule <;> rfl

theorem renumbered_congr {table table' records : List Record}
    (h : ∀ record ∈ records, rank keep table record.partner = rank keep table' record.partner) :
    renumbered keep table records = renumbered keep table' records := by
  refine List.map_congr_left fun record hrecord => ?_
  rw [h record (List.mem_of_mem_filter hrecord)]

/-! ### Records that grow -/

/-- Records behind others that name no partners among them change nothing of these. -/
theorem restrict_append {records : Records} (h : Inside records) (more : Records) :
    restrict keep (records ++ more) = restrict keep records ++
      (renumbered keep (records ++ more).toList more.toList).toArray := by
  apply Array.toList_inj.1
  rw [restrict, Array.toList_append, Array.toList_append, renumbered_append]
  simp only [restrict]
  congr 1
  refine renumbered_congr fun record hrecord => rank_append _ ?_
  simpa using (h record (by simpa using hrecord)).le

theorem Inside.openNode {records : Records} (h : Inside records) (rule pos : Nat) :
    Inside (records.openNode rule pos) := by
  intro record hrecord
  rw [Records.openNode, Array.mem_push] at hrecord
  rw [Records.openNode, Array.size_push]
  rcases hrecord with hrecord | rfl
  · exact Nat.lt_succ_of_lt (h record hrecord)
  · exact Nat.lt_succ_self _

/-- The beginning of a node is kept with its rule. -/
theorem restrict_openNode {records : Records} (h : Inside records) (rule pos : Nat) :
    restrict keep (records.openNode rule pos) =
      if keep rule then (restrict keep records).openNode rule pos else restrict keep records := by
  rw [Records.openNode, ← Array.append_singleton, restrict_append h, Array.toList_append,
    renumbered_singleton, rank_append _ (by simp), ← Array.length_toList, rank_length]
  split
  · rw [Records.openNode, size_restrict, ← Array.length_toList, rank_length]
    simp
  · simp

theorem Inside.node {records inner : Records} {rule pos : Nat}
    (h : Inside (records.openNode rule pos ++ inner)) (length : Nat) :
    Inside (records.node inner rule pos length) := by
  have hsize : (records.node inner rule pos length).size = records.size + 1 + inner.size + 1 := by
    simp [Records.node]
    omega
  have hbefore : ∀ record : Record, record ∈ records ∨ record ∈ inner →
      record.partner < records.size + 1 + inner.size := by
    intro record hrecord
    have hlt := h record (by
      rw [Records.openNode, Array.mem_append, Array.mem_push]
      exact hrecord.imp_left Or.inl)
    simpa [Records.openNode] using hlt
  intro record hrecord
  rw [hsize]
  simp only [Records.node, Array.mem_append, List.mem_toArray, List.mem_cons, List.mem_append,
    Array.mem_toList_iff, List.not_mem_nil, or_false] at hrecord
  rcases hrecord with hrecord | rfl | hrecord | rfl
  · exact Nat.lt_succ_of_lt (hbefore record (Or.inl hrecord))
  · exact Nat.lt_succ_self _
  · exact Nat.lt_succ_of_lt (hbefore record (Or.inr hrecord))
  · exact Nat.lt_of_lt_of_le (Nat.lt_succ_self records.size) (by simp; omega)

/-- A complete node is kept with its rule, and what was made inside it is kept either way. -/
theorem restrict_node {records inner : Records} {rule pos : Nat}
    (h : Inside (records.openNode rule pos ++ inner)) (hrecords : Inside records) (length : Nat) :
    ∃ inner', restrict keep (records.openNode rule pos ++ inner) =
        restrict keep (records.openNode rule pos) ++ inner' ∧
      restrict keep (records.node inner rule pos length) =
        if keep rule then (restrict keep records).node inner' rule pos length
        else restrict keep (records.openNode rule pos ++ inner) := by
  have hopen := hrecords.openNode rule pos
  refine ⟨_, restrict_append hopen inner, ?_⟩
  generalize hbefore : (records.openNode rule pos ++ inner).toList = before
  generalize hafter : (records.node inner rule pos length).toList = after
  have hsplit : before = records.toList ++ ⟨rule, .pre, records.size, pos, 0⟩ :: inner.toList := by
    rw [← hbefore]
    simp [Records.openNode]
  -- Completing the node changes no rule of a record, so places among the kept records stay.
  have hrank : ∀ n ≤ before.length, rank keep after n = rank keep before n := by
    intro n hn
    have hrules : after.map Record.rule =
        (before ++ [(⟨rule, .post, 0, 0, 0⟩ : Record)]).map Record.rule := by
      rw [← hafter, hsplit]
      simp [Records.node]
    rw [rank_congr hrules, rank_append _ hn]
  have hlength : before.length = records.size + 1 + inner.size := by
    rw [hsplit]
    simp
    omega
  have hinner : renumbered keep after inner.toList = renumbered keep before inner.toList := by
    refine renumbered_congr fun record hrecord => hrank _ ?_
    have hlt := h record (by simp [Array.mem_append, Array.mem_toList_iff.1 hrecord])
    rw [← Array.length_toList, hbefore] at hlt
    exact hlt.le
  have hpre : rank keep after (records.size + 1 + inner.size) =
      (restrict keep (records.openNode rule pos ++ inner)).size := by
    rw [← hlength, hrank _ (Nat.le_refl _), size_restrict, hbefore, ← hbefore, Array.length_toList]
  have hpost : rank keep after records.size = (restrict keep records).size := by
    rw [hrank _ (by omega), size_restrict, hsplit, rank_append _ (by simp)]
  rw [Records.node, restrict_append hrecords, ← Records.node, hafter]
  rw [List.toList_toArray, ← List.singleton_append, renumbered_append, renumbered_append,
    renumbered_singleton, renumbered_singleton, hinner, hpre, hpost, restrict_append hopen, hbefore]
  by_cases hkeep : keep rule = true
  · simp only [hkeep, if_true, Records.node]
    rw [restrict_openNode hrecords, if_pos hkeep]
    simp [Records.openNode, Nat.add_assoc, Nat.add_comm 1]
  · rw [restrict_openNode hrecords]
    simp [hkeep]

end Records

/-! ## Two computations -/

/-- Two computations end alike: in results that are related, or with the same fault. -/
inductive Alike {α β : Type} (R : α → β → Prop) : Except Fault α → Except Fault β → Prop
  | ok {a : α} {b : β} : R a b → Alike R (.ok a) (.ok b)
  | fault (fault : Fault) : Alike R (.error fault) (.error fault)

namespace Alike

variable {α β γ δ : Type} {R R' : α → β → Prop} {S : γ → δ → Prop} {x : Except Fault α}
  {y : Except Fault β}

theorem mono (h : Alike R x y) (hle : ∀ a b, R a b → R' a b) : Alike R' x y := by
  cases h with
  | ok h => exact .ok (hle _ _ h)
  | fault fault => exact .fault fault

theorem bind {f : α → Except Fault γ} {g : β → Except Fault δ} (h : Alike R x y)
    (hnext : ∀ a b, R a b → Alike S (f a) (g b)) : Alike S (x >>= f) (y >>= g) := by
  cases h with
  | ok h => exact hnext _ _ h
  | fault fault => exact .fault fault

/-- One computation is alike to itself, whatever it is. -/
theorem self (x : Except Fault α) : Alike (fun a b => a = b) x x := by
  cases x with
  | error fault => exact .fault fault
  | ok a => exact .ok rfl

theorem map_eq {f : α → γ} {g : β → γ} (h : Alike R x y) (heq : ∀ a b, R a b → f a = g b) :
    x.map f = y.map g := by
  cases h with
  | ok h => exact congrArg Except.ok (heq _ _ h)
  | fault fault => rfl

end Alike

namespace Engine

/-! ## Two runs -/

variable {σ τ : Type}

/-- A watch that records no more rules than another, with observers that keep related states. -/
structure Coarser (Rel : σ → τ → Prop) (watch : Watch σ) (watch' : Watch τ) : Prop where
  recorded : ∀ rule, watch.recorded rule = true → watch'.recorded rule = true
  observe : ∀ rule phase offset length s t, Rel s t →
    Rel (watch.observe rule phase offset length s) (watch'.observe rule phase offset length t)

/-- One state has the records of the rules in `keep` of another one. -/
structure Mirrors (Rel : σ → τ → Prop) (keep : Nat → Bool) (state : State σ) (state' : State τ) :
    Prop where
  records : state.records = state'.records.restrict keep
  inside : state'.records.Inside
  observed : Rel state.observed state'.observed

/-- What two evaluations have in common that began in a state and in `before`, which it mirrors. -/
structure InStep (Rel : σ → τ → Prop) (keep : Nat → Bool) (before : State τ)
    (outcome : Outcome σ) (outcome' : Outcome τ) : Prop where
  result : outcome.1 = outcome'.1
  mirrors : Mirrors Rel keep outcome.2 outcome'.2
  grows : ∃ more, outcome'.2.records = before.records ++ more

variable {Rel : σ → τ → Prop} {keep : Nat → Bool} {state after : State σ} {before after' : State τ}

theorem InStep.trans {next : State τ} {outcome : Outcome σ} {outcome' : Outcome τ}
    (h : ∃ more, next.records = before.records ++ more)
    (h' : InStep Rel keep next outcome outcome') : InStep Rel keep before outcome outcome' := by
  refine ⟨h'.result, h'.mirrors, ?_⟩
  obtain ⟨more, hmore⟩ := h
  obtain ⟨more', hmore'⟩ := h'.grows
  exact ⟨more ++ more', by rw [hmore', hmore, Array.append_assoc]⟩

/-- Nothing has happened. -/
theorem InStep.same (h : Mirrors Rel keep state before) (result : Option Nat) :
    InStep Rel keep before (result, state) (result, before) :=
  ⟨rfl, h, #[], by simp⟩

/-- What has grown is cut back to what it was, though to another size in each run. -/
theorem Mirrors.cutTo (h : Mirrors Rel keep state before) (h' : Mirrors Rel keep after after')
    (hgrows : ∃ more, after'.records = before.records ++ more) :
    after.records.cutTo state.records.size = state.records ∧
      after'.records.cutTo before.records.size = before.records := by
  obtain ⟨more, hmore⟩ := hgrows
  rw [h'.records, hmore, Records.restrict_append h.inside, ← h.records]
  exact ⟨cutTo_self_append _ _, cutTo_self_append _ _⟩

theorem Mirrors.follows_cutTo (h : Mirrors Rel keep state before)
    (h' : Mirrors Rel keep after after') (hgrows : ∃ more, after'.records = before.records ++ more)
    (result : Option Nat) :
    InStep Rel keep before (result, after.cutTo state.records.size)
      (result, after'.cutTo before.records.size) := by
  obtain ⟨hcut, hcut'⟩ := h.cutTo h' hgrows
  refine ⟨rfl, ⟨?_, ?_, h'.observed⟩, #[], ?_⟩
  · rw [State.cutTo, State.cutTo, hcut, hcut', h.records]
  · rw [State.cutTo, hcut']
    exact h.inside
  · rw [State.cutTo, hcut', Array.append_empty]

/-! ### Operators -/

theorem alike_firstMatch {f : Nat → State σ → Except Fault (Outcome σ)}
    {g : Nat → State τ → Except Fault (Outcome τ)}
    (h : ∀ child state before, Mirrors Rel keep state before →
      Alike (InStep Rel keep before) (f child state) (g child before))
    {children : List Nat} (hmirrors : Mirrors Rel keep state before) :
    Alike (InStep Rel keep before) (firstMatch f children state)
      (firstMatch g children before) := by
  induction children generalizing state before with
  | nil => exact .ok (.same hmirrors none)
  | cons child children ih =>
    refine (h child state before hmirrors).bind ?_
    rintro ⟨result, after⟩ ⟨_, after'⟩ hstep
    obtain rfl := hstep.result
    cases result with
    | some length => exact .ok hstep
    | none => exact (ih hstep.mirrors).mono fun _ _ h => h.trans hstep.grows

theorem alike_inSequence {f : Nat → Nat → State σ → Except Fault (Outcome σ)}
    {g : Nat → Nat → State τ → Except Fault (Outcome τ)}
    (h : ∀ child pos state before, Mirrors Rel keep state before →
      Alike (InStep Rel keep before) (f child pos state) (g child pos before))
    (pos : Nat) {children : List Nat} {length : Nat} (hmirrors : Mirrors Rel keep state before) :
    Alike (InStep Rel keep before) (inSequence f pos children length state)
      (inSequence g pos children length before) := by
  induction children generalizing state before length with
  | nil => exact .ok (.same hmirrors (some length))
  | cons child children ih =>
    refine (h child (pos + length) state before hmirrors).bind ?_
    rintro ⟨result, after⟩ ⟨_, after'⟩ hstep
    obtain rfl := hstep.result
    cases result with
    | none => exact .ok hstep
    | some more => exact (ih hstep.mirrors).mono fun _ _ h => h.trans hstep.grows

/-- The loop counts the same iterations of the same lengths in both runs. -/
theorem alike_repeated {f : Nat → State σ → Except Fault (Outcome σ)}
    {g : Nat → State τ → Except Fault (Outcome τ)}
    (h : ∀ pos state before, Mirrors Rel keep state before →
      Alike (InStep Rel keep before) (f pos state) (g pos before))
    (max : Option UInt32) (pos : Nat) {budget count length : Nat}
    (hmirrors : Mirrors Rel keep state before) :
    Alike (fun loop loop' => loop.1 = loop'.1 ∧
        InStep Rel keep before (some loop.2.1, loop.2.2) (some loop'.2.1, loop'.2.2))
      (repeated f max pos budget count length state)
      (repeated g max pos budget count length before) := by
  induction budget generalizing state before count length with
  | zero => exact .fault _
  | succ budget ih =>
    rw [repeated, repeated]
    split
    · refine (h (pos + length) state before hmirrors).bind ?_
      rintro ⟨result, after⟩ ⟨_, after'⟩ hstep
      obtain rfl := hstep.result
      rcases result with _ | _ | more
      · exact .ok ⟨rfl, rfl, hstep.mirrors, hstep.grows⟩
      · exact .ok ⟨rfl, rfl, hstep.mirrors, hstep.grows⟩
      · exact (ih hstep.mirrors).mono fun _ _ h => ⟨h.1, h.2.trans hstep.grows⟩
    · exact .ok ⟨rfl, .same hmirrors (some length)⟩

/-! ### Rules -/

section

variable {watch : Watch σ} {watch' : Watch τ} (hcoarser : Coarser Rel watch watch')
include hcoarser

theorem Mirrors.enter (h : Mirrors Rel watch.recorded state before) (rule pos : Nat) :
    Mirrors Rel watch.recorded (state.enter watch rule pos) (before.enter watch' rule pos) := by
  refine ⟨?_, ?_, hcoarser.observe rule .active pos 0 _ _ h.observed⟩
  · simp only [State.enter]
    by_cases hrule : watch.recorded rule = true
    · rw [if_pos hrule, if_pos (hcoarser.recorded rule hrule),
        Records.restrict_openNode h.inside, if_pos hrule, h.records]
    · rw [if_neg hrule]
      split
      · rw [Records.restrict_openNode h.inside, if_neg hrule, h.records]
      · exact h.records
  · simp only [State.enter]
    split
    · exact h.inside.openNode rule pos
    · exact h.inside

/-- A rule is left alike, if its body has been tried alike. -/
theorem Mirrors.leave (h : Mirrors Rel watch.recorded state before) {rule pos : Nat}
    (hmirrors : Mirrors Rel watch.recorded after after')
    (hbody : ∃ inner, after'.records = (before.enter watch' rule pos).records ++ inner)
    (result : Option Nat) :
    Alike (fun records records' => records = records'.restrict watch.recorded ∧ records'.Inside ∧
        ∃ more, records' = before.records ++ more)
      (watch.leave rule state.records.size result after.records)
      (watch'.leave rule before.records.size result after'.records) := by
  obtain ⟨inner, hinner⟩ := hbody
  have hgrows : ∃ more, after'.records = before.records ++ more := by
    rw [hinner, State.enter]
    split
    · exact ⟨#[⟨rule, .pre, before.records.size, pos, 0⟩] ++ inner, by simp [Records.openNode]⟩
    · exact ⟨inner, rfl⟩
  cases result with
  | none =>
    obtain ⟨hcut, hcut'⟩ := h.cutTo hmirrors hgrows
    simp only [Watch.leave, hcut, hcut']
    exact .ok ⟨h.records, h.inside, #[], by simp⟩
  | some length =>
    -- The finer run may have a node of the rule to close, and the coarser one has it only if the
    -- finer one does.
    by_cases hrule' : watch'.recorded rule = true
    · rw [State.enter, if_pos hrule'] at hinner
      have hinside := hmirrors.inside
      rw [hinner] at hinside
      obtain ⟨inner', hopen, hnode⟩ :=
        Records.restrict_node hinside h.inside length
      simp only [Watch.leave, if_pos hrule', hinner, Records.closeNode_append]
      have hmore : ∃ more, before.records.node inner rule pos length = before.records ++ more :=
        ⟨_, rfl⟩
      by_cases hrule : watch.recorded rule = true
      · rw [if_pos hrule, hmirrors.records, hinner, hopen,
          Records.restrict_openNode h.inside, if_pos hrule, ← h.records, Records.closeNode_append]
        refine .ok ⟨?_, hinside.node length, hmore⟩
        rw [hnode, if_pos hrule, h.records]
      · rw [if_neg hrule]
        refine .ok ⟨?_, hinside.node length, hmore⟩
        rw [hnode, if_neg hrule, hmirrors.records, hinner]
    · have hrule : ¬ watch.recorded rule = true := fun h => hrule' (hcoarser.recorded rule h)
      simp only [Watch.leave, if_neg hrule, if_neg hrule']
      exact .ok ⟨hmirrors.records, hmirrors.inside, hgrows⟩

theorem alike_enterRule {rule pos : Nat} {body : State σ → Except Fault (Outcome σ)}
    {body' : State τ → Except Fault (Outcome τ)}
    (hbody : ∀ state before, Mirrors Rel watch.recorded state before →
      Alike (InStep Rel watch.recorded before) (body state) (body' before))
    (hmirrors : Mirrors Rel watch.recorded state before) :
    Alike (InStep Rel watch.recorded before) (enterRule watch rule pos body state)
      (enterRule watch' rule pos body' before) := by
  rw [enterRule_eq, enterRule_eq]
  refine (hbody _ _ (hmirrors.enter hcoarser rule pos)).bind ?_
  rintro ⟨result, after⟩ ⟨_, after'⟩ hstep
  obtain rfl := hstep.result
  refine (hmirrors.leave hcoarser hstep.mirrors hstep.grows result).bind ?_
  rintro records records' ⟨hrecords, hinside, hgrows⟩
  exact .ok ⟨rfl, ⟨hrecords, hinside, hcoarser.observe _ _ _ _ _ _ hstep.mirrors.observed⟩,
    hgrows⟩

/-! ### Evaluations -/

/-- Every opcode is evaluated alike. -/
theorem alike_evaluate (rules : Array Rule) (input : Array UInt8) (depth rule op pos : Nat)
    (hmirrors : Mirrors Rel watch.recorded state before) :
    Alike (InStep Rel watch.recorded before) (evaluate rules watch input depth rule op pos state)
      (evaluate rules watch' input depth rule op pos before) := by
  induction depth generalizing rule op pos state before with
  | zero => exact .fault _
  | succ depth ih =>
    rw [evaluate, evaluate]
    refine (Alike.self _).bind ?_
    rintro found _ rfl
    refine (Alike.self _).bind ?_
    rintro opcode _ rfl
    cases opcode with
    | alt children =>
      exact alike_firstMatch (fun child _ _ h => ih rule child pos h) hmirrors
    | cat children =>
      refine (alike_inSequence (fun child pos _ _ h => ih rule child pos h) pos hmirrors).bind ?_
      rintro ⟨result, after⟩ ⟨_, after'⟩ hstep
      obtain rfl := hstep.result
      cases result with
      | some length => exact .ok hstep
      | none => exact .ok (hmirrors.follows_cutTo hstep.mirrors hstep.grows none)
    | rep min max =>
      refine (alike_repeated (fun pos _ _ h => ih rule (op + 1) pos h) max pos hmirrors).bind ?_
      rintro ⟨count, length, after⟩ ⟨_, _, after'⟩ ⟨rfl, hstep⟩
      obtain rfl := Option.some.inj hstep.result
      show Alike _ (if min.toNat ≤ count then _ else _) (if min.toNat ≤ count then _ else _)
      split
      · exact .ok hstep
      · exact .ok (hmirrors.follows_cutTo hstep.mirrors hstep.grows none)
    | rnm target =>
      refine (Alike.self _).bind fun _ _ _ => ?_
      exact alike_enterRule hcoarser (fun _ _ h => ih target 0 pos h) hmirrors
    | and | not =>
      refine (ih rule (op + 1) pos hmirrors).bind ?_
      rintro ⟨result, after⟩ ⟨_, after'⟩ hstep
      obtain rfl := hstep.result
      exact .ok (hmirrors.follows_cutTo hstep.mirrors hstep.grows _)
    | abg | aen | tls | tbs | trg => exact .ok (.same hmirrors _)
    | udt | bka | bkn | bkr => exact .fault _

/-- A run goes as one that keeps more: it matches the same, or fails in the same way, and has the
records of its rules. -/
theorem run_alike (rules : Array Rule) (start : Nat) (input : Array UInt8) {init : σ} {init' : τ}
    (hinit : Rel init init') :
    Alike (fun m m' => m.matched = m'.matched ∧
        m.records = m'.records.restrict watch.recorded ∧ Rel m.observed m'.observed)
      (run rules watch start input init) (run rules watch' start input init') := by
  have hmirrors : Mirrors Rel watch.recorded ⟨#[], init⟩ ⟨#[], init'⟩ :=
    ⟨rfl, by simp [Records.Inside], hinit⟩
  rw [run, run]
  refine (Alike.self _).bind fun _ _ _ => ?_
  refine (alike_enterRule hcoarser (fun _ _ h =>
    alike_evaluate hcoarser rules input (depthBound rules input) start 0 0 h) hmirrors).bind ?_
  rintro ⟨result, after⟩ ⟨_, after'⟩ hstep
  exact .ok ⟨hstep.result, hstep.mirrors.records, hstep.mirrors.observed⟩

end

/-! ### Events -/

/-- What a logging watch makes of some events are those of the rules that it lists. -/
theorem foldl_see_log_eq_filter (recorded called : List Nat) (events : Array Event) :
    events.foldl (Watch.log recorded called).see #[] =
      events.filter fun event => called.contains event.rule := by
  rw [← Array.foldl_toList, foldl_see_log, Array.empty_append, ← Array.toList_filter,
    Array.toArray_toList]

variable {watch : Watch σ} {watch' : Watch τ}

/-- What an observer has come to see does not depend on what is recorded, and comes from the events
of the rules that it looks at. -/
theorem observed_eq_foldl (rules : Array Rule) (start : Nat) (input : Array UInt8) (init : σ)
    (recorded : List Nat) {called : List Nat}
    (hcalled : ∀ rule ∉ called, ∀ phase offset length s,
      watch.observe rule phase offset length s = s) :
    (run rules watch start input init).map (·.observed) =
      (run rules (.log recorded called) start input #[]).map fun m =>
        m.observed.foldl watch.see init := by
  -- Both runs keep what a run sees that records nothing.
  have hself : Coarser Eq { watch with recorded := fun _ => false } watch :=
    ⟨nofun, fun rule phase offset length s t h => h ▸ rfl⟩
  have hlog : Coarser (fun s events => s = events.foldl watch.see init)
      { watch with recorded := fun _ => false } (.log recorded called) := by
    refine ⟨nofun, fun rule phase offset length s events h => ?_⟩
    simp only [Watch.log]
    split
    · rw [Array.foldl_push, h]
      rfl
    · rename_i hrule
      rw [hcalled rule (by simpa using hrule), h]
  have hinit : init = (#[] : Array Event).foldl watch.see init := by simp
  calc (run rules watch start input init).map (·.observed)
      = (run rules { watch with recorded := fun _ => false } start input init).map (·.observed) :=
        ((run_alike hself rules start input rfl).map_eq fun _ _ h => h.2.2).symm
    _ = (run rules (.log recorded called) start input #[]).map fun m =>
        m.observed.foldl watch.see init :=
      (run_alike hlog rules start input hinit).map_eq fun _ _ h => h.2.2

/-- What a run keeps of a match does not influence the match. Let one run record some of the rules
that another run records, and let their observers be whatever they are. Both match the same, or
fail in the same way, and the first has the records of the second without those of other rules,
each naming its partner by the new place. What the first observer has come to see follows from the
events of the rules that it looks at; and the events of fewer rules are the events of more rules
without those of the others. -/
theorem run_unobserved (rules : Array Rule) (start : Nat) (input : Array UInt8)
    (hrecorded : ∀ rule, watch.recorded rule = true → watch'.recorded rule = true)
    (init : σ) (init' : τ) :
    ((run rules watch start input init).map fun m => (m.matched, m.isComplete input, m.records)) =
        ((run rules watch' start input init').map fun m =>
          (m.matched, m.isComplete input, m.records.restrict watch.recorded)) ∧
      (∀ recorded called : List Nat,
        (∀ rule ∉ called, ∀ phase offset length s, watch.observe rule phase offset length s = s) →
          (run rules watch start input init).map (·.observed) =
            (run rules (.log recorded called) start input #[]).map fun m =>
              m.observed.foldl watch.see init) ∧
      ∀ recorded recorded' called called' : List Nat, called ⊆ called' →
        (run rules (.log recorded called) start input #[]).map (·.observed) =
          (run rules (.log recorded' called') start input #[]).map fun m =>
            m.observed.filter fun event => called.contains event.rule := by
  refine ⟨?_, fun recorded called => observed_eq_foldl rules start input init recorded, ?_⟩
  · have hcoarser : Coarser (fun _ _ => True) watch watch' :=
      ⟨hrecorded, fun _ _ _ _ _ _ _ => trivial⟩
    refine (run_alike hcoarser rules start input trivial).map_eq ?_
    rintro m m' ⟨hmatched, hrecords, -⟩
    rw [Match.isComplete, Match.isComplete, hmatched, hrecords]
  · intro recorded recorded' called called' hsub
    have hcalled : ∀ rule ∉ called', ∀ phase offset length events,
        (Watch.log recorded called).observe rule phase offset length events = events := by
      intro rule hrule phase offset length events
      have hnot : rule ∉ called := fun hmem => hrule (hsub hmem)
      simp [Watch.log, hnot]
    rw [observed_eq_foldl rules start input #[] recorded' hcalled]
    simp only [foldl_see_log_eq_filter]

/-- Of four records, those of `s` go; the phrase `a` is left, and its records name each other. -/
theorem run_unobserved_twoAttempts :
    (∀ rule, (Watch.log [1] [1]).recorded rule = true →
      (Watch.log [0, 1] [0, 1]).recorded rule = true) ∧
    ((run twoAttempts (.log [0, 1] [0, 1]) 0 #[97, 121] #[]).map fun m =>
      (m.matched, m.isComplete #[97, 121], m.records)).toOption = some (some 2, true,
        #[⟨0, .pre, 3, 0, 2⟩, ⟨1, .pre, 2, 0, 1⟩, ⟨1, .post, 1, 0, 1⟩, ⟨0, .post, 0, 0, 2⟩]) ∧
    ((run twoAttempts (.log [1] [1]) 0 #[97, 121] #[]).map fun m =>
      (m.matched, m.isComplete #[97, 121], m.records)).toOption = some (some 2, true,
        #[⟨1, .pre, 1, 0, 1⟩, ⟨1, .post, 0, 0, 1⟩]) := by
  have hrecorded : ∀ rule, (Watch.log [1] [1]).recorded rule = true →
      (Watch.log [0, 1] [0, 1]).recorded rule = true := by
    intro rule hrule
    simp only [Watch.log, List.contains_iff_mem] at hrule ⊢
    exact List.mem_cons_of_mem _ hrule
  refine ⟨hrecorded, by decide +kernel, ?_⟩
  rw [(run_unobserved twoAttempts 0 #[97, 121] hrecorded #[] #[]).1]
  decide +kernel

end Engine

end Abnf
