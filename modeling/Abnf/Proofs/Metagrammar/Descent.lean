import Abnf.Metagrammar.Recognition
import Abnf.Proofs.Engine.Locality

/-!
# The metagrammar descends

Recursive descent ends on the metagrammar, whatever the text, and also on the metagrammar without
the alternatives that match malformed text. Recognition therefore never meets a fault.

* `Symbol.properBody`: the definition of a symbol without its error alternatives.
* `total`: every symbol has a run everywhere.
* `recognize_eq`: recognition is the run of the file symbol, as its observer sees it.
-/

namespace Abnf.Metagrammar

open Engine

/-! ## Definitions without error alternatives -/

/-- Whether a symbol stands for malformed text, or for text that has no meaning: prose, and tabs
in strings. -/
def Symbol.isError : Symbol → Bool
  | ruleNameError | definedAsError | ruleError | lineEndError | basicElementError | groupError
  | optionError | prosVal | stringTab => true
  | _ => false

/-- Whether an alternative begins with a symbol for malformed text. -/
def isErrorAlternative : Expr Opcode → Bool
  | .atom (.rnm r) | .cat (.atom (.rnm r) :: _) => (Symbol.ofIndex? r).any Symbol.isError
  | _ => false

mutual

/-- An expression without its error alternatives. -/
def prune : Expr Opcode → Expr Opcode
  | .atom op => .atom op
  | .alt es => .alt (pruneAlternatives es)
  | .cat es => .cat (pruneAll es)
  | .under op e => .under op (prune e)

/-- Alternatives without those that begin with a symbol for malformed text. -/
def pruneAlternatives : List (Expr Opcode) → List (Expr Opcode)
  | [] => []
  | e :: es => if isErrorAlternative e then pruneAlternatives es else prune e :: pruneAlternatives es

/-- Several expressions without their error alternatives. -/
def pruneAll : List (Expr Opcode) → List (Expr Opcode)
  | [] => []
  | e :: es => prune e :: pruneAll es

end

/-- The definition of a symbol without its error alternatives. -/
def Symbol.properBody (symbol : Symbol) : Expr Opcode :=
  prune symbol.body

/-- The rule table of the metagrammar without its error alternatives. -/
def properRules : Array Rule :=
  Symbol.all.map fun symbol => ⟨symbol.name, symbol.index, symbol.properBody.layout⟩

/-! ## Tables of symbols -/

theorem index_of_ofIndex? {r : Nat} {s : Symbol} (h : Symbol.ofIndex? r = some s) : s.index = r := by
  have key : ∀ i : Fin 87, (Symbol.ofIndex? i.val).map Symbol.index = some i.val := by
    decide +kernel
  have hr : r < 87 := (Array.getElem?_eq_some_iff.1 h).1
  simpa [h] using key ⟨r, hr⟩

theorem Symbol.index_inj {s t : Symbol} : s.index = t.index ↔ s = t := by
  refine ⟨fun h => ?_, fun h => h ▸ rfl⟩
  have h' := congrArg Symbol.ofIndex? h
  simpa [Symbol.ofIndex?_index] using h'

/-- The scheme of a table that defines every symbol. -/
def schemeOf (body : Symbol → Expr Opcode) (recorded : Nat → Bool) : Scheme where
  body r := (Symbol.ofIndex? r).map body
  recorded := recorded

@[simp] theorem schemeOf_body (body : Symbol → Expr Opcode) (recorded : Nat → Bool) (s : Symbol) :
    (schemeOf body recorded).body s.index = some (body s) := by
  simp [schemeOf, Symbol.ofIndex?_index]

theorem depicts_schemeOf {σ : Type} {body : Symbol → Expr Opcode} (hvalid : ∀ s, (body s).isValid = true)
    (watch : Watch σ) :
    Depicts (schemeOf body watch.recorded)
      (Symbol.all.map fun s => ⟨s.name, s.index, (body s).layout⟩) watch := by
  refine ⟨rfl, ?_⟩
  intro r e he
  obtain ⟨s, hs, rfl⟩ := Option.map_eq_some_iff.1 he
  refine ⟨⟨s.name, s.index, (body s).layout⟩, ?_, Expr.stands_layout (hvalid s)⟩
  rw [Array.getElem?_map]
  rw [Symbol.ofIndex?] at hs
  simp [hs]

/-! ## Descent -/

/-- Whether a symbol can match the empty phrase. -/
def Symbol.canBeEmpty : Symbol → Bool
  | file | owsp | tlsString | clsString | prosValString => true
  | _ => false

/-- Whether a rule can match the empty phrase. -/
def nullable (r : Nat) : Bool :=
  (Symbol.ofIndex? r).any Symbol.canBeEmpty

/-- How far a symbol can descend before it consumes something. -/
def Symbol.rank : Symbol → Nat
  | file | alternation => 5
  | rule | concatenation => 4
  | ruleLookup | catOp | groupClose | optionClose | repetition => 3
  | ruleNameTest | definedAsTest | owsp | wsp | repOp | basicElement => 2
  | blankLine | ruleName | definedAs | ruleError | lineEndError | rnmOp | udtOp | group | option
  | tlsOp | clsOp | prosVal | tlsString | clsString | prosValString | space | repMin | repMax
  | repMinMax | dString | xString | bString | dmin | dmax | xmin | xmax | bmin | bmax
  | bkrName => 1
  | _ => 0

/-- Whether the definition of a symbol has opcodes that the engine runs only, refers to symbols
only, is not empty unless the symbol can be, and leads to symbols of lower rank only. -/
def isSound (body : Symbol → Expr Opcode) (s : Symbol) : Bool :=
  (body s).isValid &&
    (body s).isRunnable (fun r => (Symbol.ofIndex? r).isSome) &&
    (s.canBeEmpty || !(body s).isNullable nullable) &&
    ((body s).leads nullable).all fun r => (Symbol.ofIndex? r).all fun t => t.rank < s.rank

theorem isSound_body (s : Symbol) : isSound Symbol.body s = true := by
  cases s <;> decide

theorem isSound_properBody (s : Symbol) : isSound Symbol.properBody s = true := by
  cases s <;> decide

theorem isSound_iff {body : Symbol → Expr Opcode} {s : Symbol} :
    isSound body s = true ↔ (body s).isValid = true ∧
      (body s).isRunnable (fun r => (Symbol.ofIndex? r).isSome) = true ∧
      ((body s).isNullable nullable = true → s.canBeEmpty = true) ∧
      ∀ r ∈ (body s).leads nullable, ∀ t, Symbol.ofIndex? r = some t → t.rank < s.rank := by
  simp only [isSound, Bool.and_eq_true, Bool.or_eq_true, Bool.not_eq_true', List.all_eq_true,
    and_assoc]
  refine and_congr_right fun _ => and_congr_right fun _ => and_congr ?_ ?_
  · cases (body s).isNullable nullable <;> simp
  · refine forall_congr' fun r => forall_congr' fun _ => ?_
    cases Symbol.ofIndex? r <;> simp

/-- Ranks fall along leading references. -/
theorem rank_lt_of_leadsTo {body : Symbol → Expr Opcode} (h : ∀ s, isSound body s = true)
    {recorded : Nat → Bool} {r t : Nat}
    (hlead : LeadsTo (schemeOf body recorded) nullable r t) {u : Symbol}
    (hu : Symbol.ofIndex? t = some u) : ∃ s, Symbol.ofIndex? r = some s ∧ u.rank < s.rank := by
  obtain ⟨e, he, ht⟩ := hlead
  obtain ⟨s, hs, rfl⟩ := Option.map_eq_some_iff.1 he
  exact ⟨s, hs, (isSound_iff.1 (h s)).2.2.2 _ ht u hu⟩

theorem rank_lt_of_transGen {body : Symbol → Expr Opcode} (h : ∀ s, isSound body s = true)
    {recorded : Nat → Bool} {r t : Nat}
    (hreach : Relation.TransGen (LeadsTo (schemeOf body recorded) nullable) r t) {u : Symbol}
    (hu : Symbol.ofIndex? t = some u) : ∃ s, Symbol.ofIndex? r = some s ∧ u.rank < s.rank := by
  induction hreach using Relation.TransGen.head_induction_on with
  | single hlead => exact rank_lt_of_leadsTo h hlead hu
  | head hlead _ ih =>
    obtain ⟨v, hv, hlt⟩ := ih
    obtain ⟨s, hs, hlt'⟩ := rank_lt_of_leadsTo h hlead hv
    exact ⟨s, hs, Nat.lt_trans hlt hlt'⟩

/-- The table of sound definitions descends: a rule that led back to itself would have a lower rank
than its own. -/
theorem descends_schemeOf {body : Symbol → Expr Opcode} (h : ∀ s, isSound body s = true)
    (recorded : Nat → Bool) :
    Descends (schemeOf body recorded)
      (Symbol.all.map fun s => ⟨s.name, s.index, (body s).layout⟩) nullable := by
  have hbody : ∀ {r e}, (schemeOf body recorded).body r = some e →
      ∃ s, Symbol.ofIndex? r = some s ∧ body s = e := by
    intro r e he
    exact Option.map_eq_some_iff.1 he
  exact {
    closed := fun {r e} he hnull => by
      obtain ⟨s, hs, rfl⟩ := hbody he
      simp [nullable, hs, (isSound_iff.1 (h s)).2.2.1 hnull]
    runnable := fun {r e} he => by
      obtain ⟨s, hs, rfl⟩ := hbody he
      have hknown : (fun t => ((schemeOf body recorded).body t).isSome) =
          fun t => (Symbol.ofIndex? t).isSome := by
        funext t
        simp [schemeOf]
      rw [hknown]
      exact (isSound_iff.1 (h s)).2.1
    size := fun {r e} he => by
      obtain ⟨s, hs, rfl⟩ := hbody he
      refine ⟨⟨s.name, s.index, (body s).layout⟩, ?_, by simp⟩
      rw [Symbol.ofIndex?] at hs
      simp [hs]
    acyclic := fun r hcycle => by
      obtain ⟨_, ⟨e, he, -⟩, -⟩ := Relation.TransGen.head'_iff.1 hcycle
      obtain ⟨s, hs, -⟩ := hbody he
      obtain ⟨s', hs', hlt⟩ := rank_lt_of_transGen h hcycle hs
      cases hs.symm.trans hs'
      exact Nat.lt_irrefl _ hlt }

/-! ## Runs of the metagrammar -/

/-- The metagrammar, with the phrases that recognition records. -/
def scheme : Scheme :=
  schemeOf Symbol.body watch.recorded

/-- The metagrammar without error alternatives, with the phrases that recognition records. -/
def properScheme : Scheme :=
  schemeOf Symbol.properBody watch.recorded

theorem scheme_body (s : Symbol) : scheme.body s.index = some s.body :=
  schemeOf_body _ _ s

theorem properScheme_body (s : Symbol) : properScheme.body s.index = some s.properBody :=
  schemeOf_body _ _ s

theorem descends : Descends scheme rules nullable :=
  descends_schemeOf isSound_body _

theorem descends_proper : Descends properScheme properRules nullable :=
  descends_schemeOf isSound_properBody _

/-- Whether a rule is that of a symbol for which `p` holds. -/
def among (p : Symbol → Bool) (r : Nat) : Bool :=
  (Symbol.ofIndex? r).any p

@[simp] theorem among_index {p : Symbol → Bool} {s : Symbol} : among p s.index = p s := by
  simp [among, Symbol.ofIndex?_index]

/-- A run stays among symbols that refer to each other only. -/
theorem among_of_run {body : Symbol → Expr Opcode} {recorded : Nat → Bool} {p : Symbol → Bool}
    (hclosed : ∀ s, p s = true → (body s).isRunnable (among p) = true) {e : Expr Opcode}
    {pos : Nat} {rest : List UInt8} {result : Option Nat} {nodes : List Node}
    {events : List Event} (h : Run (schemeOf body recorded) e pos rest result nodes events)
    (he : e.isRunnable (among p) = true) : ∀ event ∈ events, among p event.rule = true := by
  refine h.within ?_ he
  intro r b hr hb
  obtain ⟨s, hs, rfl⟩ := Option.map_eq_some_iff.1 hb
  simp only [among, hs, Option.any_some] at hr
  exact hclosed s hr

/-- Where definitions are sound, every symbol has a run everywhere. -/
theorem total_schemeOf {body : Symbol → Expr Opcode} (h : ∀ s, isSound body s = true) (s : Symbol)
    (pos : Nat) (rest : List UInt8) :
    ∃ result nodes events,
      Run (schemeOf body watch.recorded) (ref s) pos rest result nodes events := by
  have hvalid : ∀ s : Symbol, (body s).isValid = true := fun s => (isSound_iff.1 (h s)).1
  -- Any bytes in front of `rest` do, because only what lies to the right matters.
  let input : Array UInt8 := (List.replicate pos 0 ++ rest).toArray
  have hready := (descends_schemeOf h watch.recorded).ready (depicts_schemeOf hvalid watch) input
    s.index pos (by simp [input])
  obtain ⟨result, nodes, events, hrun, -⟩ :=
    hready (body s) (schemeOf_body _ _ s) _ (Nat.le_refl _)
  have hrest : input.toList.drop pos = rest := by
    simp [input]
  rw [hrest] at hrun
  exact ⟨_, _, _, .rule (schemeOf_body _ _ s) hrun⟩

/-- Every symbol has a run everywhere. -/
theorem total (s : Symbol) (pos : Nat) (rest : List UInt8) :
    ∃ result nodes events, Run scheme (ref s) pos rest result nodes events :=
  total_schemeOf isSound_body s pos rest

/-- The engine tries the file symbol on every text as its run says. -/
theorem run_file_eq (source : Source) (strict : Bool) :
    ∃ result nodes events,
      Run scheme (ref .file) 0 source.bytes.toList result nodes events ∧
      Engine.run rules watch Symbol.file.index source.bytes { strict := strict } =
        .ok ⟨result, (Node.recordsAll 0 nodes).toArray,
          events.foldl watch.see { strict := strict }⟩ := by
  have hvalid : ∀ s : Symbol, s.body.isValid = true := fun s => (isSound_iff.1 (isSound_body s)).1
  exact descends.run_realizes (depicts_schemeOf hvalid watch) (schemeOf_body _ _ .file)
    source.bytes { strict := strict }

/-- Recognition is the run of the file symbol: its trees are what is recorded, and the flaws are
those that the observer notes along its events. -/
theorem recognize_eq (source : Source) (strict : Bool) :
    ∃ result nodes events,
      Run scheme (ref .file) 0 source.bytes.toList result nodes events ∧
      recognize source strict = .ok
        ⟨(events.foldl watch.see { strict := strict }).flaws.toList ++
            (if result = some source.bytes.size then [] else [(result.getD 0, .unreadable)]),
          (events.foldl watch.see { strict := strict }).ruleCount,
          (Node.recordsAll 0 nodes).toArray⟩ := by
  obtain ⟨result, nodes, events, hrun, heq⟩ := run_file_eq source strict
  refine ⟨result, nodes, events, hrun, ?_⟩
  simp only [recognize, heq, bind, Except.bind, Match.isComplete, beq_iff_eq]
  rfl

/-- Recognition never meets a fault. -/
theorem exists_recognition (source : Source) (strict : Bool) :
    ∃ recognition, recognize source strict = .ok recognition := by
  obtain ⟨_, _, _, -, hrecognize⟩ := recognize_eq source strict
  exact ⟨_, hrecognize⟩

/-- The file symbol never fails. -/
theorem matched_file (source : Source) (strict : Bool) :
    ∃ found, Engine.run rules watch Symbol.file.index source.bytes { strict := strict } =
        .ok found ∧ found.matched.isSome = true := by
  obtain ⟨result, nodes, events, hrun, heq⟩ := run_file_eq source strict
  refine ⟨_, heq, ?_⟩
  cases result with
  | some n => rfl
  | none =>
    cases hrun.nodes_eq_nil
    have hfails : Fails scheme (fun _ => True) (ref .file) 0 source.bytes.toList :=
      ⟨events, hrun, fun _ _ => trivial⟩
    exact absurd ((fails_rule_iff (scheme_body .file)).1 hfails).2.2 not_fails_rep_zero

end Abnf.Metagrammar
