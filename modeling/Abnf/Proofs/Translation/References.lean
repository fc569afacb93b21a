import Abnf.Proofs.Translation.Entries

/-!
# References

When all lines are read, every name that was kept is looked up. What it stands for takes the place of
the opcode that waits for it; a name that stands for nothing leaves a message, and its opcode stays.

* `Settles`: what a translator has while its references are looked up.
* `Holds.resolveReferences`: the rules are laid out with what all atoms stand for, and the
  messages are those about the references.
-/

namespace Abnf

/-- What the name of an atom stands for, if it is looked up last and stands for something. -/
def Atom.found? (names : Names) : Atom → Option Opcode
  | ruleName _ name => (names.rule? name).map .rnm
  | backReference _ name caseInsensitive =>
    ((names.udt? name).map fun i => .bkr i true caseInsensitive).or
      ((names.rule? name).map fun i => .bkr i false caseInsensitive)
  | _ => none

namespace Translation

open Tables

variable {names : Names} {a : Atom} {op : Opcode}

theorem resolve_of_found? (h : a.found? names = some op) : a.resolve names = op := by
  cases a with
  | ruleName offset name =>
    obtain ⟨i, hi, rfl⟩ := Option.map_eq_some_iff.1 h
    rw [Atom.resolve, hi, Option.getD_some]
  | backReference offset name caseInsensitive =>
    rw [Atom.found?] at h
    rw [Atom.resolve]
    cases hudt : names.udt? name with
    | some i => simpa [hudt] using h
    | none =>
      obtain ⟨i, hi, rfl⟩ : ∃ i, names.rule? name = some i ∧
          Opcode.bkr i false caseInsensitive = op := by
        simpa [hudt] using h
      simp [hi]
  | _ => cases h

/-- The opcode of a name that stands for nothing is the draft. -/
theorem draft_of_found?_eq_none (h : a.found? names = none) :
    a.draft names.udts = a.resolve names := by
  cases a with
  | ruleName offset name =>
    rw [Atom.draft, Atom.resolve, Option.map_eq_none_iff.1 h, Option.getD_none]
  | backReference offset name caseInsensitive =>
    obtain ⟨hudt, hrule⟩ : names.udt? name = none ∧ names.rule? name = none := by
      simpa [Atom.found?] using h
    rw [Atom.draft, Atom.resolve, hudt, hrule, Option.getD_none]
  | _ => rfl

/-! ## Places -/

/-- Opcodes when the name of an atom in its place has been looked up. -/
def settle (names : Names) (opcodes : List Opcode) (place : Nat × Atom) : List Opcode :=
  match place.2.found? names with
  | some op => opcodes.set place.1 op
  | none => opcodes

/-- When all names have been looked up, the layout of drafts is the layout of what the atoms stand
for. -/
theorem foldl_settle (names : Names) (e : Expr Atom) :
    (e.placedFrom 0).foldl (settle names) ((e.map (Atom.draft names.udts)).layoutFrom 0) =
      (e.map (Atom.resolve names)).layoutFrom 0 := by
  have hstep : ∀ (before after : List Opcode) (a : Atom),
      settle names (before ++ a.draft names.udts :: after) (before.length, a) =
        before ++ a.resolve names :: after := by
    intro before after a
    cases hfound : a.found? names with
    | some op => simp [settle, hfound, resolve_of_found? hfound]
    | none => simp [settle, hfound, draft_of_found?_eq_none hfound]
  simpa using Expr.foldl_placedFrom hstep [] [] e

/-- Rules when the name of an atom in its place has been looked up. -/
def settleIn (names : Names) (rules : List Rule) (place : Placed) : List Rule :=
  rules.modify place.rule fun rule =>
    rule.withOpcodes (settle names rule.opcodes.toList (place.opcode, place.atom))

variable {rules : List Rule} {placed : List Placed} {place : Placed}

theorem getElem?_settleIn (i : Nat) : (settleIn names rules place)[i]? =
    rules[i]?.map fun rule =>
      rule.withOpcodes ((placesIn [place] i).foldl (settle names) rule.opcodes.toList) := by
  rw [settleIn, List.getElem?_modify]
  by_cases hi : place.rule = i
  · simp [hi, placesIn]
  · simp [hi, placesIn, Rule.withOpcodes]

/-- The opcodes of each rule are settled by the atoms that stand in it. -/
theorem getElem?_foldl_settleIn (i : Nat) : (placed.foldl (settleIn names) rules)[i]? =
    rules[i]?.map fun rule =>
      rule.withOpcodes ((placesIn placed i).foldl (settle names) rule.opcodes.toList) := by
  induction placed generalizing rules with
  | nil => simp [placesIn, Rule.withOpcodes]
  | cons place placed ih =>
    have hplaces : placesIn (place :: placed) i = placesIn [place] i ++ placesIn placed i :=
      placesIn_append [place] placed i
    rw [List.foldl_cons, ih, getElem?_settleIn, Option.map_map, hplaces]
    simp only [List.foldl_append]
    rfl

/-- When all names have been looked up, the entries are laid out with what their atoms stand for. -/
theorem foldl_settleIn {entries : List Entry} (h : Booked entries placed) :
    placed.foldl (settleIn names) (rulesOf (Atom.draft names.udts) entries) =
      rulesOf (Atom.resolve names) entries := by
  refine List.ext_getElem? fun i => ?_
  rw [getElem?_foldl_settleIn, getElem?_rulesOf, getElem?_rulesOf, Option.map_map]
  refine Option.map_congr fun entry hentry => ?_
  simp only [Function.comp_apply, Rule.withOpcodes, h.places i entry hentry, Entry.opcodes,
    foldl_settle]

/-! ## Looking names up -/

/-- What a translator has while its references are looked up. -/
structure Settles (names : Names) (udts : Array Udt) (rules : List Rule)
    (messages : List (Nat × String)) (t : Translator) : Prop where
  table : t.rules = rules.toArray
  ruleNames : ∀ name, t.ruleNames[name]? = names.rules.idxOf? name
  udts : t.udts = udts
  udtNames : ∀ name, t.udtNames[name]? = names.udts.idxOf? name
  flaws : t.flaws = messages

/-- Whether the opcode of an atom in its place is there. -/
def Stands (rules : List Rule) (place : Placed) : Prop :=
  ∃ rule, rules[place.rule]? = some rule ∧ place.opcode < rule.opcodes.size

variable {udts : Array Udt} {messages : List (Nat × String)} {t : Translator}
  {reference : Reference}

theorem length_settle (opcodes : List Opcode) (place : Nat × Atom) :
    (settle names opcodes place).length = opcodes.length := by
  rw [settle]
  split
  · exact List.length_set
  · rfl

/-- Opcodes stay while names are looked up. -/
theorem Stands.settleIn {other : Placed} (h : Stands rules place) :
    Stands (settleIn names rules other) place := by
  obtain ⟨rule, hrule, hlt⟩ := h
  rw [Stands, Translation.settleIn, List.getElem?_modify, hrule]
  refine ⟨_, rfl, ?_⟩
  split
  · simpa [Rule.withOpcodes, length_settle] using hlt
  · exact hlt

/-- An atom without a reference leaves everything as it is. -/
theorem settleIn_of_found?_eq_none (h : place.atom.found? names = none) :
    settleIn names rules place = rules := by
  have hsame : (fun rule : Rule =>
      rule.withOpcodes (settle names rule.opcodes.toList (place.opcode, place.atom))) = id := by
    funext rule
    simp [settle, h, Rule.withOpcodes]
  rw [settleIn, hsame, List.modify_id]

theorem found?_of_reference?_eq_none (names : Names) (h : place.reference? = none) :
    place.atom.found? names = none ∧ place.atom.referenceFlaw? names = none := by
  obtain ⟨rule, opcode, a⟩ := place
  cases a with
  | ruleName => cases h
  | backReference => cases h
  | _ => exact ⟨rfl, rfl⟩

/-- A reference to nothing is the flaw of its atom. -/
theorem referenceFlaw?_eq (h : place.reference? = some reference) :
    place.atom.referenceFlaw? names =
      if (place.atom.found? names).isNone then some (reference.offset, reference.flaw) else none := by
  obtain ⟨rule, opcode, a⟩ := place
  cases a with
  | ruleName offset name =>
    cases h
    simp [Atom.referenceFlaw?, Atom.found?, Reference.flaw]
  | backReference offset name caseInsensitive =>
    cases h
    simp [Atom.referenceFlaw?, Atom.found?, Reference.flaw]
  | _ => cases h

theorem Settles.resolve (h : Settles names udts rules messages t)
    (hreference : place.reference? = some reference) :
    t.resolve reference = place.atom.found? names := by
  obtain ⟨rule, opcode, a⟩ := place
  cases a with
  | ruleName offset name =>
    cases hreference
    simp only [Translator.resolve, h.ruleNames]
    rfl
  | backReference offset name caseInsensitive =>
    cases hreference
    simp only [Translator.resolve, h.ruleNames, h.udtNames]
    rfl
  | _ => cases hreference

theorem place_of_reference? (h : place.reference? = some reference) :
    reference.rule = place.rule ∧ reference.opcode = place.opcode := by
  obtain ⟨rule, opcode, a⟩ := place
  cases a with
  | ruleName | backReference =>
    cases h
    exact ⟨rfl, rfl⟩
  | _ => cases h

/-- A reference is looked up. -/
theorem Settles.patch (h : Settles names udts rules messages t) (hstands : Stands rules place)
    (hreference : place.reference? = some reference) :
    ∃ t', t.patch reference = .ok t' ∧ Settles names udts (settleIn names rules place)
      (messages ++ ((place.atom.referenceFlaw? names).map
        (Prod.map id MeaningFlaw.message)).toList) t' := by
  obtain ⟨rule, hrule, hlt⟩ := hstands
  obtain ⟨hsame, hsame'⟩ := place_of_reference? hreference
  rw [referenceFlaw?_eq hreference]
  cases hfound : place.atom.found? names with
  | some op =>
    have hresolve := (h.resolve hreference).trans hfound
    have hfetch : fetch t.rules reference.rule = .ok rule := by
      rw [fetch_eq_ok, h.table, hsame, List.getElem?_toArray, hrule]
    have hfetch' : fetch rule.opcodes reference.opcode = .ok rule.opcodes[place.opcode] := by
      rw [fetch_eq_ok, hsame', Array.getElem?_eq_getElem hlt]
    have hsettle : (fun rule : Rule =>
        { rule with opcodes := rule.opcodes.setIfInBounds reference.opcode op }) =
        fun rule => rule.withOpcodes
          (settle names rule.opcodes.toList (place.opcode, place.atom)) := by
      funext rule
      simp [settle, hfound, Rule.withOpcodes, hsame', ← Array.toList_setIfInBounds]
    refine ⟨{ t with rules := t.rules.modify reference.rule fun rule =>
      { rule with opcodes := rule.opcodes.setIfInBounds reference.opcode op } }, ?_, ?_, h.ruleNames,
      h.udts, h.udtNames, by simp [h.flaws]⟩
    · simp only [Translator.patch, hresolve, hfetch, hfetch', bind, Except.bind, pure, Except.pure]
    · rw [h.table, hsame, hsettle, List.modify_toArray]
      rfl
  | none =>
    have hresolve := (h.resolve hreference).trans hfound
    refine ⟨t.note reference.offset reference.flaw.message, ?_, ?_⟩
    · rw [Translator.patch, hresolve]
    · rw [settleIn_of_found?_eq_none hfound]
      exact ⟨h.table, h.ruleNames, h.udts, h.udtNames, by simp [Translator.note, h.flaws]⟩

/-- All references are looked up. -/
theorem Settles.foldlM_patch (h : Settles names udts rules messages t)
    (hstands : ∀ place ∈ placed, Stands rules place) :
    ∃ t', (placed.filterMap Placed.reference?).foldlM Translator.patch t = .ok t' ∧
      Settles names udts (placed.foldl (settleIn names) rules)
        (messages ++ ((placed.map Placed.atom).filterMap (Atom.referenceFlaw? names)).map
          (Prod.map id MeaningFlaw.message)) t' := by
  induction placed generalizing rules messages t with
  | nil => exact ⟨t, rfl, by simpa using h⟩
  | cons place placed ih =>
    obtain ⟨hfirst, hmore⟩ := List.forall_mem_cons.1 hstands
    have hlater : ∀ other ∈ placed, Stands (settleIn names rules place) other :=
      fun other hother => (hmore other hother).settleIn
    rw [List.foldl_cons, List.map_cons]
    cases hreference : place.reference? with
    | some reference =>
      obtain ⟨t₁, hpatch, hsettles⟩ := h.patch hfirst hreference
      obtain ⟨t', hfold, hsettles'⟩ := ih hsettles hlater
      refine ⟨t', ?_, ?_⟩
      · rw [List.filterMap_cons_some hreference, List.foldlM_cons, hpatch]
        exact hfold
      · cases hflaw : place.atom.referenceFlaw? names <;> simpa [hflaw] using hsettles'
    | none =>
      obtain ⟨hfound, hflaw⟩ := found?_of_reference?_eq_none names hreference
      rw [settleIn_of_found?_eq_none hfound, List.filterMap_cons_none hreference,
        List.filterMap_cons_none hflaw]
      exact ih h hmore

/-! ## The end of the text -/

variable {entries : List Entry}

/-- The opcode of every atom of some entries is there. -/
theorem Booked.stands (h : Booked entries placed) (f : Atom → Opcode) :
    ∀ place ∈ placed, Stands (rulesOf f entries) place := by
  intro place hplace
  have hbelow : place.rule < entries.length := h.below place hplace
  have hrule : entries[place.rule]? = some entries[place.rule] := List.getElem?_eq_getElem hbelow
  have hmem : (place.opcode, place.atom) ∈ placesIn placed place.rule :=
    List.mem_map.2 ⟨place, List.mem_filter.2 ⟨hplace, beq_self_eq_true _⟩, rfl⟩
  rw [h.places _ _ hrule] at hmem
  have hlt := Expr.lt_of_mem_placedFrom _ hmem
  refine ⟨_, by rw [getElem?_rulesOf, hrule]; rfl, ?_⟩
  simpa [Entry.opcodes, Expr.length_layoutFrom] using hlt

/-- When all lines are read, their entries are laid out with what all atoms stand for, and the messages
about the references follow the others. -/
theorem Holds.resolveReferences (names : Names)
    (h : Holds (rulesOf (Atom.draft names.udts) entries) placed messages t)
    (hbooked : Booked entries placed) (hrules : names.rules = entries.map Entry.lower)
    (hudts : names.udts = udtNamesIn (placed.map Placed.atom)) :
    ∃ t', t.resolveReferences = .ok t' ∧
      Settles names (udtTable (placed.map Placed.atom)) (rulesOf (Atom.resolve names) entries)
        (messages ++ ((placed.map Placed.atom).filterMap (Atom.referenceFlaw? names)).map
          (Prod.map id MeaningFlaw.message)) t' := by
  have hbegun : Settles names (udtTable (placed.map Placed.atom))
      (rulesOf (Atom.draft names.udts) entries) messages { t with references := [] } := by
    refine ⟨h.table, fun name => ?_, h.udts, fun name => ?_, h.flaws⟩
    · rw [hrules, ← map_lower_rulesOf]
      exact h.ruleNames name
    · rw [hudts]
      exact h.udtNames name
  obtain ⟨t', hfold, hsettles⟩ := hbegun.foldlM_patch (hbooked.stands _)
  rw [foldl_settleIn hbooked] at hsettles
  refine ⟨t', ?_, hsettles⟩
  rw [Translator.resolveReferences, h.references]
  exact hfold

end Translation

end Abnf
