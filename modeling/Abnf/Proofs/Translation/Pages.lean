import Abnf.Proofs.Translation.Outline
import Abnf.Proofs.Translation.Translator

/-!
# What a translator has written

The state of a translator within a line, as lists: the opcodes of the rule that is being built, the
atoms that were read with the places of their opcodes, the messages, and the open levels. References
and the table of user-defined terminals follow from the atoms. Every primitive of the translator
changes these lists in one way, and succeeds.

* `udtTable`: the table of user-defined terminals that some atoms leave.
* `Holds`: what a translator has collected from all lines.
* `Writes`: what it has written of the rule that is being built.
-/

namespace Abnf

open Translation

/-! ## Changes within lists -/

section

variable {α : Type} {f : α → α}

theorem modify_append_left {i : Nat} {as bs : List α} (h : i < as.length) :
    (as ++ bs).modify i f = as.modify i f ++ bs := by
  induction as generalizing i with
  | nil => exact absurd h (Nat.not_lt_zero i)
  | cons a as ih =>
    cases i with
    | zero => rfl
    | succ i => exact congrArg (a :: ·) (ih (Nat.lt_of_succ_lt_succ h))

theorem modify_length_append (as : List α) (b : α) (bs : List α) :
    (as ++ b :: bs).modify as.length f = as ++ f b :: bs := by
  induction as with
  | nil => rfl
  | cons a as ih => exact congrArg (a :: ·) ih

end

/-! ## Atoms -/

namespace Atom

/-- The opcode that is pushed for an atom. A name that refers to a rule is not looked up yet. -/
def draft (udts : List String) : Atom → Opcode
  | ruleName .. => .rnm 0
  | backReference _ _ caseInsensitive => .bkr 0 false caseInsensitive
  | a => a.resolve ⟨[], udts⟩

/-- The reference that is kept for an atom whose opcode stands at some place. -/
def reference? (rule opcode : Nat) : Atom → Option Reference
  | ruleName offset name => some ⟨rule, opcode, name, offset, .rule⟩
  | backReference offset name caseInsensitive =>
    some ⟨rule, opcode, name, offset, .backReference caseInsensitive⟩
  | _ => none

/-- The messages about an atom by itself. -/
def messages (a : Atom) : List (Nat × String) :=
  a.localFlaws.map (Prod.map id MeaningFlaw.message)

end Atom

/-- A rule with other opcodes. -/
def Rule.withOpcodes (opcodes : List Opcode) (rule : Rule) : Rule :=
  { rule with opcodes := opcodes.toArray }

namespace Translation

/-- An atom and the place of its opcode. -/
structure Placed where
  rule : Nat
  opcode : Nat
  atom : Atom

/-- The reference that is kept for an atom in its place. -/
def Placed.reference? (placed : Placed) : Option Reference :=
  placed.atom.reference? placed.rule placed.opcode

theorem Placed.map_atom_concat (placed : List Placed) (r opcode : Nat) (a : Atom) :
    (placed ++ [Placed.mk r opcode a]).map Placed.atom = placed.map Placed.atom ++ [a] := by
  simp

theorem Placed.references_concat_udtName (placed : List Placed) (r opcode : Nat) (name : String)
    (empty : Bool) : (placed ++ [Placed.mk r opcode (.udtName name empty)]).filterMap
      Placed.reference? = placed.filterMap Placed.reference? := by
  simp [Placed.reference?, Atom.reference?]

/-! ## User-defined terminals -/

/-- The user-defined terminals that some atoms name, each once. -/
def udtsIn (atoms : List Atom) : List (String × Bool) :=
  firstByKey (fun udt => lowerName udt.1) [] (atoms.filterMap Atom.udt?)

/-- Their names, in the form in which names are compared. -/
def udtNamesIn (atoms : List Atom) : List String :=
  (udtsIn atoms).map fun udt => lowerName udt.1

/-- The table of the user-defined terminals that some atoms name. -/
def udtTable (atoms : List Atom) : Array Udt :=
  ((udtsIn atoms).zipIdx.map fun (udt, index) => (⟨udt.1, index, udt.2⟩ : Udt)).toArray

theorem firstByKey_concat {α : Type} {key : α → String} {seen : List String} {as : List α} {a : α} :
    firstByKey key seen (as ++ [a]) =
      firstByKey key seen as ++ if key a ∈ seen ∨ key a ∈ as.map key then [] else [a] := by
  induction as generalizing seen with
  | nil => simp [firstByKey]
  | cons b as ih =>
    rw [List.cons_append, firstByKey, firstByKey, ih, ih]
    by_cases hb : key b ∈ seen
    · have hiff : (key a ∈ seen ∨ key a ∈ (b :: as).map key) ↔ key a ∈ seen ∨ key a ∈ as.map key := by
        rw [List.map_cons, List.mem_cons]
        constructor
        · rintro (h | h | h)
          · exact Or.inl h
          · exact Or.inl (h ▸ hb)
          · exact Or.inr h
        · exact Or.imp_right Or.inr
      simp only [List.contains_iff_mem.2 hb, if_true, hiff]
    · have hiff : (key a ∈ key b :: seen ∨ key a ∈ as.map key) ↔
          key a ∈ seen ∨ key a ∈ (b :: as).map key := by
        rw [List.map_cons, List.mem_cons, List.mem_cons]
        tauto
      simp only [List.contains_iff_mem, hb, if_false, hiff, List.cons_append]

variable {atoms more total : List Atom} {a : Atom} {name : String} {empty : Bool} {i : Nat}

theorem mem_udtNamesIn_iff :
    lowerName name ∈ udtNamesIn atoms ↔
      lowerName name ∈ (atoms.filterMap Atom.udt?).map fun udt => lowerName udt.1 := by
  simp only [udtNamesIn, udtsIn, List.mem_map]
  constructor
  · rintro ⟨udt, hudt, hname⟩
    exact ⟨udt, Tables.mem_of_mem_firstByKey hudt, hname⟩
  · rintro ⟨udt, hudt, hname⟩
    have h : lowerName udt.1 ∈ (firstByKey (fun udt : String × Bool => lowerName udt.1) []
        (atoms.filterMap Atom.udt?)).map fun udt => lowerName udt.1 :=
      (Tables.key_mem_firstByKey hudt).resolve_left List.not_mem_nil
    rw [hname] at h
    exact List.mem_map.1 h

theorem udtsIn_concat_of_udt?_eq_none (h : a.udt? = none) : udtsIn (atoms ++ [a]) = udtsIn atoms := by
  simp [udtsIn, h]

theorem udtsIn_concat_udtName :
    udtsIn (atoms ++ [.udtName name empty]) =
      udtsIn atoms ++ if lowerName name ∈ udtNamesIn atoms then [] else [(name, empty)] := by
  have hudt : (Atom.udtName name empty).udt? = some (name, empty) := rfl
  rw [udtsIn, List.filterMap_append, List.filterMap_cons_some hudt, List.filterMap_nil,
    firstByKey_concat]
  simp only [List.not_mem_nil, false_or, mem_udtNamesIn_iff]
  rfl

theorem udtsIn_isPrefix : udtsIn atoms <+: udtsIn (atoms ++ more) := by
  induction more using List.reverseRecOn with
  | nil => simp
  | append_singleton more a ih =>
    refine ih.trans ?_
    rw [← List.append_assoc]
    cases hudt : a.udt? with
    | none => exact (udtsIn_concat_of_udt?_eq_none hudt).symm ▸ List.prefix_refl _
    | some udt =>
      cases a with
      | udtName name empty =>
        rw [udtsIn_concat_udtName]
        exact List.prefix_append _ _
      | _ => cases hudt

theorem udtNamesIn_isPrefix (h : atoms <+: total) : udtNamesIn atoms <+: udtNamesIn total := by
  obtain ⟨more, rfl⟩ := h
  exact udtsIn_isPrefix.map _

theorem idxOf?_of_isPrefix {names names' : List String} (h : names <+: names')
    (hi : names.idxOf? name = some i) : names'.idxOf? name = some i := by
  obtain ⟨more, rfl⟩ := h
  obtain ⟨hlt, hname, hfirst⟩ := List.idxOf?_eq_some_iff.1 hi
  refine List.idxOf?_eq_some_iff.2 ⟨by rw [List.length_append]; omega, ?_, fun j hj => ?_⟩
  · rwa [List.getElem_append_left hlt]
  · rw [List.getElem_append_left (Nat.lt_trans hj hlt)]
    exact hfirst j hj

/-- An entry whose name is known says whether it may be empty, as its name does. -/
theorem getElem?_udtTable (hsound : ∀ a ∈ atoms, a.Sound) (ha : (Atom.udtName name empty).Sound)
    (hi : (udtNamesIn atoms).idxOf? (lowerName name) = some i) :
    ∃ udt, (udtTable atoms)[i]? = some udt ∧ udt.empty = empty := by
  obtain ⟨hlt, hname, -⟩ := List.idxOf?_eq_some_iff.1 hi
  simp only [udtNamesIn, List.length_map] at hlt
  simp only [udtNamesIn, List.getElem_map] at hname
  have hget : (udtsIn atoms)[i]? = some (udtsIn atoms)[i] := List.getElem?_eq_getElem hlt
  obtain ⟨b, hb, hentry⟩ :=
    List.mem_filterMap.1 (Tables.mem_of_mem_firstByKey (List.mem_of_getElem? hget))
  refine ⟨⟨(udtsIn atoms)[i].1, i, (udtsIn atoms)[i].2⟩, ?_, ?_⟩
  · simp [udtTable, List.getElem?_zipIdx, hget]
  · cases b with
    | udtName name' empty' =>
      rw [Atom.udt?, Option.some.injEq] at hentry
      rw [← hentry] at hname ⊢
      exact Tables.empty_eq_of_lowerName (hsound _ hb) ha hname
    | _ => cases hentry

theorem udtTable_concat (h : lowerName name ∉ udtNamesIn atoms) :
    udtTable (atoms ++ [.udtName name empty]) =
      (udtTable atoms).push ⟨name, (udtTable atoms).size, empty⟩ := by
  simp [udtTable, udtsIn_concat_udtName, h, List.zipIdx_append]

/-- A map from names to their places in a list, when a new name is put behind the others. -/
theorem getElem?_insert_of_notMem {names : List String} {places : Std.HashMap String Nat}
    {new : String} (hplaces : ∀ name, places[name]? = names.idxOf? name) (hnew : new ∉ names)
    (name : String) : (places.insert new names.length)[name]? = (names ++ [new]).idxOf? name := by
  rw [Std.HashMap.getElem?_insert, hplaces]
  by_cases hname : new = name
  · subst hname
    simp only [beq_self_eq_true, if_true]
    refine (List.idxOf?_eq_some_iff.2 ⟨by simp, by simp, fun j hj hsame => hnew ?_⟩).symm
    rw [List.getElem_append_left hj] at hsame
    exact hsame ▸ List.getElem_mem hj
  · simp only [beq_iff_eq, hname, if_false]
    cases hfound : names.idxOf? name with
    | some i => exact (idxOf?_of_isPrefix (List.prefix_append _ _) hfound).symm
    | none =>
      rw [List.idxOf?_eq_none_iff] at hfound
      exact (List.idxOf?_eq_none_iff.2 (by simp [hfound, Ne.symm hname])).symm

/-! ## What is collected from all lines -/

/-- What a translator has collected: rules, the atoms in them with their places, and messages. -/
structure Holds (rules : List Rule) (placed : List Placed) (messages : List (Nat × String))
    (t : Translator) : Prop where
  table : t.rules = rules.toArray
  ruleNames : ∀ name, t.ruleNames[name]? = (rules.map Rule.lower).idxOf? name
  udts : t.udts = udtTable (placed.map Placed.atom)
  udtNames : ∀ name, t.udtNames[name]? = (udtNamesIn (placed.map Placed.atom)).idxOf? name
  references : t.references = placed.filterMap Placed.reference?
  flaws : t.flaws = messages

namespace Holds

variable {rules : List Rule} {placed : List Placed} {messages : List (Nat × String)}
  {t : Translator}

/-- What is collected does not depend on the line that is being read. -/
theorem keep (h : Holds rules placed messages t) (ruleName : String) (ruleOffset : Nat)
    (sign : Option Sign) (current : Option Nat) (levels : List Level) (registers : Registers) :
    Holds rules placed messages { t with
      ruleName := ruleName
      ruleOffset := ruleOffset
      sign := sign
      current := current
      levels := levels
      registers := registers } :=
  ⟨h.table, h.ruleNames, h.udts, h.udtNames, h.references, h.flaws⟩

theorem note (h : Holds rules placed messages t) (offset : Nat) (message : String) :
    Holds rules placed (messages ++ [(offset, message)]) (t.note offset message) :=
  ⟨h.table, h.ruleNames, h.udts, h.udtNames, h.references, congrArg (· ++ _) h.flaws⟩

/-- The name of a user-defined terminal that has an entry leaves nothing. The entry has the same name
and says the same of whether the terminal may be empty. -/
theorem udt_of_some (h : Holds rules placed messages t) (r opcode : Nat)
    (hsound : ∀ b ∈ placed.map Placed.atom, b.Sound) (ha : (Atom.udtName name empty).Sound)
    {index : Nat} (offset : Nat)
    (hknown : (udtNamesIn (placed.map Placed.atom)).idxOf? (lowerName name) = some index) :
    t.udt name empty offset = .ok (index, t) ∧
      udtNamesIn (placed.map Placed.atom ++ [.udtName name empty]) =
        udtNamesIn (placed.map Placed.atom) ∧
      Holds rules (placed ++ [Placed.mk r opcode (.udtName name empty)]) messages t := by
  have hmem : lowerName name ∈ udtNamesIn (placed.map Placed.atom) := by
    rw [← List.isSome_idxOf?, hknown]
    rfl
  have hudts : udtsIn (placed.map Placed.atom ++ [.udtName name empty]) =
      udtsIn (placed.map Placed.atom) := by
    rw [udtsIn_concat_udtName, if_pos hmem, List.append_nil]
  have hnames : udtNamesIn (placed.map Placed.atom ++ [.udtName name empty]) =
      udtNamesIn (placed.map Placed.atom) := by
    rw [udtNamesIn, udtNamesIn, hudts]
  refine ⟨?_, hnames, ⟨h.table, h.ruleNames, ?_, ?_, ?_, h.flaws⟩⟩
  · obtain ⟨udt, hudt, hempty⟩ := getElem?_udtTable hsound ha hknown
    rw [← h.udts] at hudt
    rw [← h.udtNames] at hknown
    simp only [Translator.udt, hknown, fetch_eq_ok.2 hudt, hempty, bind, Except.bind, pure,
      Except.pure, if_true]
  · rw [Placed.map_atom_concat, udtTable, hudts]
    exact h.udts
  · rw [Placed.map_atom_concat, hnames]
    exact h.udtNames
  · rw [Placed.references_concat_udtName, h.references]

/-- The name of a user-defined terminal that has no entry leaves one behind the others. -/
theorem udt_of_none (h : Holds rules placed messages t) (r opcode : Nat) (empty : Bool) (offset : Nat)
    (hknown : (udtNamesIn (placed.map Placed.atom)).idxOf? (lowerName name) = none) :
    ∃ t', t.udt name empty offset = .ok (t.udts.size, t') ∧
      (udtNamesIn (placed.map Placed.atom ++ [.udtName name empty])).idxOf? (lowerName name) =
        some t.udts.size ∧
      Holds rules (placed ++ [Placed.mk r opcode (.udtName name empty)]) messages t' ∧
      t'.current = t.current ∧ t'.sign = t.sign ∧ t'.levels = t.levels := by
  have hmem : lowerName name ∉ udtNamesIn (placed.map Placed.atom) :=
    List.idxOf?_eq_none_iff.1 hknown
  have hsize : t.udts.size = (udtNamesIn (placed.map Placed.atom)).length := by
    simp [h.udts, udtTable, udtNamesIn]
  have hnew : udtNamesIn (placed.map Placed.atom ++ [.udtName name empty]) =
      udtNamesIn (placed.map Placed.atom) ++ [lowerName name] := by
    rw [udtNamesIn, udtsIn_concat_udtName, if_neg hmem, List.map_append]
    rfl
  have hinsert := getElem?_insert_of_notMem h.udtNames hmem
  refine ⟨{ t with
      udts := t.udts.push ⟨name, t.udts.size, empty⟩
      udtNames := t.udtNames.insert (lowerName name) t.udts.size }, ?_, ?_,
    ⟨h.table, h.ruleNames, ?_, fun name' => ?_, ?_, h.flaws⟩, rfl, rfl, rfl⟩
  · rw [Translator.udt, h.udtNames, hknown]
  · rw [hnew, hsize, ← hinsert, Std.HashMap.getElem?_insert_self]
  · rw [Placed.map_atom_concat, udtTable_concat hmem, h.udts]
  · rw [Placed.map_atom_concat, hnew, hsize]
    exact hinsert name'
  · rw [Placed.references_concat_udtName, h.references]

/-- The name of a user-defined terminal leaves an entry if it is new. -/
theorem udt (h : Holds rules placed messages t) (r opcode : Nat)
    (hsound : ∀ b ∈ placed.map Placed.atom, b.Sound) (ha : (Atom.udtName name empty).Sound) (offset : Nat) :
    ∃ index t', t.udt name empty offset = .ok (index, t') ∧
      (udtNamesIn (placed.map Placed.atom ++ [.udtName name empty])).idxOf? (lowerName name) =
        some index ∧
      Holds rules (placed ++ [Placed.mk r opcode (.udtName name empty)]) messages t' ∧
      t'.current = t.current ∧ t'.sign = t.sign ∧ t'.levels = t.levels := by
  cases hknown : (udtNamesIn (placed.map Placed.atom)).idxOf? (lowerName name) with
  | some index =>
    obtain ⟨hudt, hnames, hholds⟩ := h.udt_of_some r opcode hsound ha offset hknown
    exact ⟨index, t, hudt, by rw [hnames, hknown], hholds, rfl, rfl, rfl⟩
  | none => exact ⟨_, h.udt_of_none r opcode empty offset hknown⟩

end Holds

/-! ## What is written of one rule -/

/-- What is written within a line: the opcodes of the rule that is being built, all atoms so far with
their places, all messages so far, and the open levels. -/
structure Page where
  opcodes : List Opcode
  placed : List Placed
  messages : List (Nat × String)
  levels : List Level

/-- What a translator has written that builds rule `r` and has collected `rules`, apart from the
opcodes of this rule. -/
structure Writes (rules : List Rule) (r : Nat) (page : Page) (t : Translator) : Prop where
  holds : Holds (rules.modify r (Rule.withOpcodes page.opcodes)) page.placed page.messages t
  current : t.current = some r
  sign : t.sign ≠ none
  levels : t.levels = page.levels

theorem map_lower_modify (rules : List Rule) (r : Nat) (opcodes : List Opcode) :
    (rules.modify r (Rule.withOpcodes opcodes)).map Rule.lower = rules.map Rule.lower := by
  refine List.ext_getElem? fun i => ?_
  rw [List.getElem?_map, List.getElem?_map, List.getElem?_modify]
  by_cases hi : r = i
  · cases rules[i]? <;> simp [hi, Rule.lower, Rule.withOpcodes]
  · simp [hi]

namespace Writes

variable {rules : List Rule} {r : Nat} {page : Page} {t : Translator}

theorem registers (h : Writes rules r page t) (registers : Registers) :
    Writes rules r page { t with registers := registers } :=
  ⟨h.holds.keep .., h.current, h.sign, h.levels⟩

theorem note (h : Writes rules r page t) (offset : Nat) (message : String) :
    Writes rules r { page with messages := page.messages ++ [(offset, message)] }
      (t.note offset message) :=
  ⟨h.holds.note offset message, h.current, h.sign, h.levels⟩

theorem fetch (h : Writes rules r page t) (hr : r < rules.length) :
    ∃ rule, Abnf.fetch t.rules r = .ok rule ∧ rule.opcodes = page.opcodes.toArray := by
  refine ⟨Rule.withOpcodes page.opcodes rules[r], fetch_eq_ok.2 ?_, rfl⟩
  simp [h.holds.table, hr]

/-- A change of the opcodes of the rule that is being built. -/
theorem modify (h : Writes rules r page t) {f : Array Opcode → Array Opcode}
    {opcodes : List Opcode} (hf : f page.opcodes.toArray = opcodes.toArray) :
    Writes rules r { page with opcodes := opcodes } { t with
      rules := t.rules.modify r fun rule => { rule with opcodes := f rule.opcodes } } := by
  refine ⟨⟨?_, fun name => ?_, h.holds.udts, h.holds.udtNames, h.holds.references, h.holds.flaws⟩,
    h.current, h.sign, h.levels⟩
  · have hrule : (fun rule : Rule => { rule with opcodes := f rule.opcodes }) ∘
        Rule.withOpcodes page.opcodes = Rule.withOpcodes opcodes := by
      funext rule
      simp [Rule.withOpcodes, hf]
    rw [h.holds.table, List.modify_toArray, List.modify_modify_eq, hrule]
  · rw [map_lower_modify]
    exact (h.holds.ruleNames name).trans (by rw [map_lower_modify])

theorem push (h : Writes rules r page t) (hr : r < rules.length) (op : Opcode) :
    ∃ t', t.push op = .ok (page.opcodes.length, t') ∧ t'.registers = t.registers ∧
      Writes rules r { page with opcodes := page.opcodes ++ [op] } t' := by
  obtain ⟨rule, hfetch, hopcodes⟩ := h.fetch hr
  refine ⟨_, ?_, ?_, h.modify (f := (·.push op)) (List.push_toArray ..)⟩
  · simp only [Translator.push, h.current, hfetch, hopcodes, bind, Except.bind, pure, Except.pure,
      List.size_toArray]
  · rfl

theorem emit (h : Writes rules r page t) (hr : r < rules.length) (op : Opcode) :
    ∃ t', t.emit op = .ok t' ∧ t'.registers = t.registers ∧
      Writes rules r { page with opcodes := page.opcodes ++ [op] } t' := by
  obtain ⟨t', hpush, hregisters, hwrites⟩ := h.push hr op
  refine ⟨t', ?_, hregisters, hwrites⟩
  simp only [Translator.emit, hpush, bind, Except.bind, pure, Except.pure]

theorem nextIndex (h : Writes rules r page t) (hr : r < rules.length) :
    t.nextIndex = .ok page.opcodes.length := by
  obtain ⟨rule, hfetch, hopcodes⟩ := h.fetch hr
  simp only [Translator.nextIndex, h.current, hfetch, hopcodes, bind, Except.bind, pure,
    Except.pure, List.size_toArray]

theorem opcode? (h : Writes rules r page t) (hr : r < rules.length) (i : Nat) :
    t.opcode? i = .ok page.opcodes[i]? := by
  obtain ⟨rule, hfetch, hopcodes⟩ := h.fetch hr
  simp only [Translator.opcode?, h.current, hfetch, hopcodes, bind, Except.bind, pure, Except.pure,
    List.getElem?_toArray]

theorem change (h : Writes rules r page t) (hr : r < rules.length) (i : Nat)
    (f : Opcode → Opcode) :
    ∃ t', t.change i f = .ok t' ∧ t'.registers = t.registers ∧
      Writes rules r { page with opcodes := page.opcodes.modify i f } t' := by
  obtain ⟨rule, hfetch, -⟩ := h.fetch hr
  refine ⟨_, ?_, ?_, h.modify (f := (·.modify i f)) (List.modify_toArray ..)⟩
  · simp only [Translator.change, h.current, hfetch, bind, Except.bind, pure, Except.pure]
  · rfl

/-! ## Atoms in their places -/

/-- An atom that names no user-defined terminal leaves a reference at most. -/
theorem place (h : Writes rules r page t) {a : Atom} (hudt : a.udt? = none) (i : Nat) :
    Writes rules r { page with placed := page.placed ++ [Placed.mk r i a] }
      { t with references := t.references ++ (a.reference? r i).toList } := by
  have hudts : udtsIn ((page.placed ++ [Placed.mk r i a]).map Placed.atom) =
      udtsIn (page.placed.map Placed.atom) := by
    rw [List.map_append]
    exact udtsIn_concat_of_udt?_eq_none hudt
  refine ⟨⟨h.holds.table, h.holds.ruleNames, ?_, ?_, ?_, h.holds.flaws⟩, h.current, h.sign, h.levels⟩
  · rw [udtTable, hudts]
    exact h.holds.udts
  · rw [udtNamesIn, hudts]
    exact h.holds.udtNames
  · cases hreference : a.reference? r i <;>
      simp [h.holds.references, Placed.reference?, hreference]

/-- An atom that is not looked up by its name leaves nothing. -/
theorem place_plain (h : Writes rules r page t) {a : Atom} {i : Nat} (hudt : a.udt? = none)
    (hreference : a.reference? r i = none) :
    Writes rules r { page with placed := page.placed ++ [Placed.mk r i a] } t := by
  have hplace := h.place hudt i
  rwa [hreference, Option.toList_none, List.append_nil] at hplace

/-- The name of a rule leaves a reference. -/
theorem refer (h : Writes rules r page t) {a : Atom} {i offset : Nat} {name : String}
    {kind : ReferenceKind} (hudt : a.udt? = none)
    (hreference : a.reference? r i = some ⟨r, i, name, offset, kind⟩) :
    Writes rules r { page with placed := page.placed ++ [Placed.mk r i a] }
      (t.refer i name offset kind) := by
  have hrefer : t.refer i name offset kind =
      { t with references := t.references ++ [⟨r, i, name, offset, kind⟩] } := by
    rw [Translator.refer, h.current]
  have hplace := h.place hudt i
  rwa [hreference, Option.toList_some, ← hrefer] at hplace

/-- The name of a user-defined terminal leaves an entry if it is new. -/
theorem udt (h : Writes rules r page t) {total : List Atom} {name : String} {empty : Bool}
    (hinitial : page.placed.map Placed.atom ++ [.udtName name empty] <+: total)
    (hsound : ∀ a ∈ total, a.Sound) (i offset : Nat) :
    ∃ index t', t.udt name empty offset = .ok (index, t') ∧
      (Atom.udtName name empty).draft (udtNamesIn total) = .udt index empty ∧
      Writes rules r { page with placed := page.placed ++ [Placed.mk r i (.udtName name empty)] }
        t' := by
  obtain ⟨index, t', hcall, hindex, hholds, hcurrent, hsign, hlevels⟩ := h.holds.udt r i
    (fun a ha => hsound a (hinitial.subset (List.mem_append_left _ ha)))
    (hsound _ (hinitial.subset (List.mem_append_right _ (List.mem_singleton_self _)))) offset
  refine ⟨index, t', hcall, ?_, ⟨hholds, hcurrent.trans h.current, ?_, hlevels.trans h.levels⟩⟩
  · have hfound : (Names.mk [] (udtNamesIn total)).udt? name = some index :=
      idxOf?_of_isPrefix (udtNamesIn_isPrefix hinitial) hindex
    show Opcode.udt (((Names.mk [] (udtNamesIn total)).udt? name).getD 0) empty = _
    rw [hfound, Option.getD_some]
  · rw [hsign]
    exact h.sign

end Writes

end Translation

end Abnf
