import Abnf.Proofs.Translation.Alternatives
import Abnf.Proofs.Translation.Entries

/-!
# Lines

A line to which there is an objection leaves a message and is passed over. Any other line enters its
name or finds it entered, and fills its alternatives into the choice at the root of the rule.

* `Collects`: what a translator has collected from the lines that contribute.
* `exists_walks_line`: what one line adds.
* `exists_walks_lines`: what all lines add.
-/

namespace Abnf.Translation

open Metagrammar Definition Tables

variable {source : Source} {total : List Atom} {rules : List Rule} {placed : List Placed}
  {messages : List (Nat × String)} {t : Translator} {r pos n : Nat}

/-! ## The root of a rule -/

namespace Entry

variable (f : Atom → Opcode) (es : List (Expr Atom)) (entry : Entry)

theorem length_opcodes : (entry.opcodes f).length = 1 + Expr.sizeAll entry.body := by
  rw [opcodes, Expr.length_layoutFrom, Expr.size_map, Expr.size, Nat.add_comm]

/-- More alternatives are laid out behind the others, and added to the root. -/
theorem opcodes_extend : (entry.extend es).opcodes f =
    (entry.opcodes f).modify 0
        (Opcode.adopt (Expr.starts (entry.opcodes f).length es)) ++
      Expr.layoutAllFrom (entry.opcodes f).length (Expr.mapAll f es) := by
  rw [length_opcodes]
  simp [opcodes, extend, Expr.map, Expr.layoutFrom, Opcode.adopt, Expr.mapAll_append,
    Expr.starts_append, Expr.layoutAllFrom_append]

end Entry

/-! ## The head of a line -/

/-- The sign of a line. -/
def signOf (incremental : Bool) : Sign :=
  if incremental then .incremental else .defined

/-- The walk over the name and the sign of a line. -/
theorem walks_head {name sign : Node} {symbol : Symbol} (hname : IsPhrase .ruleName name)
    (hsymbol : symbol ∈ [Symbol.incAlt, .defined]) (hsign : IsPhrase symbol sign)
    (hfits : Fits source name) (t : Translator) :
    Walks source [name, sign] t { t with
      ruleName := source.phrase name.offset name.length
      ruleOffset := name.offset
      sign := some (signOf (decide (symbol = .incAlt))) } := by
  obtain ⟨pos, n, rfl⟩ := hname
  obtain ⟨pos', n', rfl⟩ := hsign
  have hfit : pos + n ≤ source.bytes.size := hfits
  have hnamed : t.call source pos n .ruleName .post =
      .ok { t with ruleName := source.phrase pos n, ruleOffset := pos } := by
    simp only [Translator.call, slice_eq hfit, bind, Except.bind, pure, Except.pure]
  refine (walks_phrase (by decide) rfl .nil hnamed).cons ?_
  rcases List.mem_pair.1 hsymbol with rfl | rfl <;> exact walks_phrase (by decide) rfl .nil rfl

/-- What is known of a translator that has read the head of a line. -/
structure Heads (definition : Definition) (t : Translator) : Prop where
  sign : t.sign = some (signOf definition.incremental)
  ruleName : t.ruleName = definition.name
  ruleOffset : t.ruleOffset = definition.offset
  levels : t.levels = []

section

variable {definition : Definition}

theorem objection?_eq_some_iff {known : List String} {flaw : MeaningFlaw} :
    definition.objection? known = some flaw ↔
      (definition.incremental = false ∧ definition.lower ∈ known ∧
        flaw = .redefined definition.name) ∨
      (definition.incremental = true ∧ definition.lower ∉ known ∧
        flaw = .notYetDefined definition.name) := by
  rw [Definition.objection?, ← List.contains_iff_mem]
  cases definition.incremental <;> cases known.contains definition.lower <;> simp [eq_comm]

theorem objection?_eq_none_iff {known : List String} :
    definition.objection? known = none ↔
      (definition.incremental = false ∧ definition.lower ∉ known) ∨
      (definition.incremental = true ∧ definition.lower ∈ known) := by
  rw [Definition.objection?, ← List.contains_iff_mem]
  cases definition.incremental <;> cases known.contains definition.lower <;> simp

theorem Heads.sign_eq (h : Heads definition t) {incremental : Bool}
    (hsign : definition.incremental = incremental) : t.sign = some (signOf incremental) :=
  hsign ▸ h.sign

/-- A line to which there is an objection leaves a message and loses its sign. -/
theorem Holds.enterRule_objection (h : Holds rules placed messages t) (hhead : Heads definition t)
    {flaw : MeaningFlaw} (hflaw : definition.objection? (rules.map Rule.lower) = some flaw) :
    t.enterRule.sign = none ∧
      Holds rules placed (messages ++ [(definition.offset, flaw.message)]) t.enterRule := by
  have hnames : t.ruleNames[lowerName definition.name]? =
      (rules.map Rule.lower).idxOf? definition.lower :=
    h.ruleNames definition.lower
  have hnote : t.enterRule =
      { t with ruleName := "", sign := none }.note definition.offset flaw.message := by
    obtain ⟨hsign, hknown, rfl⟩ | ⟨hsign, hunknown, rfl⟩ := objection?_eq_some_iff.1 hflaw
    · obtain ⟨i, hi⟩ := Option.isSome_iff_exists.1 (List.isSome_idxOf?.2 hknown)
      simp only [Translator.enterRule, hhead.ruleName, hhead.ruleOffset, hhead.sign_eq hsign, hnames,
        hi]
      rfl
    · simp only [Translator.enterRule, hhead.ruleName, hhead.ruleOffset, hhead.sign_eq hsign, hnames,
        List.idxOf?_eq_none_iff.2 hunknown]
      rfl
  rw [hnote]
  exact ⟨rfl, (h.keep ..).note ..⟩

/-- A line that defines a new name enters a rule without opcodes. -/
theorem Holds.enterRule_defined (h : Holds rules placed messages t) (hhead : Heads definition t)
    (hsign : definition.incremental = false) (hnew : definition.lower ∉ rules.map Rule.lower) :
    t.enterRule.current = some rules.length ∧ t.enterRule.sign = some .defined ∧
      t.enterRule.levels = [] ∧
      Holds (rules ++ [⟨definition.name, rules.length, #[]⟩]) placed messages t.enterRule := by
  have hnames : t.ruleNames[lowerName definition.name]? = none :=
    (h.ruleNames definition.lower).trans (List.idxOf?_eq_none_iff.2 hnew)
  have hsigned : t.sign = some .defined := hhead.sign_eq hsign
  have hsize : t.rules.size = rules.length := by rw [h.table, List.size_toArray]
  have henter : t.enterRule = { t with
      ruleName := ""
      rules := t.rules.push ⟨definition.name, rules.length, #[]⟩
      ruleNames := t.ruleNames.insert definition.lower (rules.map Rule.lower).length
      current := some rules.length } := by
    simp only [Translator.enterRule, hhead.ruleName, hsigned, hnames, hsize, List.length_map]
    rfl
  rw [henter]
  refine ⟨rfl, hsigned, hhead.levels, ?_, fun name => ?_, h.udts, h.udtNames, h.references, h.flaws⟩
  · rw [h.table, List.push_toArray]
  · rw [List.map_append]
    exact getElem?_insert_of_notMem h.ruleNames hnew name

/-- A line that extends a name finds its rule. -/
theorem Holds.enterRule_incremental (h : Holds rules placed messages t) (hhead : Heads definition t)
    (hsign : definition.incremental = true)
    (hr : (rules.map Rule.lower).idxOf? definition.lower = some r) :
    t.enterRule.current = some r ∧ t.enterRule.sign = some .incremental ∧
      t.enterRule.levels = [] ∧ Holds rules placed messages t.enterRule := by
  have hnames : t.ruleNames[lowerName definition.name]? = some r :=
    (h.ruleNames definition.lower).trans hr
  have hsigned : t.sign = some .incremental := hhead.sign_eq hsign
  have henter : t.enterRule = { t with ruleName := "", current := some r } := by
    simp only [Translator.enterRule, hhead.ruleName, hsigned, hnames]
  rw [henter]
  exact ⟨rfl, hsigned, hhead.levels, h.keep ..⟩

end

/-! ## The alternatives of a line -/

/-- The alternatives of a line are added to the entry whose rule is being built, once the choice at its
root is there. -/
theorem exists_walks_alternation (pos n : Nat) {nodes : List Node} {page : Page} {entry : Entry} {t₁ : Translator}
    (harranged : Arranged source .choice nodes) (hwithin : Within source nodes)
    (hr : r < rules.length) (hsound : ∀ a ∈ total, a.Sound) (hsign : t.sign ≠ none)
    (hbegin : t.beginAlternation = .ok t₁) (h : Writes rules r page t₁)
    (hlevels : page.levels = [⟨0, 0⟩])
    (hopcodes : page.opcodes = entry.opcodes (Atom.draft (udtNamesIn total)))
    (hinitial : page.placed.map Placed.atom ++
      Expr.atomsAll (readAlternatives source nodes) <+: total) :
    ∃ t', Walks source [.mk Symbol.alternation.index pos n nodes] t t' ∧
      Holds (rules.modify r (Rule.withOpcodes
          ((entry.extend (readAlternatives source nodes)).opcodes (Atom.draft (udtNamesIn total)))))
        (page.placed ++ (Expr.placedAllFrom (1 + Expr.sizeAll entry.body)
          (readAlternatives source nodes)).map fun place => ⟨r, place.1, place.2⟩)
        (page.messages ++ (Expr.atomsAll (readAlternatives source nodes)).flatMap Atom.messages)
        t' := by
  have hlength : page.opcodes.length = 1 + Expr.sizeAll entry.body := by
    rw [hopcodes, Entry.length_opcodes]
  obtain ⟨t₂, _, hwalks, hfilled⟩ := translated_of_arranged harranged hwithin hr hsound page t₁ h _ _
    hlevels (by rw [hlength]; exact Nat.lt_add_right _ Nat.one_pos) hinitial
  refine ⟨_, .node (visit_alternation hsign hbegin) hwalks (visit_alternation hfilled.sign rfl) .nil,
    ?_⟩
  rw [Entry.opcodes_extend, ← hopcodes, ← hlength]
  exact (hfilled.withLevels t₂.levels.tail).holds

/-! ## One line -/

/-- The names that some lines define. -/
def known (lines : List Definition) : List String :=
  (defining lines).map Definition.lower

/-- What a translator has collected from lines to none of which there is an objection: their rules are
laid out with drafts, the atoms stand in their places, and every line belongs to a rule. -/
structure Collects (total : List Atom) (lines : List Definition) (placed : List Placed)
    (messages : List (Nat × String)) (t : Translator) : Prop where
  holds : Holds (rulesOf (Atom.draft (udtNamesIn total)) (entriesOf lines)) placed messages t
  booked : Booked (entriesOf lines) placed
  atoms : placed.map Placed.atom = lines.flatMap Definition.atoms
  nodup : (known lines).Nodup
  closed : ∀ line ∈ lines, line.lower ∈ known lines

variable {lines : List Definition} {line : Node} {definition : Definition}

theorem map_lower_rulesOf_entriesOf (f : Atom → Opcode) (lines : List Definition) :
    (rulesOf f (entriesOf lines)).map Rule.lower = known lines := by
  rw [map_lower_rulesOf, map_lower_entriesOf]
  rfl

theorem known_concat : known (lines ++ [definition]) =
    known lines ++ if definition.incremental then [] else [definition.lower] := by
  cases hsign : definition.incremental <;> simp [known, defining, hsign]

theorem nodup_known_concat (hnone : definition.objection? (known lines) = none)
    (h : (known lines).Nodup) : (known (lines ++ [definition])).Nodup := by
  rw [known_concat]
  rcases objection?_eq_none_iff.1 hnone with ⟨hsign, hnew⟩ | ⟨hsign, -⟩
  · simpa [hsign] using h.concat hnew
  · simpa [hsign] using h

theorem closed_known_concat (hnone : definition.objection? (known lines) = none)
    (h : ∀ line ∈ lines, line.lower ∈ known lines) :
    ∀ line ∈ lines ++ [definition], line.lower ∈ known (lines ++ [definition]) := by
  rw [known_concat]
  intro line hline
  rcases List.mem_append.1 hline with hline | hline
  · exact List.mem_append_left _ (h line hline)
  · rw [List.mem_singleton.1 hline]
    rcases objection?_eq_none_iff.1 hnone with ⟨hsign, -⟩ | ⟨-, hknown⟩
    · simp [hsign]
    · exact List.mem_append_left _ hknown

/-- The walk over a line goes on with its alternatives when the name has been entered. -/
theorem exists_walks_rule (pos n m : Nat) (body : Node) {name sign : Node} {symbol : Symbol}
    (hname : IsPhrase .ruleName name) (hsymbol : symbol ∈ [Symbol.incAlt, .defined])
    (hsign : IsPhrase symbol sign) (hfits : Fits source name)
    (h : Holds rules placed messages t) (alternatives : List (Expr Atom)) :
    ∃ t₁, Heads ⟨name.offset, source.phrase name.offset name.length,
        decide (Atom.symbol? sign = some .incAlt), alternatives⟩ t₁ ∧
      Holds rules placed messages t₁ ∧
      ∀ t', Walks source [body] t₁.enterRule t' →
        Walks source [.mk Symbol.rule.index pos n
          [.mk Symbol.ruleLookup.index pos m [name, sign], body]] t t' := by
  let begun : Translator := { t with levels := [], sign := none, current := none }
  let t₁ : Translator := { begun with
    ruleName := source.phrase name.offset name.length
    ruleOffset := name.offset
    sign := some (signOf (decide (symbol = .incAlt))) }
  have hhead : Walks source [name, sign] begun t₁ := walks_head hname hsymbol hsign hfits begun
  refine ⟨t₁, ⟨?_, rfl, rfl, rfl⟩, h.keep .., fun t' hbody => ?_⟩
  · simp only [t₁, hsign.symbol?, Option.some.injEq]
  · have hbegin : t.call source pos n .rule .pre = .ok begun := rfl
    have hlookup : Walks source [.mk Symbol.ruleLookup.index pos m [name, sign]] begun t₁.enterRule :=
      walks_phrase (by decide) rfl hhead rfl
    exact walks_phrase (by decide) hbegin (hlookup.cons hbody) rfl

/-- When a line to which there is no objection has entered its name, its alternatives are added to the
entry of this name. -/
theorem Collects.begin (h : Collects total lines placed messages t) {t₁ : Translator}
    (hholds : Holds (rulesOf (Atom.draft (udtNamesIn total)) (entriesOf lines)) placed messages t₁)
    (hhead : Heads definition t₁) (hnone : definition.objection? (known lines) = none) :
    ∃ entries r entry t₂, entries[r]? = some entry ∧
      entriesOf (lines ++ [definition]) = entries.modify r (Entry.extend definition.alternatives) ∧
      Booked entries placed ∧ t₁.enterRule.sign ≠ none ∧ t₁.enterRule.beginAlternation = .ok t₂ ∧
      Writes (rulesOf (Atom.draft (udtNamesIn total)) entries) r
        ⟨entry.opcodes (Atom.draft (udtNamesIn total)), placed, messages, [⟨0, 0⟩]⟩ t₂ := by
  rcases objection?_eq_none_iff.1 hnone with ⟨hsign, hnew⟩ | ⟨hsign, hknown⟩
  · have hnew' := hnew
    rw [← map_lower_rulesOf_entriesOf (Atom.draft (udtNamesIn total))] at hnew'
    obtain ⟨hcurrent, hsigned, hlevels, hentered⟩ := hholds.enterRule_defined hhead hsign hnew'
    rw [length_rulesOf] at hcurrent hentered
    rw [← rulesOf_enter] at hentered
    have hwrites : Writes (rulesOf (Atom.draft (udtNamesIn total))
        (entriesOf lines ++ [Entry.mk definition.name []])) (entriesOf lines).length
        ⟨[], placed, messages, []⟩ t₁.enterRule :=
      ⟨hentered, hcurrent, by simp [hsigned], hlevels⟩
    obtain ⟨t₂, hbegin, hbegun⟩ := hwrites.beginAlternation
      (by simp [length_rulesOf]) (Or.inr (by simp [hsigned]))
    exact ⟨_, _, Entry.mk definition.name [], t₂, List.getElem?_concat_length,
      entriesOf_concat_defined hsign hnew h.closed, h.booked.enter _, hwrites.sign, hbegin, hbegun⟩
  · obtain ⟨r, hr⟩ := Option.isSome_iff_exists.1 (List.isSome_idxOf?.2 hknown)
    have hr' := hr
    rw [← map_lower_rulesOf_entriesOf (Atom.draft (udtNamesIn total))] at hr'
    obtain ⟨hcurrent, hsigned, hlevels, hentered⟩ := hholds.enterRule_incremental hhead hsign hr'
    have hlt : r < (entriesOf lines).length := by
      have := (List.idxOf?_eq_some_iff.1 hr).1
      simpa [known, entriesOf] using this
    have hentry : (entriesOf lines)[r]? = some (entriesOf lines)[r] := List.getElem?_eq_getElem hlt
    refine ⟨entriesOf lines, r, (entriesOf lines)[r],
      { t₁.enterRule with levels := [⟨0, 0⟩] }, hentry,
      entriesOf_concat_incremental hsign h.nodup hr, h.booked, by simp [hsigned], ?_,
      ⟨?_, hcurrent, by simp [hsigned], rfl⟩⟩
    · simp only [Translator.beginAlternation, hlevels, hsigned]
      rfl
    · rw [rulesOf_modify_opcodes hentry]
      exact hentered.keep ..

/-- What one line adds. -/
theorem exists_walks_line (hline : ArrangedLine source line)
    (hread : ofNode? source line = some definition) (hwithin : Within source [line])
    (hsound : ∀ a ∈ total, a.Sound) (h : Collects total lines placed messages t) :
    (∀ flaw, definition.objection? (known lines) = some flaw → ∃ t', Walks source [line] t t' ∧
      Collects total lines placed (messages ++ [(definition.offset, flaw.message)]) t') ∧
    (definition.objection? (known lines) = none →
      lines.flatMap Definition.atoms ++ definition.atoms <+: total →
      ∃ t' placed', Walks source [line] t t' ∧ Collects total (lines ++ [definition]) placed'
        (messages ++ definition.atoms.flatMap Atom.messages) t') := by
  obtain ⟨pos, n, m, name, sign, symbol, _, rfl, hname, hsymbol, hsign, pos', n', inner, rfl, -,
    hchoice⟩ := hline
  have hdefinition : definition = ⟨name.offset, source.phrase name.offset name.length,
      decide (Atom.symbol? sign = some .incAlt), readAlternatives source inner⟩ :=
    (Option.some.inj hread).symm
  have halternatives : definition.alternatives = readAlternatives source inner := by rw [hdefinition]
  have hlookup := hwithin.cons.2.1.cons
  have hfits : Fits source name := hlookup.2.1.fits name List.mem_cons_self
  have hinner : Within source inner := hlookup.2.2.cons.2.1
  obtain ⟨t₁, hhead, hholds, hwalks⟩ := exists_walks_rule pos n m
    (.mk Symbol.alternation.index pos' n' inner) hname hsymbol hsign hfits h.holds
    (readAlternatives source inner)
  rw [← hdefinition] at hhead
  constructor
  · intro flaw hflaw
    rw [← map_lower_rulesOf_entriesOf (Atom.draft (udtNamesIn total))] at hflaw
    obtain ⟨hunsigned, hnoted⟩ := hholds.enterRule_objection hhead hflaw
    refine ⟨t₁.enterRule, hwalks _ (.skip ?_ .nil), hnoted, h.booked, h.atoms, h.nodup, h.closed⟩
    simp [Translator.visit, Symbol.ofIndex?_index, hunsigned]
  · intro hnone hinitial
    obtain ⟨entries, r, entry, t₂, hentry, hentries, hbooked, hsigned, hbegin, hwrites⟩ :=
      h.begin hholds hhead hnone
    have hr : r < (rulesOf (Atom.draft (udtNamesIn total)) entries).length := by
      rw [length_rulesOf]
      exact (List.getElem?_eq_some_iff.1 hentry).1
    rw [← h.atoms, Definition.atoms, halternatives] at hinitial
    rw [halternatives] at hentries
    obtain ⟨t', hbody, hadded⟩ := exists_walks_alternation pos' n' hchoice hinner hr
      hsound hsigned hbegin hwrites rfl rfl hinitial
    rw [← rulesOf_modify hentry] at hadded
    refine ⟨t', placed ++ (Expr.placedAllFrom (1 + Expr.sizeAll entry.body)
      (readAlternatives source inner)).map fun place => ⟨r, place.1, place.2⟩, hwalks t' hbody,
      ?_, ?_, ?_, nodup_known_concat hnone h.nodup, closed_known_concat hnone h.closed⟩
    · rw [hentries, Definition.atoms, halternatives]
      exact hadded
    · rw [hentries]
      exact hbooked.extend hentry
    · simp [h.atoms, Definition.atoms, halternatives, Function.comp_def,
        ← Expr.map_snd_placedAllFrom (1 + Expr.sizeAll entry.body)]

/-! ## All lines -/

/-- The lines to which there is no objection when the names in `names` are defined before them. -/
def contributing (names : List String) (definitions : List Definition) : List Definition :=
  ((review names definitions).filter fun line => line.2.isNone).map Prod.fst

section

variable {names : List String} {rest : List Definition}

theorem review_cons_of_some {flaw : MeaningFlaw} (h : definition.objection? names = some flaw) :
    review names (definition :: rest) = (definition, some flaw) :: review names rest := by
  simp [review, h]

theorem review_cons_of_none (h : definition.objection? (known lines) = none) :
    review (known lines) (definition :: rest) =
      (definition, none) :: review (known (lines ++ [definition])) rest := by
  rw [known_concat]
  cases hsign : definition.incremental <;> simp [review, h, hsign]

theorem contributing_cons_of_some {flaw : MeaningFlaw}
    (h : definition.objection? names = some flaw) :
    contributing names (definition :: rest) = contributing names rest := by
  simp [contributing, review_cons_of_some h]

theorem contributing_cons_of_none (h : definition.objection? (known lines) = none) :
    contributing (known lines) (definition :: rest) =
      definition :: contributing (known (lines ++ [definition])) rest := by
  simp [contributing, review_cons_of_none h]

end

/-- What all lines add. -/
theorem exists_walks_lines {nodes : List Node} (hlines : ∀ node ∈ nodes, ArrangedLine source node)
    (hwithin : Within source nodes) (hsound : ∀ a ∈ total, a.Sound)
    (h : Collects total lines placed messages t)
    (hinitial : (lines ++ contributing (known lines) (nodes.filterMap (ofNode? source))).flatMap
      Definition.atoms <+: total) :
    ∃ t' placed', Walks source nodes t t' ∧
      Collects total (lines ++ contributing (known lines) (nodes.filterMap (ofNode? source))) placed'
        (messages ++ ((review (known lines) (nodes.filterMap (ofNode? source))).flatMap lineFlaws).map
          (Prod.map id MeaningFlaw.message)) t' := by
  induction nodes generalizing t lines placed messages with
  | nil =>
    refine ⟨t, placed, .nil, ?_⟩
    simpa [contributing, review] using h
  | cons node nodes ih =>
    obtain ⟨hline, hmore⟩ := List.forall_mem_cons.1 hlines
    obtain ⟨definition, hread, -⟩ := hline.renders
    obtain ⟨hobjected, hadded⟩ := exists_walks_line hline hread hwithin.head hsound h
    rw [List.filterMap_cons_some hread] at hinitial ⊢
    have hlater : Within source nodes := by
      obtain ⟨_, _, _, _⟩ := node
      exact hwithin.cons.2.2
    cases hobjection : definition.objection? (known lines) with
    | some flaw =>
      obtain ⟨t₁, hwalks, hcollects⟩ := hobjected flaw hobjection
      rw [contributing_cons_of_some hobjection] at hinitial ⊢
      obtain ⟨t', placed', hwalks', hcollects'⟩ := ih hmore hlater hcollects hinitial
      refine ⟨t', placed', hwalks.cons hwalks', ?_⟩
      simpa [review_cons_of_some hobjection, lineFlaws] using hcollects'
    | none =>
      rw [contributing_cons_of_none hobjection, List.append_cons] at hinitial ⊢
      have hfirst : lines.flatMap Definition.atoms ++ definition.atoms <+: total := by
        rw [List.flatMap_append, List.flatMap_append, List.flatMap_singleton] at hinitial
        exact (List.prefix_append _ _).trans hinitial
      obtain ⟨t₁, placed₁, hwalks, hcollects⟩ := hadded hobjection hfirst
      obtain ⟨t', placed', hwalks', hcollects'⟩ := ih hmore hlater hcollects hinitial
      refine ⟨t', placed', hwalks.cons hwalks', ?_⟩
      have hmessages : definition.atoms.flatMap Atom.messages =
          (definition.atoms.flatMap Atom.localFlaws).map (Prod.map id MeaningFlaw.message) :=
        List.map_flatMap.symm
      rw [hmessages] at hcollects'
      simpa [review_cons_of_none hobjection, lineFlaws] using hcollects'

end Abnf.Translation
