import Abnf.Proofs.Metagrammar.Postorder
import Abnf.Proofs.Translation.Pages

/-!
# Phrases of atoms

Over the phrase of a leaf or an operator, with the phrases within it, the translator pushes the opcode
of one atom, keeps the reference that the atom has, and notes the flaws of the atom by itself.

* `Page.take`: what is written for an atom.
* `exists_walks_of_denotes`: the walk over the phrase of an atom writes this.
-/

namespace Abnf

open Metagrammar

namespace Translation

variable {source : Source} {s : Symbol} {pos n : Nat} {inner nodes : List Node} {rules : List Rule}
  {r : Nat} {page : Page} {t t₁ t₂ t' : Translator}

/-! ## One phrase -/

theorem visit_of_call {side : Visit} (hs : s ≠ .alternation)
    (h : t.call source pos n s side = .ok t') :
    t.visit source s.index side pos n = .ok (.proceed, t') := by
  simp only [Translator.visit, Symbol.ofIndex?_index, hs, false_and, if_false, h, bind, Except.bind,
    pure, Except.pure]

/-- A walk over a phrase, from its two calls and the walk over the phrases within it. -/
theorem walks_phrase (hs : s ≠ .alternation) (hpre : t.call source pos n s .pre = .ok t₁)
    (hinner : Walks source inner t₁ t₂) (hpost : t₂.call source pos n s .post = .ok t') :
    Walks source [.mk s.index pos n inner] t t' :=
  .node (visit_of_call hs hpre) hinner (visit_of_call hs hpost) .nil

/-- Whether a phrase lies within the text. -/
def Fits (source : Source) (node : Node) : Prop :=
  node.offset + node.length ≤ source.bytes.size

/-! ## Numerals -/

/-- The message about a numeral that takes more than 32 bits. -/
def numeralMessages (numeral : Numeral) : List (Nat × String) :=
  if numeral.fits then [] else [(numeral.offset, (MeaningFlaw.tooLarge numeral.digits).message)]

theorem messages_eq (a : Atom) : a.messages = a.numerals.flatMap numeralMessages ++
    (a.boundsFlaw?.map (Prod.map id MeaningFlaw.message)).toList := by
  have hnumerals : ∀ numerals : List Numeral,
      ((numerals.filter fun numeral => !numeral.fits).map fun numeral =>
        (numeral.offset, MeaningFlaw.tooLarge numeral.digits)).map
          (Prod.map id MeaningFlaw.message) = numerals.flatMap numeralMessages := by
    intro numerals
    induction numerals with
    | nil => rfl
    | cons numeral numerals ih =>
      rw [List.flatMap_cons, ← ih, List.filter_cons, numeralMessages]
      cases numeral.fits <;> rfl
  rw [Atom.messages, Atom.localFlaws, List.map_append, hnumerals]
  cases a.boundsFlaw? <;> rfl

/-- The numeral that is read at a phrase. -/
def numeralAt (source : Source) (base pos n : Nat) : Numeral :=
  ⟨pos, source.phrase pos n, base⟩

theorem numeralOf_eq (source : Source) (s : Symbol) (pos n : Nat) (nodes : List Node) :
    Atom.numeralOf source (.mk s.index pos n nodes) = numeralAt source (Atom.baseOf s) pos n := by
  rw [Atom.numeralOf, symbol?_mk]
  rfl

theorem slice_eq (hfits : pos + n ≤ source.bytes.size) :
    slice source pos n = .ok (source.phrase pos n) :=
  if_pos hfits

/-- A numeral that is read leaves a message if it does not fit. -/
theorem Writes.number (h : Writes rules r page t) (base : Nat)
    (hfits : pos + n ≤ source.bytes.size) :
    ∃ t', t.number source base pos n = .ok ((numeralAt source base pos n).word, t') ∧
      t'.registers = t.registers ∧
      Writes rules r { page with
        messages := page.messages ++ numeralMessages (numeralAt source base pos n) } t' := by
  have hnumber : t.number source base pos n = .ok ((numeralAt source base pos n).word,
      if (numeralAt source base pos n).fits then t
      else t.note pos (MeaningFlaw.tooLarge (source.phrase pos n)).message) := by
    simp only [Translator.number, slice_eq hfits, bind, Except.bind, pure, Except.pure]
    rfl
  refine ⟨_, hnumber, ?_, ?_⟩
  · split <;> rfl
  · rw [numeralMessages]
    split
    · simpa using h
    · exact h.note _ _

/-- A phrase whose numeral is kept in the registers. -/
theorem Writes.kept (h : Writes rules r page t) {base : Nat}
    (keep : UInt32 → Registers → Registers) (hs : s ≠ .alternation) (hpre : t.call source pos n s .pre = .ok t)
    (hpost : t.call source pos n s .post = do
      let (word, t) ← t.number source base pos n
      return { t with registers := keep word t.registers })
    (hfits : pos + n ≤ source.bytes.size) :
    ∃ t', Walks source [.mk s.index pos n []] t t' ∧
      t'.registers = keep (numeralAt source base pos n).word t.registers ∧
      Writes rules r { page with
        messages := page.messages ++ numeralMessages (numeralAt source base pos n) } t' := by
  obtain ⟨t₁, hnumber, hregisters, hwrites⟩ := h.number base hfits
  refine ⟨_, walks_phrase hs hpre .nil ?_, ?_, hwrites.registers
    (keep (numeralAt source base pos n).word t₁.registers)⟩
  · simp only [hpost, hnumber, bind, Except.bind, pure, Except.pure]
  · rw [hregisters]

/-! ## Strings and ranges -/

/-- The phrases of the characters of a string. -/
theorem Writes.chars (h : Writes rules r page t) {numeral : Symbol} (hs : numeral ∈ stringSymbols)
    (hnodes : ∀ node ∈ nodes, IsPhrase numeral node) (hfits : ∀ node ∈ nodes, Fits source node) :
    ∃ t', Walks source nodes t t' ∧
      t'.registers.string = t.registers.string ++
        (nodes.map (Atom.numeralOf source)).map Numeral.word ∧
      Writes rules r { page with
        messages := page.messages ++
          (nodes.map (Atom.numeralOf source)).flatMap numeralMessages } t' := by
  have hcalls : numeral ≠ .alternation ∧ ∀ (t : Translator) (pos n : Nat),
      t.call source pos n numeral .pre = .ok t ∧
        t.call source pos n numeral .post = t.pushChar source (Atom.baseOf numeral) pos n := by
    simp only [stringSymbols, List.mem_cons, List.not_mem_nil, or_false] at hs
    rcases hs with rfl | rfl | rfl <;> exact ⟨by decide, fun _ _ _ => ⟨rfl, rfl⟩⟩
  induction nodes generalizing t page with
  | nil => exact ⟨t, .nil, by simp, by simpa using h⟩
  | cons node nodes ih =>
    obtain ⟨⟨pos, n, rfl⟩, hmore⟩ := List.forall_mem_cons.1 hnodes
    obtain ⟨hfirst, hrest⟩ := List.forall_mem_cons.1 hfits
    obtain ⟨hpre, hpost⟩ := hcalls.2 t pos n
    obtain ⟨t₁, hwalks, hregisters, hwrites⟩ := h.kept
      (fun word registers => { registers with string := registers.string ++ [word] })
      hcalls.1 hpre hpost hfirst
    obtain ⟨t', hwalks', hstring', hwrites'⟩ := ih hwrites hmore hrest
    refine ⟨t', hwalks.cons hwalks', ?_, ?_⟩
    · simp [hstring', hregisters, numeralOf_eq]
    · simpa [numeralOf_eq] using hwrites'

/-- The phrases of the bounds of a range. -/
theorem Writes.bounds (h : Writes rules r page t) {low high : Symbol} {min max : Node}
    (hs : (low, high) ∈ rangeSymbols) (hmin : IsPhrase low min) (hmax : IsPhrase high max)
    (hfits : ∀ node ∈ [min, max], Fits source node) :
    ∃ t', Walks source [min, max] t t' ∧
      t'.registers.range = ((Atom.numeralOf source min).word, (Atom.numeralOf source max).word) ∧
      Writes rules r { page with
        messages := page.messages ++
          [Atom.numeralOf source min, Atom.numeralOf source max].flatMap numeralMessages } t' := by
  obtain ⟨pos, n, rfl⟩ := hmin
  obtain ⟨pos', n', rfl⟩ := hmax
  have hlow : pos + n ≤ source.bytes.size := hfits _ List.mem_cons_self
  have hhigh : pos' + n' ≤ source.bytes.size := hfits _ (List.mem_cons_of_mem _ List.mem_cons_self)
  have hcalls : low ≠ .alternation ∧ high ≠ .alternation ∧ ∀ (t : Translator) (pos n : Nat),
      t.call source pos n low .pre = .ok t ∧
        t.call source pos n low .post = t.setLow source (Atom.baseOf low) pos n ∧
        t.call source pos n high .pre = .ok t ∧
        t.call source pos n high .post = t.setHigh source (Atom.baseOf high) pos n := by
    simp only [rangeSymbols, List.mem_cons, List.not_mem_nil, or_false, Prod.mk.injEq] at hs
    rcases hs with ⟨rfl, rfl⟩ | ⟨rfl, rfl⟩ | ⟨rfl, rfl⟩ <;>
      exact ⟨by decide, by decide, fun _ _ _ => ⟨rfl, rfl, rfl, rfl⟩⟩
  obtain ⟨hpre, hpost, -, -⟩ := hcalls.2.2 t pos n
  obtain ⟨t₁, hwalks, hregisters, hwrites⟩ := h.kept
    (fun word registers => { registers with range := (word, registers.range.2) })
    hcalls.1 hpre hpost hlow
  obtain ⟨-, -, hpre', hpost'⟩ := hcalls.2.2 t₁ pos' n'
  obtain ⟨t', hwalks', hregisters', hwrites'⟩ := hwrites.kept
    (fun word registers => { registers with range := (registers.range.1, word) })
    hcalls.2.1 hpre' hpost' hhigh
  refine ⟨t', hwalks.cons hwalks', ?_, ?_⟩
  · simp [hregisters', hregisters, numeralOf_eq]
  · simpa [numeralOf_eq] using hwrites'

/-! ## Repetitions -/

section

variable {opcodes : List Opcode} {low : UInt32} {high : Option UInt32}

/-- The phrase of a bound of a repetition. -/
theorem Writes.bound (page : Page)
    (h : Writes rules r { page with opcodes := opcodes ++ [.rep low high] } t)
    (hr : r < rules.length) (hrepetition : t.registers.repetition = opcodes.length)
    (min max : UInt32 → Option UInt32) (hs : s ≠ .alternation)
    (hpre : t.call source pos n s .pre = .ok t)
    (hpost : t.call source pos n s .post = do
      let (word, t) ← t.number source 10 pos n
      t.setBounds (min word) (max word))
    (hfits : pos + n ≤ source.bytes.size) :
    ∃ t', Walks source [.mk s.index pos n []] t t' ∧
      t'.registers.repetition = opcodes.length ∧
      Writes rules r { page with
        opcodes := opcodes ++ [.rep ((min (numeralAt source 10 pos n).word).getD low)
          ((max (numeralAt source 10 pos n).word).or high)]
        messages := page.messages ++ numeralMessages (numeralAt source 10 pos n) } t' := by
  obtain ⟨t₁, hnumber, hregisters, hwrites⟩ := h.number 10 hfits
  obtain ⟨t', hset, hregisters', hwrites'⟩ := hwrites.change hr opcodes.length
    (Opcode.bound (min (numeralAt source 10 pos n).word) (max (numeralAt source 10 pos n).word))
  refine ⟨t', walks_phrase hs hpre .nil ?_, ?_, ?_⟩
  · rw [← hrepetition, ← hregisters] at hset
    simp only [hpost, hnumber, bind, Except.bind]
    exact hset
  · rw [hregisters', hregisters, hrepetition]
  · simpa only [modify_length_append, Opcode.bound] using hwrites'

/-- The end of the phrase of a repetition. -/
theorem Writes.endRepetition (page : Page)
    (h : Writes rules r { page with opcodes := opcodes ++ [.rep low high] } t)
    (hr : r < rules.length) (hrepetition : t.registers.repetition = opcodes.length) (pos : Nat) :
    ∃ t', t.endRepetition pos = .ok t' ∧
      Writes rules r { page with
        opcodes := opcodes ++ [.rep low high]
        messages := page.messages ++ high.elim [] fun high =>
          if high < low then [(pos, (MeaningFlaw.repetitionBounds low high).message)] else [] } t' := by
  have hopcode : t.opcode? t.registers.repetition = .ok (some (.rep low high)) := by
    rw [h.opcode? hr, hrepetition]
    simp
  cases high with
  | none =>
    refine ⟨t, ?_, by simpa using h⟩
    simp only [Translator.endRepetition, hopcode, bind, Except.bind, pure, Except.pure]
  | some high =>
    refine ⟨_, by simp only [Translator.endRepetition, hopcode, bind, Except.bind, pure,
      Except.pure]; rfl, ?_⟩
    rw [Option.elim_some]
    split
    · exact h.note _ _
    · simpa using h

end

/-! ## Quoted phrases -/

theorem inside_eq (s : Symbol) (nodes : List Node) (hfits : pos + n ≤ source.bytes.size) :
    inside source pos n = .ok (Atom.quoted source (.mk s.index pos n nodes)) := by
  rw [inside, Atom.quoted]
  split
  · have hempty : source.bytes.extract (pos + 1) (pos + n - 1) = #[] :=
      Array.extract_empty_of_stop_le_start (by omega)
    rw [Node.offset, Node.length, hempty]
  · rw [if_pos (by omega)]
    rfl

/-! ## Atoms -/

/-- What is written for an atom of rule `r`: its opcode, its place, and the messages about it. -/
def Page.take (udts : List String) (r : Nat) (a : Atom) (page : Page) : Page :=
  { page with
    opcodes := page.opcodes ++ [a.draft udts]
    placed := page.placed ++ [⟨r, page.opcodes.length, a⟩]
    messages := page.messages ++ a.messages }

/-- What stands in the way of writing an atom: nothing, as its phrase lies within the text and it is one
of the sound atoms of the whole text, behind those that were written before. -/
structure Writable (source : Source) (total : List Atom) (page : Page) (node : Node) (a : Atom) :
    Prop where
  fits : Fits source node
  within : ∀ child ∈ node.children, Fits source child
  isPrefix : page.placed.map Placed.atom ++ [a] <+: total
  sound : ∀ b ∈ total, b.Sound

variable {total : List Atom} {node : Node} {a : Atom}

/-- What is left to do for an atom that is not looked up by its name, when its opcode and its messages
are written. -/
theorem Writes.taken (page : Page) {op : Opcode} {messages : List (Nat × String)}
    {udts : List String}
    (h : Writes rules r { page with opcodes := page.opcodes ++ [op], messages := messages } t)
    (hudt : a.udt? = none) (hreference : a.reference? r page.opcodes.length = none)
    (hop : a.draft udts = op) (hmessages : page.messages ++ a.messages = messages) :
    Writes rules r (page.take udts r a) t := by
  subst hop hmessages
  exact h.place_plain hudt hreference

/-- What is left to do for the name of a rule, when its opcode is written. -/
theorem Writes.referred {op : Opcode} {udts : List String} {offset : Nat} {name : String}
    {kind : ReferenceKind} (h : Writes rules r { page with opcodes := page.opcodes ++ [op] } t)
    (hudt : a.udt? = none) (hreference : a.reference? r page.opcodes.length =
      some ⟨r, page.opcodes.length, name, offset, kind⟩)
    (hop : a.draft udts = op) (hmessages : a.messages = []) :
    Writes rules r (page.take udts r a) (t.refer page.opcodes.length name offset kind) := by
  subst hop
  rw [Page.take, hmessages, List.append_nil]
  exact h.refer hudt hreference

/-- The phrase of an opcode that needs nothing else. -/
theorem Writes.plain (h : Writes rules r page t) (hr : r < rules.length) {op : Opcode}
    (hs : s ≠ .alternation) (hpre : t.call source pos n s .pre = .ok t)
    (hpost : t.call source pos n s .post = t.emit op) (udts : List String) :
    ∃ t', Walks source [.mk s.index pos n []] t t' ∧
      Writes rules r (page.take udts r (.plain op)) t' := by
  obtain ⟨t', hemit, -, hwrites⟩ := h.emit hr op
  exact ⟨t', walks_phrase hs hpre .nil (hpost.trans hemit),
    hwrites.taken page (a := .plain op) rfl rfl rfl (List.append_nil _)⟩

/-- What is called at the phrase of an opcode that needs nothing else. -/
theorem call_of_plain {op : Opcode} (hs : s ∈ plainSymbols)
    (hread : Atom.leaf? source (.mk s.index pos n []) = some (.plain op) ∨
      Atom.operator? source (.mk s.index pos n []) = some (.plain op))
    (hfits : pos + n ≤ source.bytes.size) (t : Translator) :
    s ≠ .alternation ∧ t.call source pos n s .pre = .ok t ∧
      t.call source pos n s .post = t.emit op := by
  simp only [plainSymbols, List.mem_cons, List.not_mem_nil, or_false] at hs
  rcases hs with rfl | rfl | rfl | rfl | rfl | rfl | rfl | rfl | rfl
  case inr.inr.inl =>
    refine ⟨by decide, rfl, ?_⟩
    simp only [Atom.leaf?, Atom.operator?, symbol?_mk, Option.some.injEq, Atom.plain.injEq,
      reduceCtorEq, or_false] at hread
    subst hread
    simp only [Translator.call, inside_eq .tlsOp [] hfits, bind, Except.bind]
  case inr.inr.inr.inl =>
    refine ⟨by decide, rfl, ?_⟩
    simp only [Atom.leaf?, Atom.operator?, symbol?_mk, Option.some.injEq, Atom.plain.injEq,
      reduceCtorEq, or_false] at hread
    subst hread
    simp only [Translator.call, inside_eq .clsOp [] hfits, bind, Except.bind]
  all_goals
    simp only [Atom.leaf?, Atom.operator?, symbol?_mk, Option.some.injEq, Atom.plain.injEq,
      reduceCtorEq, or_false, false_or] at hread
    subst hread
    exact ⟨by decide, rfl, rfl⟩

/-- The phrases of the bounds of a repetition that has been begun. -/
theorem Writes.optionalBounds {opcodes : List Opcode} {min max : Option Node}
    (h : Writes rules r { page with opcodes := opcodes ++ [.rep 0 none] } t) (hr : r < rules.length)
    (hrepetition : t.registers.repetition = opcodes.length)
    (hmin : ∀ node ∈ min, IsPhrase .repMin node) (hmax : ∀ node ∈ max, IsPhrase .repMax node)
    (hfits : ∀ node ∈ min.toList ++ max.toList, Fits source node) :
    ∃ t', Walks source (min.toList ++ max.toList) t t' ∧
      t'.registers.repetition = opcodes.length ∧
      Writes rules r { page with
        opcodes := opcodes ++ [.rep ((min.map (Atom.numeralOf source)).elim 0 Numeral.word)
          ((max.map (Atom.numeralOf source)).map Numeral.word)]
        messages := page.messages ++ ((min.map (Atom.numeralOf source)).toList ++
          (max.map (Atom.numeralOf source)).toList).flatMap numeralMessages } t' := by
  have hlow : ∃ t₁, Walks source min.toList t t₁ ∧ t₁.registers.repetition = opcodes.length ∧
      Writes rules r { page with
        opcodes := opcodes ++ [.rep ((min.map (Atom.numeralOf source)).elim 0 Numeral.word) none]
        messages := page.messages ++
          (min.map (Atom.numeralOf source)).toList.flatMap numeralMessages } t₁ := by
    cases min with
    | none => exact ⟨t, .nil, hrepetition, by simpa using h⟩
    | some node =>
      obtain ⟨pos, n, rfl⟩ := hmin node rfl
      have hfit : pos + n ≤ source.bytes.size :=
        hfits (.mk Symbol.repMin.index pos n []) (by simp)
      obtain ⟨t₁, hwalks, hrepetition, hwrites⟩ := h.bound page (s := .repMin) hr hrepetition
        some (fun _ => none) (by decide) rfl rfl hfit
      exact ⟨t₁, hwalks, hrepetition, by simpa [numeralOf_eq, Atom.baseOf] using hwrites⟩
  obtain ⟨t₁, hwalks, hrepetition, hwrites⟩ := hlow
  cases max with
  | none =>
    exact ⟨t₁, by simpa using hwalks, hrepetition, by simpa using hwrites⟩
  | some node =>
    obtain ⟨pos, n, rfl⟩ := hmax node rfl
    have hfit : pos + n ≤ source.bytes.size := hfits (.mk Symbol.repMax.index pos n []) (by simp)
    obtain ⟨t₂, hwalks', hrepetition, hwrites⟩ := hwrites.bound (s := .repMax)
      { page with messages := page.messages ++
        (min.map (Atom.numeralOf source)).toList.flatMap numeralMessages }
      hr hrepetition (fun _ => none) some (by decide) rfl rfl hfit
    exact ⟨t₂, hwalks.append hwalks', hrepetition,
      by simpa [numeralOf_eq, Atom.baseOf] using hwrites⟩

/-- The phrase of a repetition, around those of its bounds. -/
theorem Writes.repOp (h : Writes rules r page t) (hr : r < rules.length) (pos n : Nat) {low : UInt32}
    {high : Option UInt32} {messages : List (Nat × String)}
    (hinner : ∀ t₁, t₁.registers.repetition = page.opcodes.length →
      Writes rules r { page with opcodes := page.opcodes ++ [.rep 0 none] } t₁ →
      ∃ t₂, Walks source inner t₁ t₂ ∧ t₂.registers.repetition = page.opcodes.length ∧
        Writes rules r { page with
          opcodes := page.opcodes ++ [.rep low high]
          messages := page.messages ++ messages } t₂) :
    ∃ t', Walks source [.mk Symbol.repOp.index pos n inner] t t' ∧
      Writes rules r { page with
        opcodes := page.opcodes ++ [.rep low high]
        messages := page.messages ++ messages ++ high.elim [] fun high =>
          if high < low then [(pos, (MeaningFlaw.repetitionBounds low high).message)] else [] }
        t' := by
  obtain ⟨t₀, hpush, -, hwrites⟩ := h.push hr (.rep 0 none)
  have hpre : t.call source pos n .repOp .pre = .ok { t₀ with
      registers := { t₀.registers with repetition := page.opcodes.length } } := by
    simp only [Translator.call, hpush, bind, Except.bind, pure, Except.pure]
  obtain ⟨t₂, hwalks, hrepetition, hwrites⟩ := hinner { t₀ with
    registers := { t₀.registers with repetition := page.opcodes.length } } rfl (hwrites.registers _)
  obtain ⟨t', hend, hwrites⟩ := hwrites.endRepetition
    { page with messages := page.messages ++ messages } hr hrepetition pos
  exact ⟨t', walks_phrase (by decide) hpre hwalks hend, hwrites⟩

/-- The phrase of a repetition, with those of its bounds. -/
theorem Writes.repetition (h : Writes rules r page t) (hr : r < rules.length) {min max : Option Node}
    (hmin : ∀ node ∈ min, IsPhrase .repMin node) (hmax : ∀ node ∈ max, IsPhrase .repMax node)
    (hfits : ∀ node ∈ min.toList ++ max.toList, Fits source node) (udts : List String) :
    ∃ t', Walks source [.mk Symbol.repOp.index pos n (min.toList ++ max.toList)] t t' ∧
      Writes rules r (page.take udts r (.repetition pos (min.map (Atom.numeralOf source))
        (max.map (Atom.numeralOf source)))) t' := by
  obtain ⟨t', hwalks, hwrites⟩ := h.repOp hr pos n
    fun t₁ hrepetition hwrites => hwrites.optionalBounds hr hrepetition hmin hmax hfits
  refine ⟨t', hwalks, hwrites.taken page rfl rfl rfl ?_⟩
  rw [messages_eq, List.append_assoc]
  cases max with
  | none => rfl
  | some max =>
    simp only [Atom.numerals, Atom.boundsFlaw?, Option.map_some, Option.elim_some]
    split <;> rfl

/-- The phrase of a repetition with the phrase of a single number. -/
theorem Writes.exactly (h : Writes rules r page t) (hr : r < rules.length) {count : Node}
    (hcount : IsPhrase .repMinMax count) (hfits : Fits source count) (udts : List String) :
    ∃ t', Walks source [.mk Symbol.repOp.index pos n [count]] t t' ∧
      Writes rules r (page.take udts r (.exactly (Atom.numeralOf source count))) t' := by
  obtain ⟨pos', n', rfl⟩ := hcount
  obtain ⟨t', hwalks, hwrites⟩ := h.repOp hr pos n
    fun t₁ hrepetition hwrites => hwrites.bound page (s := .repMinMax) hr
      hrepetition some some (by decide) rfl rfl hfits
  have hnumeral : Atom.numeralOf source (.mk Symbol.repMinMax.index pos' n' []) =
      numeralAt source 10 pos' n' :=
    numeralOf_eq source .repMinMax pos' n' []
  rw [hnumeral]
  refine ⟨t', hwalks, hwrites.taken page rfl rfl rfl ?_⟩
  rw [messages_eq]
  simp [Atom.numerals, Atom.boundsFlaw?, Node.offset, Node.length]

/-- The phrase of a string of numerals. -/
theorem Writes.string (h : Writes rules r page t) (hr : r < rules.length) {numeral : Symbol}
    (hs : numeral ∈ stringSymbols) (hnodes : ∀ node ∈ nodes, IsPhrase numeral node)
    (hfits : ∀ node ∈ nodes, Fits source node) (udts : List String) :
    ∃ t', Walks source [.mk Symbol.tbsOp.index pos n nodes] t t' ∧
      Writes rules r (page.take udts r (.string (nodes.map (Atom.numeralOf source)))) t' := by
  obtain ⟨t₁, hwalks, hstring, hwrites⟩ := (h.registers { t.registers with string := [] }).chars hs
    hnodes hfits
  obtain ⟨t', hemit, -, hwrites⟩ := (hwrites.registers { t₁.registers with string := [] }).emit hr
    (.tbs t₁.registers.string)
  refine ⟨t', walks_phrase (by decide) rfl hwalks hemit,
    hwrites.taken page rfl rfl ?_ ?_⟩
  · rw [hstring]
    rfl
  · rw [messages_eq]
    simp [Atom.numerals, Atom.boundsFlaw?]

/-- The phrase of a range, with those of its bounds. -/
theorem Writes.range (h : Writes rules r page t) (hr : r < rules.length) {low high : Symbol}
    {min max : Node} (hs : (low, high) ∈ rangeSymbols) (hmin : IsPhrase low min)
    (hmax : IsPhrase high max) (hfits : ∀ node ∈ [min, max], Fits source node)
    (udts : List String) :
    ∃ t', Walks source [.mk Symbol.trgOp.index pos n [min, max]] t t' ∧
      Writes rules r (page.take udts r (.range pos (Atom.numeralOf source min)
        (Atom.numeralOf source max))) t' := by
  obtain ⟨t₁, hwalks, hrange, hwrites⟩ := (h.registers { t.registers with range := (0, 0) }).bounds hs
    hmin hmax hfits
  let a : Atom := .range pos (Atom.numeralOf source min) (Atom.numeralOf source max)
  have hnoted : Writes rules r { page with messages := page.messages ++ a.messages }
      (if (Atom.numeralOf source max).word < (Atom.numeralOf source min).word then
        t₁.note pos (MeaningFlaw.rangeBounds (Atom.numeralOf source min).word
          (Atom.numeralOf source max).word).message else t₁) := by
    rw [messages_eq, ← List.append_assoc]
    simp only [a, Atom.numerals, Atom.boundsFlaw?]
    split
    · exact hwrites.note _ _
    · simpa using hwrites
  obtain ⟨t', hemit, -, hwrites⟩ := hnoted.emit hr (a.draft udts)
  refine ⟨t', walks_phrase (by decide) rfl hwalks ?_, hwrites.taken page rfl rfl rfl rfl⟩
  simp only [Translator.call, hrange]
  exact hemit

/-- The phrase of a back-reference, with those of a modifier and the name. -/
theorem Writes.backReference (h : Writes rules r page t) (hr : r < rules.length)
    {modifier : Option Node} {name : Node} (hname : IsPhrase .bkrName name)
    (hmodifier : ∀ node ∈ modifier, ∃ s ∈ [Symbol.bkrCi, .bkrCs], IsPhrase s node)
    {caseInsensitive : Bool}
    (hcase : caseInsensitive = !(modifier.toList.any fun node =>
      decide (Atom.symbol? node = some Symbol.bkrCs)))
    (hfits : Fits source name) (udts : List String) :
    ∃ t', Walks source [.mk Symbol.bkrOp.index pos n (modifier.toList ++ [name])] t t' ∧
      Writes rules r (page.take udts r (.backReference pos
        (source.phrase name.offset name.length) caseInsensitive)) t' := by
  have hmodified : ∃ t₁, Walks source modifier.toList
      { t with registers := { t.registers with caseInsensitive := true, backName := "" } } t₁ ∧
      t₁.registers.caseInsensitive = caseInsensitive ∧ Writes rules r page t₁ := by
    cases modifier with
    | none => exact ⟨_, .nil, hcase.symm, h.registers _⟩
    | some node =>
      obtain ⟨s, hs, pos, n, rfl⟩ := hmodifier node rfl
      refine ⟨{ t with registers := { t.registers with
        caseInsensitive := caseInsensitive, backName := "" } }, ?_, rfl, h.registers _⟩
      rcases List.mem_pair.1 hs with rfl | rfl
      all_goals
        subst hcase
        exact walks_phrase (by decide) rfl .nil (by simp [Translator.call])
  obtain ⟨t₁, hwalks, hregister, hwrites⟩ := hmodified
  obtain ⟨pos', n', rfl⟩ := hname
  have hfit : pos' + n' ≤ source.bytes.size := hfits
  let named : Translator := { t₁ with
    registers := { t₁.registers with backName := source.phrase pos' n' } }
  have hnamed : Walks source [.mk Symbol.bkrName.index pos' n' []] t₁ named := by
    refine walks_phrase (by decide) rfl .nil ?_
    simp only [Translator.call, slice_eq hfit, bind, Except.bind]
    rfl
  obtain ⟨t₂, hpush, hregisters, hwrites⟩ :=
    (show Writes rules r page named from hwrites.registers _).push hr (.bkr 0 false caseInsensitive)
  have hpost : named.call source pos n .bkrOp .post =
      .ok ({ t₂ with registers := { t₂.registers with backName := "" } }.refer page.opcodes.length
        (source.phrase pos' n') pos (.backReference caseInsensitive)) := by
    have hcase : named.registers.caseInsensitive = caseInsensitive := hregister
    have hname : t₂.registers.backName = source.phrase pos' n' :=
      congrArg Registers.backName hregisters
    simp only [Translator.call, hcase, hpush, hname, bind, Except.bind, pure, Except.pure]
  exact ⟨_, walks_phrase (by decide) rfl (hwalks.append hnamed) hpost,
    (hwrites.registers _).referred (a := .backReference pos _ caseInsensitive) rfl rfl rfl rfl⟩

/-- The walk over the phrase of an atom writes what the atom leaves. -/
theorem exists_walks_of_denotes (hdenotes : Denotes source node a)
    (hread : Atom.leaf? source node = some a ∨ Atom.operator? source node = some a)
    (hwritable : Writable source total page node a) (hr : r < rules.length)
    (h : Writes rules r page t) :
    ∃ t', Walks source [node] t t' ∧ Writes rules r (page.take (udtNamesIn total) r a) t' := by
  cases hdenotes with
  | plain hs =>
    obtain ⟨hne, hpre, hpost⟩ := call_of_plain hs hread hwritable.fits t
    exact h.plain hr hne hpre hpost _
  | @ruleName pos n =>
    obtain ⟨t₁, hpush, -, hwrites⟩ := h.push hr (.rnm 0)
    have hfits : pos + n ≤ source.bytes.size := hwritable.fits
    have hpost : t.call source pos n .rnmOp .post =
        .ok (t₁.refer page.opcodes.length (source.phrase pos n) pos .rule) := by
      simp only [Translator.call, hpush, slice_eq hfits, bind, Except.bind, pure, Except.pure]
    exact ⟨_, walks_phrase (by decide) rfl .nil hpost,
      hwrites.referred (a := .ruleName pos _) rfl rfl rfl rfl⟩
  | @udtEmpty pos n | @udtNonEmpty pos n =>
    have hfits : pos + n ≤ source.bytes.size := hwritable.fits
    obtain ⟨index, t₁, hudt, hdraft, hwrites⟩ := h.udt hwritable.isPrefix hwritable.sound
      page.opcodes.length pos
    obtain ⟨t', hemit, -, hwrites⟩ := hwrites.emit hr (.udt index _)
    refine ⟨t', walks_phrase (by decide) rfl .nil ?_, ?_⟩
    · simp only [Translator.call, slice_eq hfits, hudt, bind, Except.bind]
      exact hemit
    · rw [← hdraft] at hwrites
      simpa [Page.take, messages_eq, Atom.numerals, Atom.boundsFlaw?] using hwrites
  | backReference hname hmodifier =>
    refine h.backReference hr hname hmodifier ?_ (hwritable.within _ (by simp [Node.children])) _
    simp only [Atom.leaf?, Atom.operator?, symbol?_mk, Option.some.injEq, reduceCtorEq, or_false,
      Atom.backReference.injEq] at hread
    obtain ⟨-, -, rfl⟩ := hread
    simp [Node.children, hname.symbol?]
  | repetition hmin hmax => exact h.repetition hr hmin hmax hwritable.within _
  | exactly hcount => exact h.exactly hr hcount (hwritable.within _ List.mem_cons_self) _
  | string hs hnodes => exact h.string hr hs hnodes hwritable.within _
  | range hs hmin hmax => exact h.range hr hs hmin hmax hwritable.within _

end Translation

end Abnf
