import Abnf.Proofs.Translation.Phrases

/-!
# Alternatives of a line

The alternatives of a line are written as the layout of the expressions that are read from them. An
element is written behind what stands there; alternatives and elements in a row are also added to the
choice or the sequence that they belong to, each when it begins.

* `Page.write`: what is written for an expression.
* `Page.fill`: what is written for the children of a choice or a sequence.
* `translated_of_arranged`: phrases that are arranged are translated so.
-/

namespace Abnf

open Metagrammar Definition

/-! ## Children -/

theorem Opcode.adopt_nil : Opcode.adopt [] = id := by
  funext op
  cases op <;> simp [Opcode.adopt]

theorem Opcode.adopt_comp_adopt (more more' : List Nat) :
    Opcode.adopt more' ∘ Opcode.adopt more = Opcode.adopt (more ++ more') := by
  funext op
  cases op <;> simp [Opcode.adopt]

namespace Translation

/-! ## Expressions on a page -/

namespace Page

variable (udts : List String) (r : Nat)

/-- What is written for an expression of rule `r`. -/
def write (e : Expr Atom) (page : Page) : Page :=
  { page with
    opcodes := page.opcodes ++ Expr.layoutFrom page.opcodes.length (e.map (Atom.draft udts))
    placed := page.placed ++ (e.placedFrom page.opcodes.length).map fun place =>
      ⟨r, place.1, place.2⟩
    messages := page.messages ++ e.atoms.flatMap Atom.messages }

/-- What is written for the children of the choice or the sequence at position `parent`. -/
def fill (parent : Nat) (es : List (Expr Atom)) (page : Page) : Page :=
  { page with
    opcodes := page.opcodes.modify parent (Opcode.adopt (Expr.starts page.opcodes.length es)) ++
      Expr.layoutAllFrom page.opcodes.length (Expr.mapAll (Atom.draft udts) es)
    placed := page.placed ++ (Expr.placedAllFrom page.opcodes.length es).map fun place =>
      ⟨r, place.1, place.2⟩
    messages := page.messages ++ (Expr.atomsAll es).flatMap Atom.messages }

/-- What is written when a child of the choice or the sequence at position `parent` begins. -/
def beginChild (parent : Nat) (page : Page) : Page :=
  { page with opcodes := page.opcodes.modify parent (Opcode.adopt [page.opcodes.length]) }

/-- What is written for an opcode that waits for its children. -/
def push (op : Opcode) (page : Page) : Page :=
  { page with opcodes := page.opcodes ++ [op] }

/-- Other levels. -/
def withLevels (levels : List Level) (page : Page) : Page :=
  { page with levels := levels }

variable {udts r} {page : Page} {parent : Nat}

theorem write_atom (a : Atom) : page.write udts r (.atom a) = page.take udts r a := by
  simp [write, take, Expr.map, Expr.layoutFrom, Expr.placedFrom, Expr.atoms]

theorem write_under (a : Atom) (e : Expr Atom) :
    page.write udts r (.under a e) = (page.take udts r a).write udts r e := by
  simp [write, take, Expr.map, Expr.layoutFrom, Expr.placedFrom, Expr.atoms]

theorem write_alt (es : List (Expr Atom)) : page.write udts r (.alt es) =
    (page.push (.alt [])).fill udts r page.opcodes.length es := by
  simp [write, fill, push, Expr.map, Expr.layoutFrom, Expr.placedFrom, Expr.atoms,
    modify_length_append, Opcode.adopt]

theorem write_cat (es : List (Expr Atom)) : page.write udts r (.cat es) =
    (page.push (.cat [])).fill udts r page.opcodes.length es := by
  simp [write, fill, push, Expr.map, Expr.layoutFrom, Expr.placedFrom, Expr.atoms,
    modify_length_append, Opcode.adopt]

theorem fill_nil : page.fill udts r parent [] = page := by
  simp [fill, Expr.starts, Expr.mapAll, Expr.layoutAllFrom, Expr.placedAllFrom, Expr.atomsAll,
    Opcode.adopt_nil]

theorem fill_cons (hparent : parent < page.opcodes.length) (e : Expr Atom)
    (es : List (Expr Atom)) : page.fill udts r parent (e :: es) =
      ((page.beginChild parent).write udts r e).fill udts r parent es := by
  simp [fill, write, beginChild, Expr.starts, Expr.mapAll, Expr.layoutAllFrom, Expr.placedAllFrom,
    Expr.atomsAll, modify_append_left, hparent, List.modify_modify_eq, Opcode.adopt_comp_adopt,
    Expr.length_layoutFrom]

theorem fill_withLevels (es : List (Expr Atom)) (levels : List Level) :
    (page.withLevels levels).fill udts r parent es =
      (page.fill udts r parent es).withLevels levels :=
  rfl

theorem length_lt_push (op : Opcode) : page.opcodes.length < (page.push op).opcodes.length := by
  simp [push]

/-- What has been written stays when a child begins and is written. -/
theorem lt_length_write {i : Nat} (hi : i < page.opcodes.length) (parent : Nat) (e : Expr Atom) :
    i < ((page.beginChild parent).write udts r e).opcodes.length := by
  simp only [write, beginChild, List.length_append, List.length_modify]
  omega

theorem map_atom_write (udts : List String) (r : Nat) (page : Page) (e : Expr Atom) :
    (page.write udts r e).placed.map Placed.atom = page.placed.map Placed.atom ++ e.atoms := by
  simp [write, ← Expr.map_snd_placedFrom page.opcodes.length e, Function.comp_def]

end Page

/-! ## Calls -/

section

variable {source : Source} {rules : List Rule} {r pos n : Nat} {page : Page} {t : Translator}
  {level : Level} {levels : List Level}

theorem Writes.withLevels (h : Writes rules r page t) (levels : List Level) :
    Writes rules r (page.withLevels levels) { t with levels := levels } :=
  ⟨h.holds.keep .., h.current, h.sign, rfl⟩

/-- Alternatives are not skipped within a line that has a sign. -/
theorem visit_alternation (hsign : t.sign ≠ none) {side : Visit} {t' : Translator}
    (hcall : t.call source pos n .alternation side = .ok t') :
    t.visit source Symbol.alternation.index side pos n = .ok (.proceed, t') := by
  simp only [Translator.visit, Symbol.ofIndex?_index, hsign, and_false, if_false, hcall, bind,
    Except.bind, pure, Except.pure]

theorem Writes.beginAlternation (h : Writes rules r page t) (hr : r < rules.length)
    (hlevels : page.levels ≠ [] ∨ t.sign ≠ some .incremental) :
    ∃ t', t.beginAlternation = .ok t' ∧
      Writes rules r ((page.push (.alt [])).withLevels (⟨page.opcodes.length, 0⟩ :: page.levels))
        t' := by
  obtain ⟨t', hpush, -, hwrites⟩ := h.push hr (.alt [])
  have hnew : ¬ (t.levels.isEmpty && t.sign == some .incremental) = true := by
    rw [h.levels]
    simpa [List.isEmpty_iff, or_iff_not_imp_left] using hlevels
  refine ⟨_, ?_, hwrites.withLevels (⟨page.opcodes.length, 0⟩ :: page.levels)⟩
  have hsame : t'.levels = page.levels := hwrites.levels
  simp only [Translator.beginAlternation, if_neg hnew, hpush, hsame, bind, Except.bind, pure,
    Except.pure]

theorem Writes.beginConcatenation (h : Writes rules r page t) (hr : r < rules.length)
    (hlevels : page.levels = level :: levels) :
    ∃ t', t.beginConcatenation = .ok t' ∧
      Writes rules r (((page.beginChild level.choice).push (.cat [])).withLevels
        ({ level with sequence := page.opcodes.length } :: levels)) t' := by
  obtain ⟨t₁, hchange, -, hwrites⟩ :=
    h.change hr level.choice (Opcode.adopt [page.opcodes.length])
  obtain ⟨t₂, hemit, -, hwrites⟩ := hwrites.emit hr (.cat [])
  refine ⟨_, ?_, hwrites.withLevels ({ level with sequence := page.opcodes.length } :: levels)⟩
  simp only [Translator.beginConcatenation, h.levels, hlevels, h.nextIndex hr, hchange, hemit, bind,
    Except.bind, pure, Except.pure]

theorem Writes.beginRepetition (h : Writes rules r page t) (hr : r < rules.length)
    (hlevels : page.levels = level :: levels) :
    ∃ t', t.beginRepetition = .ok t' ∧
      Writes rules r (page.beginChild level.sequence) t' := by
  obtain ⟨t', hchange, -, hwrites⟩ :=
    h.change hr level.sequence (Opcode.adopt [page.opcodes.length])
  refine ⟨t', ?_, hwrites⟩
  simp only [Translator.beginRepetition, h.levels, hlevels, h.nextIndex hr, hchange, bind,
    Except.bind]

end

/-! ## Phrases within the text -/

theorem le_of_nested {low high : Nat} {nodes : List Node} (h : Node.Nested low high nodes) :
    low ≤ high := by
  induction h with
  | nil hle => exact hle
  | cons hlow _ _ _ ih => omega

/-- Phrases that stand in order within the text. -/
def Within (source : Source) (nodes : List Node) : Prop :=
  ∃ low high, Node.Nested low high nodes ∧ high ≤ source.bytes.size

namespace Within

variable {source : Source} {rule offset length : Nat} {children nodes : List Node}

theorem cons (h : Within source (.mk rule offset length children :: nodes)) :
    offset + length ≤ source.bytes.size ∧ Within source children ∧ Within source nodes := by
  obtain ⟨low, high, hnested, hhigh⟩ := h
  cases hnested with
  | cons hlow hinner hnext =>
    have hle : offset + length ≤ source.bytes.size := Nat.le_trans (le_of_nested hnext) hhigh
    exact ⟨hle, ⟨_, _, hinner, hle⟩, ⟨_, _, hnext, hhigh⟩⟩

theorem head {node : Node} (h : Within source (node :: nodes)) : Within source [node] := by
  obtain ⟨low, high, hnested, hhigh⟩ := h
  cases hnested with
  | cons hlow hinner hnext =>
    exact ⟨low, high, .cons hlow hinner (.nil (le_of_nested hnext)), hhigh⟩

theorem fits (h : Within source nodes) : ∀ node ∈ nodes, Fits source node := by
  induction nodes with
  | nil => simp
  | cons node nodes ih =>
    obtain ⟨rule, offset, length, children⟩ := node
    exact List.forall_mem_cons.2 ⟨h.cons.1, ih h.cons.2.2⟩

end Within

/-! ## Phrases that are arranged -/

section

variable {source : Source} {total : List Atom} {rules : List Rule} {r : Nat} {nodes : List Node}

theorem isPrefix_left {l m n : List Atom} (h : l ++ (m ++ n) <+: total) :
    l ++ m <+: total := by
  rw [← List.append_assoc] at h
  exact (List.prefix_append _ _).trans h

/-- What it means that phrases are translated, on whatever page: an element is written, and what stands
in a row is filled into the innermost sequence or choice. -/
def Translated (source : Source) (total : List Atom) (rules : List Rule) (r : Nat) :
    Part → List Node → Prop
  | .element, nodes => ∀ (page : Page) (t : Translator), Writes rules r page t →
      page.levels ≠ [] → ∀ e, readElement source nodes = some e →
      page.placed.map Placed.atom ++ e.atoms <+: total →
      ∃ t', Walks source nodes t t' ∧ Writes rules r (page.write (udtNamesIn total) r e) t'
  | .sequence, nodes => ∀ (page : Page) (t : Translator), Writes rules r page t →
      ∀ level levels, page.levels = level :: levels → level.sequence < page.opcodes.length →
      page.placed.map Placed.atom ++ Expr.atomsAll (readElements source nodes) <+: total →
      ∃ t', Walks source nodes t t' ∧ Writes rules r
        (page.fill (udtNamesIn total) r level.sequence (readElements source nodes)) t'
  | .choice, nodes => ∀ (page : Page) (t : Translator), Writes rules r page t →
      ∀ level levels, page.levels = level :: levels → level.choice < page.opcodes.length →
      page.placed.map Placed.atom ++ Expr.atomsAll (readAlternatives source nodes) <+: total →
      ∃ t' sequence, Walks source nodes t t' ∧ Writes rules r
        ((page.fill (udtNamesIn total) r level.choice (readAlternatives source nodes)).withLevels
          (⟨level.choice, sequence⟩ :: levels)) t'

namespace Translated

variable {pos n : Nat} {inner : List Node}

theorem bracketed (hr : r < rules.length) (ih : Translated source total rules r .choice inner) :
    Translated source total rules r .element [.mk Symbol.alternation.index pos n inner] := by
  intro page t hwrites hlevels e he hinitial
  rw [readElement_alternation, Option.some.injEq] at he
  subst he
  obtain ⟨t₁, hbegin, hbegun⟩ := hwrites.beginAlternation hr (Or.inl hlevels)
  obtain ⟨t₂, sequence, hwalks, hfilled⟩ := ih _ t₁ hbegun _ _ rfl (Page.length_lt_push _) hinitial
  refine ⟨_, .node (visit_alternation hwrites.sign hbegin) hwalks
    (visit_alternation hfilled.sign rfl) .nil, ?_⟩
  have hleft : t₂.levels.tail = page.levels := by
    rw [hfilled.levels]
    rfl
  rw [Page.write_alt, hleft]
  exact hfilled.withLevels page.levels

theorem governed {s : Symbol} (hs : s.isOperator = true ∨ s = .optionOpen)
    (hmatch : ProperMatch s.properBody pos (source.bytes.toList.drop pos) n inner)
    (h : Arranged source .element nodes) (hwithin : Within source (.mk s.index pos n inner :: nodes))
    (hr : r < rules.length) (hsound : ∀ a ∈ total, a.Sound)
    (ih : Translated source total rules r .element nodes) :
    Translated source total rules r .element (.mk s.index pos n inner :: nodes) := by
  intro page t hwrites hlevels e he hinitial
  obtain ⟨a, ha, hdenotes⟩ := denotes_operator hs hmatch
  obtain ⟨operand, hoperand, -⟩ := h.reads
  rw [readElement_operator ha hoperand, Option.some.injEq] at he
  subst he
  obtain ⟨t₁, hwalks, htaken⟩ := exists_walks_of_denotes hdenotes (Or.inr ha)
    ⟨hwithin.cons.1, hwithin.cons.2.1.fits, isPrefix_left (m := [a]) hinitial, hsound⟩ hr hwrites
  obtain ⟨t', hwalks', hwritten⟩ := ih _ t₁ htaken hlevels operand hoperand
    (by simpa [Page.take, Expr.atoms] using hinitial)
  exact ⟨t', hwalks.cons hwalks', by rwa [Page.write_under]⟩

theorem elements (h : Arranged source .element inner) (hr : r < rules.length)
    (ihelement : Translated source total rules r .element inner)
    (ih : Translated source total rules r .sequence nodes) :
    Translated source total rules r .sequence
      (.mk Symbol.repetition.index pos n inner :: nodes) := by
  intro page t hwrites level levels hlevels hlt hinitial
  obtain ⟨e, he, -⟩ := h.reads
  have hread : readElements source (.mk Symbol.repetition.index pos n inner :: nodes) =
      e :: readElements source nodes := by
    simp only [readElements, elementOf, he]
  rw [hread, Expr.atomsAll] at hinitial
  rw [hread, Page.fill_cons hlt]
  obtain ⟨t₁, hbegin, hbegun⟩ := hwrites.beginRepetition hr hlevels
  obtain ⟨t₂, hwalks, hwritten⟩ := ihelement _ t₁ hbegun
    (by simp [Page.beginChild, hlevels]) e he (isPrefix_left hinitial)
  obtain ⟨t', hwalks', hfilled⟩ := ih _ t₂ hwritten level levels hlevels
    (Page.lt_length_write hlt _ e)
    (by rw [Page.map_atom_write, List.append_assoc]; exact hinitial)
  have hphrase : Walks source [.mk Symbol.repetition.index pos n inner] t t₂ :=
    walks_phrase (by decide) hbegin hwalks rfl
  exact ⟨t', hphrase.cons hwalks', hfilled⟩

theorem alternatives (hr : r < rules.length)
    (ihsequence : Translated source total rules r .sequence inner)
    (ih : Translated source total rules r .choice nodes) :
    Translated source total rules r .choice
      (.mk Symbol.concatenation.index pos n inner :: nodes) := by
  intro page t hwrites level levels hlevels hlt hinitial
  rw [readAlternatives, alternativeOf, Expr.atomsAll, Expr.atoms] at hinitial
  rw [readAlternatives, alternativeOf, Page.fill_cons hlt]
  obtain ⟨t₁, hbegin, hbegun⟩ := hwrites.beginConcatenation hr hlevels
  obtain ⟨t₂, hwalks, hwritten⟩ := ihsequence _ t₁ hbegun _ _ rfl
    (by simp [Page.push, Page.withLevels, Page.beginChild]) (isPrefix_left hinitial)
  -- The sequence that has been filled is the one that is written behind what begins it.
  have hlength : (page.beginChild level.choice).opcodes.length = page.opcodes.length :=
    List.length_modify ..
  rw [Page.fill_withLevels, ← hlength, ← Page.write_cat] at hwritten
  obtain ⟨t', sequence, hwalks', hfilled⟩ := ih _ t₂ hwritten _ _ rfl
    (Page.lt_length_write (r := r) hlt _ _)
    (by
      rw [Page.withLevels, Page.map_atom_write, List.append_assoc]
      exact hinitial)
  have hphrase : Walks source [.mk Symbol.concatenation.index pos n inner] t t₂ :=
    walks_phrase (by decide) hbegin hwalks rfl
  exact ⟨t', sequence, hphrase.cons hwalks', hfilled⟩

end Translated

/-- Phrases that are arranged are translated. -/
theorem translated_of_arranged {part : Part} (h : Arranged source part nodes)
    (hwithin : Within source nodes) (hr : r < rules.length) (hsound : ∀ a ∈ total, a.Sound) :
    Translated source total rules r part nodes := by
  induction h with
  | @leaf s pos n inner hs hmatch =>
    intro page t hwrites _ e he hinitial
    obtain ⟨a, ha, hdenotes⟩ := denotes_leaf hs hmatch
    rw [readElement_leaf hs ha, Option.some.injEq] at he
    subst he
    rw [Page.write_atom]
    exact exists_walks_of_denotes hdenotes (Or.inl ha)
      ⟨hwithin.cons.1, hwithin.cons.2.1.fits, hinitial, hsound⟩ hr hwrites
  | bracketed _ _ ih => exact .bracketed hr (ih hwithin.cons.2.1)
  | governed hs hmatch h ih => exact .governed hs hmatch h hwithin hr hsound (ih hwithin.cons.2.2)
  | noElement =>
    intro page t hwrites level levels _ _ _
    exact ⟨t, .nil, by rwa [readElements, Page.fill_nil]⟩
  | elements h _ ihelement ih =>
    exact .elements h hr (ihelement hwithin.cons.2.1) (ih hwithin.cons.2.2)
  | noAlternative =>
    intro page t hwrites level levels hlevels _ _
    refine ⟨t, level.sequence, .nil, ?_⟩
    rw [readAlternatives, Page.fill_nil, Page.withLevels, ← hlevels]
    exact hwrites
  | alternatives _ _ _ ihsequence ih =>
    exact .alternatives hr (ihsequence hwithin.cons.2.1) (ih hwithin.cons.2.2)

end

end Translation

end Abnf
