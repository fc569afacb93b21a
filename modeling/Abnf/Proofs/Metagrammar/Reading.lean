import Abnf.Definition
import Abnf.Proofs.Metagrammar.Shape
import Abnf.Proofs.Tables

/-!
# What is read from a proper text

The phrases of a proper text are arranged so that every one of them is read: operators govern an
operand, brackets and lines have alternatives, and alternatives have elements.

* `Arranged.reads`: phrases that are arranged are read as sound expressions.
* `sound_ofRecognition`: a text without flaws is read as sound definition lines.
-/

namespace Abnf.Metagrammar

open Engine

variable {s : Symbol} {pos n : Nat} {rest : List UInt8} {nodes : List Node} {source : Source}

/-! ## Leaves -/

/-- What a phrase says, in terms of the bytes at its beginning. -/
theorem phrase_eq (hrest : rest = source.bytes.toList.drop pos) (n : Nat) :
    source.phrase pos n = String.ofList ((rest.take n).map fun byte => Char.ofNat byte.toNat) := by
  rw [Source.phrase, hrest, Array.toList_extract, List.extract_eq_take_drop, Nat.add_sub_cancel_left]

/-- The name of a terminal begins with the letter that tells whether it may be empty. -/
theorem head?_phrase_of_udt {c : Char} (hrest : rest = source.bytes.toList.drop pos)
    (h : ProperMatch (.cat [chars [c, '_'], ref .alphanum]) pos rest n nodes) :
    (source.phrase pos n).toList.head? = some c := by
  obtain ⟨m, _, _, _, hletter, -, rfl, -⟩ := matches_cat_cons_iff.1 h
  have hresult := (hletter.leafResult? (by simp)).1
  simp only [leafResult?, literalResult, List.map_cons, List.map_nil, Option.some.injEq] at hresult
  split at hresult
  · rename_i hbegins
    obtain rfl := Option.some.inj hresult
    cases hbytes : rest with
    | nil => simp [hbytes, beginsWith] at hbegins
    | cons byte bytes =>
      rw [hbytes] at hbegins
      simp only [beginsWith, id_eq, Bool.and_eq_true, beq_iff_eq] at hbegins
      have hc : Char.ofNat byte.toNat = c := by
        have hnat := congrArg UInt32.toNat hbegins.1
        rw [UInt8.toNat_toUInt32] at hnat
        rw [hnat]
        exact Char.ofNat_toNat c
      rw [phrase_eq hrest, hbytes, String.toList_ofList, List.head?_map, List.head?_take]
      simp [hc]
  · simp at hresult

/-- The phrase of a leaf is read as a sound leaf. -/
theorem sound_leaf (hs : s.isLeaf = true) (hrest : rest = source.bytes.toList.drop pos)
    (h : ProperMatch s.properBody pos rest n nodes) :
    ∃ a, Atom.leaf? source (.mk s.index pos n nodes) = some a ∧ Expr.Sound (.atom a) := by
  cases s with
  | abgOp | aenOp => exact ⟨_, rfl, .atom (fun _ => rfl) fun _ _ => trivial⟩
  | rnmOp => exact ⟨_, rfl, .atom (fun _ => rfl) trivial⟩
  | udtEmpty =>
    exact ⟨_, rfl, .atom (fun _ => rfl) (head?_phrase_of_udt hrest h)⟩
  | udtNonEmpty =>
    exact ⟨_, rfl, .atom (fun _ => rfl) (head?_phrase_of_udt hrest h)⟩
  | bkrOp =>
    refine ⟨_, rfl, .atom (fun names => ?_) trivial⟩
    simp only [Atom.resolve]
    split <;> rfl
  | tlsOp => exact ⟨_, rfl, .atom (fun _ => rfl) fun _ _ => trivial⟩
  | clsOp =>
    refine ⟨_, rfl, .atom (fun _ => ?_) fun _ _ => ?_⟩
    · simp only [Atom.resolve]
      split <;> rfl
    · split
      · trivial
      · rename_i hne
        simpa [Opcode.Fits] using hne
  | tbsOp => exact ⟨_, rfl, .atom (fun _ => rfl) (by
      simpa [Atom.Sound, Node.children] using (nodes_of_tbsOp h).1)⟩
  | trgOp =>
    obtain ⟨_, _, low, high, -, rfl, -, -⟩ := nodes_of_trgOp h
    exact ⟨_, rfl, .atom (fun _ => rfl) trivial⟩
  | _ => cases hs

/-! ## Operators -/

theorem sound_operator (source : Source) (hs : s.isOperator = true ∨ s = .optionOpen) (pos n : Nat)
    (nodes : List Node) :
    ∃ a, Atom.operator? source (.mk s.index pos n nodes) = some a ∧
      (∀ names, (a.resolve names).governsNext = true) ∧ a.Sound := by
  rcases hs with hs | rfl
  case inr =>
    refine ⟨_, rfl, fun _ => rfl, fun _ _ m hm => ?_⟩
    cases hm
    decide
  cases s with
  | bkaOp | bknOp | andOp | notOp => exact ⟨_, rfl, fun _ => rfl, fun _ _ => trivial⟩
  | repOp =>
    let node := Node.mk Symbol.repOp.index pos n nodes
    cases hbound : Atom.bound? source node .repMinMax with
    | some count =>
      refine ⟨.exactly count, ?_, fun _ => rfl, trivial⟩
      simp [Atom.operator?, Atom.symbol?, Node.rule, Symbol.ofIndex?_index, node, hbound]
    | none =>
      refine ⟨.repetition pos (Atom.bound? source node .repMin) (Atom.bound? source node .repMax),
        ?_, fun _ => rfl, trivial⟩
      simp [Atom.operator?, Atom.symbol?, Node.rule, Node.offset, Symbol.ofIndex?_index, node,
        hbound]
  | _ => cases hs

theorem operator?_eq_none (hs : s.isLeaf = true ∨ s = .alternation) (pos n : Nat)
    (nodes : List Node) : Atom.operator? source (.mk s.index pos n nodes) = none := by
  rcases hs with hs | rfl
  · cases s <;> first | rfl | cases hs
  · rfl

/-! ## Elements and alternatives -/

open Definition

theorem readElement_operator {a : Atom} {e : Expr Atom} {node : Node}
    (ha : Atom.operator? source node = some a) (he : readElement source nodes = some e) :
    readElement source (node :: nodes) = some (.under a e) := by
  simp only [readElement, ha, he]

theorem readElement_alternation (pos n : Nat) (nodes : List Node) :
    readElement source [.mk Symbol.alternation.index pos n nodes] =
      some (.alt (readAlternatives source nodes)) := by
  simp only [readElement, operator?_eq_none (Or.inr rfl), readOperand, Symbol.ofIndex?_index,
    if_true]

theorem readElement_leaf {a : Atom} (hs : s.isLeaf = true)
    (ha : Atom.leaf? source (.mk s.index pos n nodes) = some a) :
    readElement source [.mk s.index pos n nodes] = some (.atom a) := by
  have hne : Symbol.ofIndex? s.index ≠ some .alternation := by
    rw [Symbol.ofIndex?_index]
    rintro ⟨⟩
    cases hs
  simp only [readElement, operator?_eq_none (Or.inl hs), readOperand, if_neg hne, ha,
    Option.map_some]

/-- Phrases that are read as sound expressions, none of which is passed over. -/
def Reads (source : Source) : Part → List Node → Prop
  | .element, nodes => ∃ e, readElement source nodes = some e ∧ e.Sound
  | .sequence, nodes =>
    (nodes ≠ [] → readElements source nodes ≠ []) ∧ ∀ e ∈ readElements source nodes, e.Sound
  | .choice, nodes =>
    (nodes ≠ [] → readAlternatives source nodes ≠ []) ∧
      ∀ e ∈ readAlternatives source nodes, e.Sound

/-- Phrases that are arranged are read as sound expressions. -/
theorem Arranged.reads {part : Part} (h : Arranged source part nodes) : Reads source part nodes := by
  induction h with
  | leaf hs hmatch =>
    obtain ⟨a, ha, hsound⟩ := sound_leaf hs rfl hmatch
    exact ⟨.atom a, readElement_leaf hs ha, hsound⟩
  | bracketed hne _ ih =>
    exact ⟨_, readElement_alternation _ _ _, (Expr.Sound.branch (ih.1 hne) ih.2).1⟩
  | @governed s pos n inner _ hs _ _ ih =>
    obtain ⟨a, ha, hgoverns, hasound⟩ := sound_operator source hs pos n inner
    obtain ⟨e, he, hesound⟩ := ih
    exact ⟨.under a e, readElement_operator ha he, .under hgoverns hasound hesound⟩
  | noElement => simp [Reads, readElements]
  | elements _ _ ihelement ih =>
    obtain ⟨e, he, hsound⟩ := ihelement
    simp only [Reads, readElements, elementOf, he]
    exact ⟨by simp, List.forall_mem_cons.2 ⟨hsound, ih.2⟩⟩
  | noAlternative => simp [Reads, readAlternatives]
  | alternatives hne _ _ ihsequence ih =>
    simp only [Reads, readAlternatives, alternativeOf]
    exact ⟨by simp,
      List.forall_mem_cons.2 ⟨(Expr.Sound.branch (ihsequence.1 hne) ihsequence.2).2, ih.2⟩⟩

/-! ## Lines -/

/-- A phrase that is read as a sound definition line. -/
def IsLine (source : Source) (node : Node) : Prop :=
  ∃ line, ofNode? source node = some line ∧ line.Sound

theorem ArrangedLine.isLine {line : Node} (h : ArrangedLine source line) : IsLine source line := by
  obtain ⟨_, _, _, name, sign, _, _, rfl, -, -, -, _, _, inner, rfl, hne, hchoice⟩ := h
  obtain ⟨hnonempty, hsound⟩ := hchoice.reads
  exact ⟨_, rfl, hnonempty hne, hsound⟩

/-- The phrases within a text without flaws are read as sound definition lines. -/
theorem isLine_ofRecognition {strict : Bool} {recognition : Recognition}
    (hrecognize : recognize source strict = .ok recognition) (hflaws : recognition.flaws = []) :
    ∀ node ∈ recognition.records.forest.flatMap Node.children, IsLine source node :=
  fun node hnode => (arrangedLine_ofRecognition hrecognize hflaws node hnode).isLine

/-- A text without flaws is read as sound definition lines. -/
theorem sound_ofRecognition {strict : Bool} {recognition : Recognition}
    (hrecognize : recognize source strict = .ok recognition) (hflaws : recognition.flaws = []) :
    ∀ line ∈ ofForest source recognition.records.forest, line.Sound := by
  intro line hline
  obtain ⟨node, hnode, hline⟩ := List.mem_filterMap.1 hline
  obtain ⟨line', hline', hsound⟩ := isLine_ofRecognition hrecognize hflaws node hnode
  rw [hline] at hline'
  cases hline'
  exact hsound

end Abnf.Metagrammar
