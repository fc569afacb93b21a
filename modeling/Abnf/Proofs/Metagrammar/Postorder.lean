import Abnf.Proofs.Metagrammar.Reading

/-!
# Walks over the phrases of a proper text

What is found by a walk that looks at every phrase when it is complete, behind the phrases within
it. Below the alternatives of a line, only the phrases of leaves and operators have a meaning of
their own, so such a walk can be compared with the atoms that are read from the line.

* `Denotes`: the atom that a phrase stands for, with the phrases within it.
* `Arranged.flatMap_postorderAll`: a walk that agrees with the atoms of single phrases agrees with
  the atoms of the alternatives.
* `ArrangedLine.reads`: so it does with those of a line.
-/

namespace Abnf

namespace Node

mutual

/-- The phrases of a tree, each behind the phrases within it. -/
def postorder : Node → List Node
  | mk rule offset length children => postorderAll children ++ [mk rule offset length children]

/-- The phrases of trees that stand one after the other, each behind the phrases within it. -/
def postorderAll : List Node → List Node
  | [] => []
  | node :: nodes => postorder node ++ postorderAll nodes

end

end Node

namespace Metagrammar

open Engine Definition Atom

variable {s : Symbol} {pos n : Nat} {node : Node} {nodes : List Node} {source : Source}

@[simp]
theorem symbol?_mk (s : Symbol) (pos n : Nat) (nodes : List Node) :
    symbol? (.mk s.index pos n nodes) = some s :=
  Symbol.ofIndex?_index s

theorem IsPhrase.symbol? (h : IsPhrase s node) : symbol? node = some s := by
  obtain ⟨pos, n, rfl⟩ := h
  exact symbol?_mk s pos n []

theorem IsPhrase.postorder (h : IsPhrase s node) : node.postorder = [node] := by
  obtain ⟨pos, n, rfl⟩ := h
  rfl

/-- Phrases within which no other is recorded are in order already. -/
theorem postorderAll_of_isPhrase (h : ∀ node ∈ nodes, ∃ s, IsPhrase s node) :
    Node.postorderAll nodes = nodes := by
  induction nodes with
  | nil => rfl
  | cons node nodes ih =>
    obtain ⟨⟨s, hnode⟩, hnodes⟩ := List.forall_mem_cons.1 h
    rw [Node.postorderAll, hnode.postorder, ih hnodes, List.singleton_append]

/-! ## Phrases of atoms -/

/-- The symbols of leaves and operators that need nothing else. -/
def plainSymbols : List Symbol :=
  [.abgOp, .aenOp, .tlsOp, .clsOp, .andOp, .notOp, .bkaOp, .bknOp, .optionOpen]

/-- The atom that the phrase of a leaf or an operator stands for, given the phrases within. -/
inductive Denotes (source : Source) : Node → Atom → Prop
  | plain {s : Symbol} {pos n : Nat} {op : Opcode} (hs : s ∈ plainSymbols) :
      Denotes source (.mk s.index pos n []) (.plain op)
  | ruleName {pos n : Nat} :
      Denotes source (.mk Symbol.rnmOp.index pos n []) (.ruleName pos (source.phrase pos n))
  | udtEmpty {pos n : Nat} :
      Denotes source (.mk Symbol.udtEmpty.index pos n []) (.udtName (source.phrase pos n) true)
  | udtNonEmpty {pos n : Nat} :
      Denotes source (.mk Symbol.udtNonEmpty.index pos n []) (.udtName (source.phrase pos n) false)
  | backReference {pos n : Nat} {name : Node} {modifier : Option Node} {caseInsensitive : Bool}
      (hname : IsPhrase .bkrName name)
      (hmodifier : ∀ node ∈ modifier, ∃ s ∈ [Symbol.bkrCi, .bkrCs], IsPhrase s node) :
      Denotes source (.mk Symbol.bkrOp.index pos n (modifier.toList ++ [name]))
        (.backReference pos (source.phrase name.offset name.length) caseInsensitive)
  | repetition {pos n : Nat} {min max : Option Node} (hmin : ∀ node ∈ min, IsPhrase .repMin node)
      (hmax : ∀ node ∈ max, IsPhrase .repMax node) :
      Denotes source (.mk Symbol.repOp.index pos n (min.toList ++ max.toList))
        (.repetition pos (min.map (numeralOf source)) (max.map (numeralOf source)))
  | exactly {pos n : Nat} {count : Node} (hcount : IsPhrase .repMinMax count) :
      Denotes source (.mk Symbol.repOp.index pos n [count]) (.exactly (numeralOf source count))
  | string {numeral : Symbol} {pos n : Nat} {numerals : List Node}
      (hnumeral : numeral ∈ stringSymbols) (h : ∀ node ∈ numerals, IsPhrase numeral node) :
      Denotes source (.mk Symbol.tbsOp.index pos n numerals)
        (.string (numerals.map (numeralOf source)))
  | range {low high : Symbol} {pos n : Nat} {min max : Node} (hbounds : (low, high) ∈ rangeSymbols)
      (hmin : IsPhrase low min) (hmax : IsPhrase high max) :
      Denotes source (.mk Symbol.trgOp.index pos n [min, max])
        (.range pos (numeralOf source min) (numeralOf source max))

/-- The symbols of the phrases within leaves and operators. -/
def innerSymbols : List Symbol :=
  [.bkrCi, .bkrCs, .bkrName, .repMin, .repMax, .repMinMax, .dString, .xString, .bString, .dmin,
    .dmax, .xmin, .xmax, .bmin, .bmax]

theorem Denotes.inner {a : Atom} (h : Denotes source node a) :
    ∀ child ∈ node.children, ∃ s ∈ innerSymbols, IsPhrase s child := by
  have hstring : ∀ s ∈ stringSymbols, s ∈ innerSymbols := by decide
  have hrange : ∀ bounds ∈ rangeSymbols, bounds.1 ∈ innerSymbols ∧ bounds.2 ∈ innerSymbols := by
    decide
  cases h with
  | plain | ruleName | udtEmpty | udtNonEmpty => simp [Node.children]
  | backReference hname hmodifier =>
    simp only [Node.children, List.mem_append, Option.mem_toList, List.mem_singleton]
    rintro child (hchild | rfl)
    · obtain ⟨s, hs, hphrase⟩ := hmodifier child hchild
      rcases List.mem_pair.1 hs with rfl | rfl
      · exact ⟨_, by decide, hphrase⟩
      · exact ⟨_, by decide, hphrase⟩
    · exact ⟨_, by decide, hname⟩
  | repetition hmin hmax =>
    simp only [Node.children, List.mem_append, Option.mem_toList]
    rintro child (hchild | hchild)
    · exact ⟨_, by decide, hmin child hchild⟩
    · exact ⟨_, by decide, hmax child hchild⟩
  | exactly hcount =>
    simp only [Node.children, List.forall_mem_singleton]
    exact ⟨_, by decide, hcount⟩
  | string hnumeral h => exact fun child hchild => ⟨_, hstring _ hnumeral, h child hchild⟩
  | range hbounds hmin hmax =>
    simp only [Node.children, List.forall_mem_cons, List.not_mem_nil, false_imp_iff, implies_true,
      and_true]
    exact ⟨⟨_, (hrange _ hbounds).1, hmin⟩, _, (hrange _ hbounds).2, hmax⟩

/-- A walk over the phrase of an atom looks at the phrases within, and then at the phrase. -/
theorem Denotes.flatMap_postorder {β : Type} {f : Node → List β} {a : Atom}
    (h : Denotes source node a) :
    node.postorder.flatMap f = node.children.flatMap f ++ f node := by
  have hinner := h.inner
  obtain ⟨rule, pos, n, children⟩ := node
  have hflat : Node.postorderAll children = children :=
    postorderAll_of_isPhrase fun child hchild => (hinner child hchild).imp fun _ hs => hs.2
  rw [Node.postorder, hflat, List.flatMap_append, List.flatMap_singleton, Node.children]

theorem denotes_leaf (hs : s.isLeaf = true)
    (h : ProperMatch s.properBody pos (source.bytes.toList.drop pos) n nodes) :
    ∃ a, leaf? source (.mk s.index pos n nodes) = some a ∧
      Denotes source (.mk s.index pos n nodes) a := by
  cases s with
  | abgOp | aenOp | tlsOp | clsOp =>
    cases nodes_eq_nil_of_isSilent rfl h
    exact ⟨_, rfl, .plain (by decide)⟩
  | rnmOp =>
    cases nodes_eq_nil_of_isSilent rfl h
    exact ⟨_, rfl, .ruleName⟩
  | udtEmpty =>
    cases nodes_eq_nil_of_isSilent rfl h
    exact ⟨_, rfl, .udtEmpty⟩
  | udtNonEmpty =>
    cases nodes_eq_nil_of_isSilent rfl h
    exact ⟨_, rfl, .udtNonEmpty⟩
  | bkrOp =>
    obtain ⟨modifier, name, rfl, hmodifier, hname⟩ := nodes_of_bkrOp h
    refine ⟨_, rfl, ?_⟩
    -- A modifier stands in front of the name, but it is no name.
    have hfind : (modifier.toList ++ [name]).find? (fun child =>
        decide (symbol? child = some Symbol.bkrName)) = some name := by
      cases modifier with
      | none => simp [hname.symbol?]
      | some node =>
        obtain ⟨s, hs, hnode⟩ := hmodifier node rfl
        rcases List.mem_pair.1 hs with rfl | rfl <;> simp [hnode.symbol?, hname.symbol?]
    simp only [Node.children, Node.offset, hfind, Option.elim_some]
    exact .backReference hname hmodifier
  | tbsOp =>
    obtain ⟨-, numeral, hnumeral, hnodes⟩ := nodes_of_tbsOp h
    exact ⟨_, rfl, .string hnumeral hnodes⟩
  | trgOp =>
    obtain ⟨low, high, min, max, hbounds, rfl, hmin, hmax⟩ := nodes_of_trgOp h
    exact ⟨_, rfl, .range hbounds hmin hmax⟩
  | _ => cases hs

/-- The bounds of a repetition are found by their symbols. -/
theorem bound?_eq (source : Source) (pos n : Nat) {min max : Option Node}
    (hmin : ∀ node ∈ min, IsPhrase .repMin node)
    (hmax : ∀ node ∈ max, IsPhrase .repMax node) :
    let node := Node.mk Symbol.repOp.index pos n (min.toList ++ max.toList)
    bound? source node .repMinMax = none ∧
      bound? source node .repMin = min.map (numeralOf source) ∧
      bound? source node .repMax = max.map (numeralOf source) := by
  have hten : ∀ {s node}, IsPhrase s node → s ∈ [Symbol.repMin, .repMax] →
      numeral source 10 node = numeralOf source node := by
    intro s node hnode hs
    rcases List.mem_pair.1 hs with rfl | rfl <;> simp [numeralOf, hnode.symbol?, baseOf]
  have hlow : ∀ node, min = some node → symbol? node = some .repMin ∧
      numeral source 10 node = numeralOf source node :=
    fun node hnode => ⟨(hmin node hnode).symbol?, hten (hmin node hnode) (by decide)⟩
  have hhigh : ∀ node, max = some node → symbol? node = some .repMax ∧
      numeral source 10 node = numeralOf source node :=
    fun node hnode => ⟨(hmax node hnode).symbol?, hten (hmax node hnode) (by decide)⟩
  cases min <;> cases max <;> simp_all [bound?, Node.children]

theorem denotes_operator (hs : s.isOperator = true ∨ s = .optionOpen)
    (h : ProperMatch s.properBody pos (source.bytes.toList.drop pos) n nodes) :
    ∃ a, operator? source (.mk s.index pos n nodes) = some a ∧
      Denotes source (.mk s.index pos n nodes) a := by
  rcases hs with hs | rfl
  case inr =>
    cases nodes_eq_nil_of_isSilent rfl h
    exact ⟨_, rfl, .plain (by decide)⟩
  cases s with
  | bkaOp | bknOp | andOp | notOp =>
    cases nodes_eq_nil_of_isSilent rfl h
    exact ⟨_, rfl, .plain (by decide)⟩
  | repOp =>
    obtain ⟨min, max, rfl, hmin, hmax⟩ | ⟨count, rfl, hcount⟩ := nodes_of_repOp h
    · refine ⟨_, ?_, .repetition hmin hmax⟩
      obtain ⟨hnone, hlow, hhigh⟩ := bound?_eq source pos n hmin hmax
      simp [operator?, hnone, hlow, hhigh, Node.offset]
    · refine ⟨_, ?_, .exactly hcount⟩
      simp [operator?, bound?, Node.children, hcount.symbol?, numeralOf, baseOf]
  | _ => cases hs

/-! ## Walks -/

/-- Whether a symbol only holds phrases together. -/
def Symbol.isFrame : Symbol → Bool
  | rule | ruleLookup | ruleName | defined | incAlt | alternation | concatenation | repetition => true
  | _ => false

/-- What a walk finds at the phrase of an atom and within is what `g` finds at the atom, and it
finds nothing at a phrase that only holds others together. -/
structure Agree {β : Type} (source : Source) (f : Node → List β) (g : Atom → List β) : Prop where
  frame : ∀ {s : Symbol}, s.isFrame = true → ∀ pos n nodes, f (.mk s.index pos n nodes) = []
  atom : ∀ {node : Node} {a : Atom}, Denotes source node a → node.postorder.flatMap f = g a

/-- A walk that finds nothing within the phrases of atoms is compared at these phrases only. -/
theorem Agree.of_atoms {β : Type} {f : Node → List β} {g : Atom → List β}
    (hnil : ∀ s : Symbol, s.isFrame = true ∨ s ∈ innerSymbols →
      ∀ pos n nodes, f (.mk s.index pos n nodes) = [])
    (hatom : ∀ {node a}, Denotes source node a → f node = g a) : Agree source f g := by
  refine ⟨fun {s} hs => hnil s (Or.inl hs), fun {node a} h => ?_⟩
  have hchildren : node.children.flatMap f = [] := by
    refine List.flatMap_eq_nil_iff.2 fun child hchild => ?_
    obtain ⟨s, hs, pos, n, rfl⟩ := h.inner child hchild
    exact hnil s (Or.inr hs) pos n []
  rw [h.flatMap_postorder, hchildren, List.nil_append, hatom h]

/-- The atoms that are read from phrases. -/
def atomsOf (source : Source) : Part → List Node → List Atom
  | .element, nodes => (readElement source nodes).elim [] Expr.atoms
  | .sequence, nodes => Expr.atomsAll (readElements source nodes)
  | .choice, nodes => Expr.atomsAll (readAlternatives source nodes)

variable {β : Type} {f : Node → List β} {g : Atom → List β}

theorem Agree.flatMap_frame (h : Agree source f g) (hs : s.isFrame = true) (pos n : Nat)
    (nodes : List Node) : (Node.mk s.index pos n nodes).postorder.flatMap f =
      (Node.postorderAll nodes).flatMap f := by
  rw [Node.postorder, List.flatMap_append, List.flatMap_singleton, h.frame hs, List.append_nil]

/-- A walk that agrees with the atoms of single phrases agrees with those of the alternatives. -/
theorem Arranged.flatMap_postorderAll (hagree : Agree source f g) {part : Part}
    (h : Arranged source part nodes) :
    (Node.postorderAll nodes).flatMap f = (atomsOf source part nodes).flatMap g := by
  induction h with
  | leaf hs hmatch =>
    obtain ⟨a, ha, hdenotes⟩ := denotes_leaf hs hmatch
    simp [atomsOf, readElement_leaf hs ha, Node.postorderAll, Expr.atoms, hagree.atom hdenotes]
  | bracketed _ _ ih =>
    simp [atomsOf, readElement_alternation, Node.postorderAll, Expr.atoms,
      hagree.flatMap_frame (s := .alternation) rfl, ih]
  | governed hs hmatch h ih =>
    obtain ⟨a, ha, hdenotes⟩ := denotes_operator hs hmatch
    obtain ⟨e, he, -⟩ := h.reads
    simp only [atomsOf, he, Option.elim_some] at ih
    simp [atomsOf, readElement_operator ha he, Node.postorderAll, Expr.atoms,
      hagree.atom hdenotes, ih]
  | noElement => simp [atomsOf, Node.postorderAll, readElements, Expr.atomsAll]
  | elements h _ ihelement ih =>
    obtain ⟨e, he, -⟩ := h.reads
    simp only [atomsOf, he, Option.elim_some] at ihelement ih
    simp [atomsOf, Node.postorderAll, readElements, elementOf, he, Expr.atomsAll,
      hagree.flatMap_frame (s := .repetition) rfl, ihelement, ih]
  | noAlternative => simp [atomsOf, Node.postorderAll, readAlternatives, Expr.atomsAll]
  | alternatives _ _ _ ihsequence ih =>
    simp only [atomsOf] at ihsequence ih
    simp [atomsOf, Node.postorderAll, readAlternatives, alternativeOf, Expr.atomsAll, Expr.atoms,
      hagree.flatMap_frame (s := .concatenation) rfl, ihsequence, ih]

/-! ## Lines -/

/-- What a line and the definition that is read from it have in common: the first phrases of the
line are its name and its sign, and walks agree on the atoms. -/
structure Renders (source : Source) (line : Node) (definition : Definition) : Prop where
  head : ∃ name sign symbol, [name, sign] <+: line.postorder ∧ IsPhrase .ruleName name ∧
    symbol ∈ [Symbol.incAlt, .defined] ∧ IsPhrase symbol sign ∧
    definition.offset = name.offset ∧ definition.name = source.phrase name.offset name.length ∧
    definition.incremental = decide (symbol = .incAlt)
  atoms : ∀ {β : Type} {f : Node → List β} {g : Atom → List β}, Agree source f g →
    line.postorder.flatMap f = definition.atoms.flatMap g

/-- A line is read as a definition that has its name, its sign and its atoms. -/
theorem ArrangedLine.renders {line : Node} (h : ArrangedLine source line) :
    ∃ definition, ofNode? source line = some definition ∧ Renders source line definition := by
  obtain ⟨pos, n, m, name, sign, symbol, _, rfl, hname, hsymbol, hsign, _, _, inner, rfl, -,
    hchoice⟩ := h
  have hframes : ∀ {β : Type} {f : Node → List β} {g : Atom → List β}, Agree source f g →
      f name = [] ∧ f sign = [] := by
    intro β f g hagree
    obtain ⟨_, _, rfl⟩ := hname
    obtain ⟨_, _, rfl⟩ := hsign
    have hframe : ∀ s ∈ [Symbol.incAlt, .defined], s.isFrame = true := by decide
    exact ⟨hagree.frame rfl _ _ _, hagree.frame (hframe symbol hsymbol) _ _ _⟩
  refine ⟨_, rfl, ?_, fun hagree => ?_⟩
  · refine ⟨name, sign, symbol, ?_, hname, hsymbol, hsign, rfl, rfl, ?_⟩
    · simp only [Node.postorder, Node.postorderAll, hname.postorder, hsign.postorder]
      exact ((List.prefix_append _ _).trans (List.prefix_append _ _)).trans
        (List.prefix_append _ _)
    · simp only [hsign.symbol?, Option.some_inj]
  · obtain ⟨hfname, hfsign⟩ := hframes hagree
    rw [hagree.flatMap_frame rfl]
    simp only [Node.postorderAll, List.flatMap_append, List.append_nil, hname.postorder,
      hsign.postorder, List.flatMap_singleton, List.nil_append, hfname, hfsign,
      hagree.flatMap_frame (s := .ruleLookup) rfl, hagree.flatMap_frame (s := .alternation) rfl]
    exact hchoice.flatMap_postorderAll hagree

end Metagrammar

end Abnf
