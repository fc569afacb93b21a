import Abnf.Proofs.LineEnds.Recognition

/-!
# Reading with other line ends

What is read from a phrase depends on its bytes only if the phrase cannot go on in the next line.
Such phrases are spelled by the same bytes whatever the line ends are, so the definition lines of
converted bytes are those of the bytes, and only the offsets that they keep for diagnostics change.

* `onOneLine_of_mem`: phrases of names, numerals, strings and operators stand on one line.
* `ofForest_convert`: the definition lines of converted bytes.
* `Tables.ofDefinitions_move`: tables do not depend on the offsets of definition lines, but for the
  offsets of their flaws.
-/

namespace Abnf

/-! ## Offsets in definition lines -/

/-- A numeral that has gone elsewhere. -/
def Numeral.move (place : Nat → Nat) (numeral : Numeral) : Numeral :=
  { numeral with offset := place numeral.offset }

/-- An atom whose phrase has gone elsewhere. -/
def Atom.move (place : Nat → Nat) : Atom → Atom
  | plain op => plain op
  | ruleName offset name => ruleName (place offset) name
  | udtName name empty => udtName name empty
  | backReference offset name caseInsensitive => backReference (place offset) name caseInsensitive
  | repetition offset min max =>
    repetition (place offset) (min.map (Numeral.move place)) (max.map (Numeral.move place))
  | exactly count => exactly (count.move place)
  | string chars => string (chars.map (Numeral.move place))
  | range offset min max => range (place offset) (min.move place) (max.move place)

/-- A definition line that has gone elsewhere. -/
def Definition.move (place : Nat → Nat) (definition : Definition) : Definition :=
  { definition with
    offset := place definition.offset
    alternatives := Expr.mapAll (Atom.move place) definition.alternatives }

section

variable (place : Nat → Nat)

namespace Atom

theorem udt?_move (atom : Atom) : (atom.move place).udt? = atom.udt? := by
  cases atom <;> rfl

theorem resolve_move (names : Names) (atom : Atom) :
    (atom.move place).resolve names = atom.resolve names := by
  cases atom with
  | repetition offset min max => cases min <;> cases max <;> rfl
  | string chars => simp only [move, resolve, List.map_map]; rfl
  | _ => rfl

theorem numerals_move (atom : Atom) :
    (atom.move place).numerals = atom.numerals.map (Numeral.move place) := by
  cases atom with
  | repetition offset min max => cases min <;> cases max <;> rfl
  | _ => rfl

theorem boundsFlaw?_move (atom : Atom) : (atom.move place).boundsFlaw? =
    atom.boundsFlaw?.map fun flaw => (place flaw.1, flaw.2) := by
  cases atom with
  | repetition offset min max =>
    cases max with
    | none => rfl
    | some max =>
      have hleast : (min.map (Numeral.move place)).elim 0 Numeral.word = min.elim 0 Numeral.word := by
        cases min <;> rfl
      have hmost : (max.move place).word = max.word := rfl
      simp only [move, Option.map_some, boundsFlaw?, hleast, hmost]
      split <;> rfl
  | range offset min max =>
    have hmin : (min.move place).word = min.word := rfl
    have hmax : (max.move place).word = max.word := rfl
    simp only [move, boundsFlaw?, hmin, hmax]
    split <;> rfl
  | _ => rfl

theorem localFlaws_move (atom : Atom) : (atom.move place).localFlaws =
    atom.localFlaws.map fun flaw => (place flaw.1, flaw.2) := by
  have hfits : ∀ numeral : Numeral, (numeral.move place).fits = numeral.fits := fun _ => rfl
  simp only [localFlaws, numerals_move, boundsFlaw?_move, List.filter_map, List.map_map,
    List.map_append, Option.toList_map, Function.comp_def, hfits]
  rfl

theorem referenceFlaw?_move (names : Names) (atom : Atom) :
    (atom.move place).referenceFlaw? names =
      (atom.referenceFlaw? names).map fun flaw => (place flaw.1, flaw.2) := by
  cases atom with
  | ruleName offset name | backReference offset name caseInsensitive =>
    simp only [move, referenceFlaw?]
    split <;> rfl
  | _ => rfl

theorem filterMap_udt?_move (atoms : List Atom) :
    (atoms.map (move place)).filterMap udt? = atoms.filterMap udt? := by
  simp only [List.filterMap_map, Function.comp_def, udt?_move]

theorem filterMap_referenceFlaw?_move (names : Names) (atoms : List Atom) :
    (atoms.map (move place)).filterMap (referenceFlaw? names) =
      (atoms.filterMap (referenceFlaw? names)).map fun flaw => (place flaw.1, flaw.2) := by
  simp only [List.filterMap_map, Function.comp_def, referenceFlaw?_move, List.map_filterMap]

end Atom

namespace Definition

theorem atoms_move (definition : Definition) :
    (definition.move place).atoms = definition.atoms.map (Atom.move place) := by
  rw [atoms, move, Expr.atomsAll_mapAll, atoms]

theorem review_move (known : List String) (definitions : List Definition) :
    review known (definitions.map (move place)) =
      (review known definitions).map fun line => (line.1.move place, line.2) := by
  induction definitions generalizing known with
  | nil => rfl
  | cons definition definitions ih =>
    have hobjection : (definition.move place).objection? known = definition.objection? known := rfl
    have hlower : (definition.move place).lower = definition.lower := rfl
    have hincremental : (definition.move place).incremental = definition.incremental := rfl
    simp only [List.map_cons, review, hobjection, hlower, hincremental, ih]

theorem filter_move {p : Definition → Bool} (hp : ∀ line : Definition, p (line.move place) = p line)
    (lines : List Definition) :
    (lines.map (move place)).filter p = (lines.filter p).map (move place) := by
  simp only [List.filter_map, Function.comp_def, hp]

theorem map_lower_move (lines : List Definition) :
    (lines.map (move place)).map lower = lines.map lower := by
  rw [List.map_map]
  rfl

theorem flatMap_atoms_move (lines : List Definition) :
    (lines.map (move place)).flatMap atoms = (lines.flatMap atoms).map (Atom.move place) := by
  simp only [List.flatMap_map, atoms_move, List.map_flatMap]

/-- Alternatives stand for the same expression wherever they stand. -/
theorem map_resolve_move (names : Names) (lines : List Definition) :
    (Expr.alt ((lines.map (move place)).flatMap alternatives)).map (Atom.resolve names) =
      (Expr.alt (lines.flatMap alternatives)).map (Atom.resolve names) := by
  have hmoved : Expr.alt ((lines.map (move place)).flatMap alternatives) =
      (Expr.alt (lines.flatMap alternatives)).map (Atom.move place) := by
    simp only [Expr.map, move, Expr.mapAll_eq_map, List.map_flatMap, List.flatMap_map]
  simp only [hmoved, Expr.map_map, Atom.resolve_move]

/-- The flaws of lines by themselves stand where the lines do. -/
theorem flatMap_localFlaws_move (reviewed : List (Definition × Option MeaningFlaw)) :
    ((reviewed.map fun line => (line.1.move place, line.2)).flatMap fun (line, objection) =>
      match objection with
      | some flaw => [(line.offset, flaw)]
      | none => line.atoms.flatMap Atom.localFlaws) =
    (reviewed.flatMap fun (line, objection) =>
      match objection with
      | some flaw => [(line.offset, flaw)]
      | none => line.atoms.flatMap Atom.localFlaws).map fun flaw => (place flaw.1, flaw.2) := by
  rw [List.flatMap_map, List.map_flatMap]
  refine List.flatMap_congr fun line _ => ?_
  obtain ⟨line, objection⟩ := line
  cases objection with
  | some flaw => rfl
  | none => simp only [atoms_move, List.flatMap_map, Atom.localFlaws_move, List.map_flatMap]

end Definition

/-- Tables do not depend on where definition lines stand, and their flaws stand where the lines
do. -/
theorem Tables.ofDefinitions_move (definitions : List Definition) :
    ofDefinitions (definitions.map (Definition.move place)) =
      { ofDefinitions definitions with
        flaws := (ofDefinitions definitions).flaws.map fun flaw => (place flaw.1, flaw.2) } := by
  have hcontributing : ∀ reviewed : List (Definition × Option MeaningFlaw),
      ((reviewed.map fun line => (line.1.move place, line.2)).filter fun line =>
        line.2.isNone).map Prod.fst =
          ((reviewed.filter fun line => line.2.isNone).map Prod.fst).map (Definition.move place) := by
    intro reviewed
    rw [List.filter_map, List.map_map, List.map_map]
    rfl
  have hdefining : ∀ lines : List Definition,
      ((lines.map (Definition.move place)).filter fun line => !line.incremental) =
        (lines.filter fun line => !line.incremental).map (Definition.move place) :=
    Definition.filter_move place fun _ => rfl
  have hsame : ∀ (name : String) (lines : List Definition),
      ((lines.map (Definition.move place)).filter fun line => line.lower == name) =
        (lines.filter fun line => line.lower == name).map (Definition.move place) :=
    fun name => Definition.filter_move place fun _ => rfl
  simp only [ofDefinitions, Definition.review_move, hcontributing, hdefining, hsame,
    Definition.map_lower_move, Definition.flatMap_atoms_move, Definition.map_resolve_move,
    Atom.filterMap_udt?_move, Atom.filterMap_referenceFlaw?_move, List.map_append]
  congr 1
  · rw [List.zipIdx_map, List.map_map]
    rfl
  · exact congrArg₂ (· ++ ·) (Definition.flatMap_localFlaws_move place _) rfl

end

namespace Metagrammar

open Engine Definition

/-! ## Phrases on one line -/

/-- Whether the phrases of a symbol cannot go on in the next line. -/
def Symbol.isUnbroken : Symbol → Bool
  | ruleName | rnmOp | udtEmpty | udtNonEmpty | repOp | starOp | andOp | notOp | bkaOp | bknOp
  | abgOp | aenOp | trgOp | tbsOp | tlsOp | tlsOpen | tlsString | tlsClose | clsOp | clsOpen
  | clsString | clsClose | repMin | repMinMax | repMax | repNum | dString | xString | bString | dec
  | hex | bin | dmin | dmax | bmin | bmax | xmin | xmax | dnum | bnum | xnum | alphanum | bkrOp
  | bkrModifier | bkrCi | bkrCs | bkrName => true
  | _ => false

/-- Whether what an expression matches cannot go on in the next line. -/
def isUnbroken (e : Expr Opcode) : Bool :=
  e.isRunnable (among Symbol.isUnbroken) && e.atoms.all isBlind

theorem isUnbroken_properBody {s : Symbol} (hs : s.isUnbroken = true) :
    isUnbroken s.properBody = true := by
  cases s <;> first | rfl | cases hs

section

variable {e : Expr Opcode} {pos n : Nat} {rest : List UInt8} {result : Option Nat}
  {nodes : List Node} {events : List Event}

theorem not_mem_of_leaf {op : Opcode} (hop : isBlind op = true)
    (h : leafResult? op pos rest = some (some n)) : 10 ∉ rest.take n := by
  cases op with
  | tbs chars =>
    have hchars : ∀ char ∈ chars, char ≠ 10 ∧ char ≠ 13 := by simpa [isBlind] using hop
    obtain ⟨hbegins, rfl⟩ := literalResult_eq_some (Option.some.inj h)
    exact (beginsWith_convert .cr rest hchars).2 hbegins
  | trg min max =>
    obtain ⟨rfl, byte, more, rfl, hrange⟩ := rangeResult_eq_some (Option.some.inj h)
    rintro hmem
    obtain rfl : 10 = byte := by simpa using hmem
    have hlf : (min ≤ (10 : UInt8).toUInt32 && (10 : UInt8).toUInt32 ≤ max) = false := by
      simp only [isBlind, Bool.and_eq_true, Bool.not_eq_true'] at hop
      exact hop.1
    exact absurd (hlf.symm.trans hrange) Bool.false_ne_true
  | abg | aen | tls => cases hop
  | _ => cases h

/-- What an expression without line breaks matches has no line feed. -/
theorem not_mem_of_isUnbroken (h : Run properScheme e pos rest result nodes events)
    (he : isUnbroken e = true) : ∀ n, result = some n → 10 ∉ rest.take n := by
  have happend : ∀ {rest : List UInt8} {m n : Nat}, 10 ∉ rest.take m → 10 ∉ (rest.drop m).take n →
      10 ∉ rest.take (m + n) := by
    intro rest m n hm hn hmem
    rw [List.take_add] at hmem
    exact (List.mem_append.1 hmem).elim hm hn
  simp only [isUnbroken, Bool.and_eq_true] at he
  obtain ⟨hrefs, hatoms⟩ := he
  -- By induction on the run: no symbol on the way breaks lines, and no leaf takes a line feed.
  induction h with
  | leaf h =>
    rintro n rfl
    exact not_mem_of_leaf (by simpa [Expr.atoms] using hatoms) h
  | rule hbody _ ih =>
    obtain ⟨s, hs, rfl⟩ := Option.map_eq_some_iff.1 hbody
    cases index_of_ofIndex? hs
    have hbody := isUnbroken_properBody (among_index.symm.trans hrefs)
    simp only [isUnbroken, Bool.and_eq_true] at hbody
    exact ih hbody.1 hbody.2
  | altNil | catMiss => simp
  | catNil => simp
  | altHit _ ih =>
    simp only [Expr.isRunnable, Expr.allRunnable, Expr.atoms, Expr.atomsAll, Bool.and_eq_true,
      List.all_append] at hrefs hatoms
    exact ih hrefs.1 hatoms.1
  | altMiss _ _ _ ih =>
    simp only [Expr.isRunnable, Expr.allRunnable, Expr.atoms, Expr.atomsAll, Bool.and_eq_true,
      List.all_append] at hrefs hatoms
    exact ih hrefs.2 hatoms.2
  | catNext _ _ ih ih' =>
    simp only [Expr.isRunnable, Expr.allRunnable, Expr.atoms, Expr.atomsAll, Bool.and_eq_true,
      List.all_append] at hrefs hatoms
    intro n hn
    obtain ⟨m, hm, rfl⟩ := Option.map_eq_some_iff.1 hn
    exact happend (ih hrefs.1 hatoms.1 _ rfl) (ih' hrefs.2 hatoms.2 m hm)
  | repDone | repMiss | repEmpty =>
    intro n hn
    simp [(enough_eq_some hn).2]
  | repNext _ _ _ ih ih' =>
    simp only [Expr.atoms, List.all_cons, Bool.and_eq_true] at hatoms
    intro n hn
    obtain ⟨m, hm, rfl⟩ := Option.map_eq_some_iff.1 hn
    refine happend (ih hrefs hatoms.2 _ rfl) (ih' hrefs ?_ m hm)
    simpa [Expr.atoms, isBlind] using hatoms.2
  | and =>
    intro n hn
    obtain ⟨_, -, rfl⟩ := Option.map_eq_some_iff.1 hn
    simp
  | not =>
    intro n hn
    split at hn
    · cases hn
    · cases hn
      simp

/-- Whether a phrase has no line feed. -/
def OnOneLine (bytes : List UInt8) (node : Node) : Prop :=
  10 ∉ (bytes.drop node.offset).take node.length

/-- The phrases of symbols without line breaks stand on one line, wherever they are recorded. -/
theorem onOneLine_of_mem {bytes : List UInt8} (h : Run properScheme e pos rest result nodes events)
    (hrest : rest = bytes.drop pos) : ∀ node ∈ Node.postorderAll nodes,
      among Symbol.isUnbroken node.rule = true → OnOneLine bytes node := by
  have happend : ∀ {nodes nodes' : List Node},
      (∀ node ∈ Node.postorderAll nodes,
        among Symbol.isUnbroken node.rule = true → OnOneLine bytes node) →
      (∀ node ∈ Node.postorderAll nodes',
        among Symbol.isUnbroken node.rule = true → OnOneLine bytes node) →
      ∀ node ∈ Node.postorderAll (nodes ++ nodes'),
        among Symbol.isUnbroken node.rule = true → OnOneLine bytes node := by
    intro nodes nodes' h h'
    rw [postorderAll_append]
    exact List.forall_mem_append.2 ⟨h, h'⟩
  -- By induction on the run; a rule adds its own phrase, which `not_mem_of_isUnbroken` is about.
  induction h with
  | leaf | altNil | catNil | catMiss | repDone | repMiss | and | not => simp [Node.postorderAll]
  | @rule _ _ pos rest result inner _ hbody hrun ih =>
    obtain ⟨s, hs, rfl⟩ := Option.map_eq_some_iff.1 hbody
    cases index_of_ofIndex? hs
    unfold Scheme.wrap
    split
    · split
      · rename_i n _
        have hself : s.isUnbroken = true → OnOneLine bytes (.mk s.index pos n inner) := by
          intro hunbroken
          have hfree := not_mem_of_isUnbroken hrun (isUnbroken_properBody hunbroken) n rfl
          rwa [hrest] at hfree
        simp only [Node.postorderAll, Node.postorder, List.append_nil, List.forall_mem_append]
        refine ⟨ih hrest, ?_⟩
        simpa [Node.rule] using hself
      · exact ih hrest
    · simp [Node.postorderAll]
  | altHit _ ih => exact ih hrest
  | altMiss _ _ _ ih => exact ih hrest
  | catNext _ _ ih ih' | repNext _ _ _ ih ih' =>
    split
    · exact happend (ih hrest) (ih' (by rw [hrest, List.drop_drop]))
    · simp [Node.postorderAll]
  | repEmpty _ _ ih =>
    split
    · exact ih hrest
    · simp [Node.postorderAll]

end

/-! ## Phrases -/

section

variable (ending : Ending) {bytes : Array UInt8} {node : Node}

@[simp] theorem rule_move (place : Nat → Nat) (node : Node) : (node.move place).rule = node.rule := by
  cases node; rfl

@[simp] theorem offset_move (place : Nat → Nat) (node : Node) :
    (node.move place).offset = place node.offset := by
  cases node; rfl

@[simp] theorem children_move (place : Nat → Nat) (node : Node) :
    (node.move place).children = node.children.map (Node.move place) := by
  cases node
  exact Node.moveAll_eq_map place _

@[simp] theorem symbol?_move (place : Nat → Nat) (node : Node) :
    Atom.symbol? (node.move place) = Atom.symbol? node := by
  rw [Atom.symbol?, rule_move, Atom.symbol?]

theorem length_move (hnode : OnOneLine bytes.toList node) :
    (node.move (ending.shift bytes.toList)).length = node.length := by
  cases node
  exact (ending.shift_sub _ _ _).trans (ending.shift_of_not_mem hnode)

/-- A phrase on one line is spelled by the same bytes. -/
theorem take_drop_convert (hnode : OnOneLine bytes.toList node) :
    ((ending.source bytes).bytes.toList.drop (ending.shift bytes.toList node.offset)).take
        node.length = (bytes.toList.drop node.offset).take node.length := by
  have hsource : (ending.source bytes).bytes.toList = ending.convert bytes.toList := rfl
  rw [hsource, ending.drop_convert, ending.take_convert hnode]

theorem phrase_move (hnode : OnOneLine bytes.toList node) :
    (ending.source bytes).phrase (ending.shift bytes.toList node.offset)
        (node.move (ending.shift bytes.toList)).length =
      (Source.ofBytes bytes).phrase node.offset node.length := by
  rw [phrase_eq rfl, phrase_eq rfl, length_move ending hnode, take_drop_convert ending hnode]
  rfl

theorem numeral_move (hnode : OnOneLine bytes.toList node) (base : Nat) :
    Atom.numeral (ending.source bytes) base (node.move (ending.shift bytes.toList)) =
      (Atom.numeral (.ofBytes bytes) base node).move (ending.shift bytes.toList) := by
  rw [Atom.numeral, offset_move, phrase_move ending hnode]
  rfl

theorem numeralOf_move (hnode : OnOneLine bytes.toList node) :
    Atom.numeralOf (ending.source bytes) (node.move (ending.shift bytes.toList)) =
      (Atom.numeralOf (.ofBytes bytes) node).move (ending.shift bytes.toList) := by
  rw [Atom.numeralOf, symbol?_move, numeral_move ending hnode, Atom.numeralOf]

theorem quoted_eq (source : Source) (node : Node) : Atom.quoted source node =
    (((source.bytes.toList.drop node.offset).take node.length).take (node.length - 1)).drop 1 := by
  have hlength : node.offset + node.length - 1 - (node.offset + 1) = node.length - 1 - 1 := by omega
  rw [Atom.quoted, Array.toList_extract, List.extract_eq_take_drop, List.take_take,
    Nat.min_eq_left (Nat.sub_le _ _), List.drop_take, List.drop_drop, hlength]

theorem quoted_move (hnode : OnOneLine bytes.toList node) :
    Atom.quoted (ending.source bytes) (node.move (ending.shift bytes.toList)) =
      Atom.quoted (.ofBytes bytes) node := by
  rw [quoted_eq, quoted_eq, offset_move, length_move ending hnode, take_drop_convert ending hnode]
  rfl

theorem bound?_move {symbol : Symbol}
    (hnodes : ∀ child ∈ node.children, Atom.symbol? child = some symbol →
      OnOneLine bytes.toList child) :
    Atom.bound? (ending.source bytes) (node.move (ending.shift bytes.toList)) symbol =
      (Atom.bound? (.ofBytes bytes) node symbol).map (Numeral.move (ending.shift bytes.toList)) := by
  simp only [Atom.bound?, children_move, List.find?_map, Function.comp_def, symbol?_move,
    Option.map_map]
  cases hfind : node.children.find? fun child => Atom.symbol? child = some symbol with
  | none => rfl
  | some child =>
    have hsymbol : Atom.symbol? child = some symbol := by simpa using List.find?_some hfind
    exact congrArg some (numeral_move ending
      (hnodes child (List.mem_of_find?_eq_some hfind) hsymbol) 10)

end

/-! ## Atoms -/

section

variable (ending : Ending) {bytes : Array UInt8} {s : Symbol} {pos n : Nat} {inner : List Node}

theorem mem_postorder (node : Node) : node ∈ node.postorder := by
  cases node
  simp [Node.postorder]

theorem mem_postorderAll {node inside : Node} {nodes : List Node} (h : node ∈ nodes)
    (hinside : inside ∈ node.postorder) : inside ∈ Node.postorderAll nodes := by
  induction nodes with
  | nil => cases h
  | cons first nodes ih =>
    rw [Node.postorderAll, List.mem_append]
    rcases List.mem_cons.1 h with rfl | h
    · exact Or.inl hinside
    · exact Or.inr (ih h)

theorem mem_postorder_of_child {node child inside : Node} (h : child ∈ node.children)
    (hinside : inside ∈ child.postorder) : inside ∈ node.postorder := by
  cases node
  exact List.mem_append_left _ (mem_postorderAll h hinside)

/-- A phrase that is read, and the phrases within it, stand on one line. -/
theorem onOneLine_of_match (hs : s.isRecorded = true)
    (h : ProperMatch s.properBody pos (bytes.toList.drop pos) n inner) :
    (s.isUnbroken = true → OnOneLine bytes.toList (.mk s.index pos n inner)) ∧
      ∀ child ∈ inner, ∀ t : Symbol, Atom.symbol? child = some t → t.isUnbroken = true →
        OnOneLine bytes.toList child := by
  obtain ⟨events, hrun, -⟩ := properMatch_ref_iff.2 ⟨inner, h, rfl⟩
  rw [hs, if_pos rfl] at hrun
  have hall := onOneLine_of_mem hrun rfl
  simp only [Node.postorderAll, Node.postorder, List.append_nil, List.forall_mem_append,
    List.forall_mem_singleton] at hall
  refine ⟨fun hunbroken => hall.2 (among_index.trans hunbroken), fun child hchild t ht hunbroken => ?_⟩
  refine hall.1 child (mem_postorderAll hchild (mem_postorder child)) ?_
  have hsymbol : Symbol.ofIndex? child.rule = some t := ht
  rw [among, hsymbol, Option.any_some, hunbroken]

theorem leaf?_move (hs : s.isLeaf = true)
    (h : ProperMatch s.properBody pos (bytes.toList.drop pos) n inner) :
    Atom.leaf? (ending.source bytes)
        (Node.move (ending.shift bytes.toList) (.mk s.index pos n inner)) =
      (Atom.leaf? (.ofBytes bytes) (.mk s.index pos n inner)).map
        (Atom.move (ending.shift bytes.toList)) := by
  let place := ending.shift bytes.toList
  have hrecorded : s.isRecorded = true := by
    cases s <;> first | rfl | cases hs
  have hunbroken : s.isUnbroken = true := by
    cases s <;> first | rfl | cases hs
  obtain ⟨hself, hinner⟩ := onOneLine_of_match hrecorded h
  have hphrase := phrase_move ending (hself hunbroken)
  have hquoted := quoted_move ending (hself hunbroken)
  -- What is read of a leaf are phrases on one line, and these have the same text where they go.
  -- Only numerals and back references are read from the phrases inside.
  cases s with
  | abgOp | aenOp => rfl
  | rnmOp => exact congrArg (fun name => some (Atom.ruleName (place pos) name)) hphrase
  | udtEmpty => exact congrArg (fun name => some (Atom.udtName name true)) hphrase
  | udtNonEmpty => exact congrArg (fun name => some (Atom.udtName name false)) hphrase
  | bkrOp =>
    have hname : ((inner.map (Node.move place)).find? fun child =>
          Atom.symbol? child = some .bkrName).elim "" (fun child =>
            (ending.source bytes).phrase child.offset child.length) =
        (inner.find? fun child => Atom.symbol? child = some .bkrName).elim "" fun child =>
          (Source.ofBytes bytes).phrase child.offset child.length := by
      simp only [List.find?_map, Function.comp_def, symbol?_move]
      cases hfind : inner.find? fun child => Atom.symbol? child = some .bkrName with
      | none => rfl
      | some child =>
        have hsymbol : Atom.symbol? child = some .bkrName := by simpa using List.find?_some hfind
        have hchild := hinner child (List.mem_of_find?_eq_some hfind) _ hsymbol rfl
        simp only [Option.map_some, Option.elim_some, offset_move]
        exact phrase_move ending hchild
    have hcase : ((inner.map (Node.move place)).any fun child =>
          Atom.symbol? child = some .bkrCs) =
        inner.any fun child => Atom.symbol? child = some .bkrCs := by
      simp only [List.any_map, Function.comp_def, symbol?_move]
    rw [← Node.moveAll_eq_map] at hname hcase
    exact congrArg₂ (fun name caseSensitive =>
      some (Atom.backReference (place pos) name !caseSensitive)) hname hcase
  | tlsOp =>
    exact congrArg (fun quoted => some (Atom.plain (.tls (quoted.map fun byte =>
      (lowerByte byte).toUInt32)))) hquoted
  | clsOp =>
    exact congrArg (fun quoted => some (Atom.plain (if (quoted.map UInt8.toUInt32).isEmpty then
      .tls (quoted.map UInt8.toUInt32) else .tbs (quoted.map UInt8.toUInt32)))) hquoted
  | tbsOp =>
    obtain ⟨-, numeral, hnumeral, hphrases⟩ := nodes_of_tbsOp h
    have hunbroken : ∀ s ∈ stringSymbols, s.isUnbroken = true := by decide
    have hnumerals : (Node.moveAll place inner).map (Atom.numeralOf (ending.source bytes)) =
        (inner.map (Atom.numeralOf (.ofBytes bytes))).map (Numeral.move place) := by
      rw [Node.moveAll_eq_map, List.map_map, List.map_map]
      exact List.map_congr_left fun child hchild => numeralOf_move ending
        (hinner child hchild _ (hphrases child hchild).symbol? (hunbroken _ hnumeral))
    exact congrArg (fun numerals => some (Atom.string numerals)) hnumerals
  | trgOp =>
    obtain ⟨low, high, min, max, hsymbols, rfl, hmin, hmax⟩ := nodes_of_trgOp h
    have hunbroken : ∀ s ∈ rangeSymbols, s.1.isUnbroken = true ∧ s.2.isUnbroken = true := by decide
    have hlow := hinner min (by simp) low hmin.symbol? (hunbroken _ hsymbols).1
    have hhigh := hinner max (by simp) high hmax.symbol? (hunbroken _ hsymbols).2
    exact congrArg₂ (fun min max => some (Atom.range (place pos) min max))
      (numeralOf_move ending hlow) (numeralOf_move ending hhigh)
  | _ => cases hs

theorem operator?_move (hs : s.isOperator = true ∨ s = .optionOpen)
    (h : ProperMatch s.properBody pos (bytes.toList.drop pos) n inner) :
    Atom.operator? (ending.source bytes)
        (Node.move (ending.shift bytes.toList) (.mk s.index pos n inner)) =
      (Atom.operator? (.ofBytes bytes) (.mk s.index pos n inner)).map
        (Atom.move (ending.shift bytes.toList)) := by
  rcases hs with hs | rfl
  case inr => rfl
  cases s with
  | bkaOp | bknOp | andOp | notOp => rfl
  | repOp =>
    obtain ⟨-, hinner⟩ := onOneLine_of_match rfl h
    have hbound : ∀ t : Symbol, t.isUnbroken = true →
        Atom.bound? (ending.source bytes)
            (Node.move (ending.shift bytes.toList) (.mk Symbol.repOp.index pos n inner)) t =
          (Atom.bound? (.ofBytes bytes) (.mk Symbol.repOp.index pos n inner) t).map
            (Numeral.move (ending.shift bytes.toList)) :=
      fun t ht => bound?_move ending fun child hchild hsymbol => hinner child hchild t hsymbol ht
    simp only [Atom.operator?, symbol?_move, symbol?_mk, hbound .repMinMax rfl, hbound .repMin rfl,
      hbound .repMax rfl, offset_move]
    cases Atom.bound? (.ofBytes bytes) (.mk Symbol.repOp.index pos n inner) .repMinMax <;> rfl
  | _ => cases hs

/-! ## Definition lines -/

/-- What is read from phrases is read from them where they have gone, with other offsets. -/
def ReadsMoved (ending : Ending) (bytes : Array UInt8) (part : Part) (nodes : List Node) : Prop :=
  let place := ending.shift bytes.toList
  match part with
  | .element =>
    readElement (ending.source bytes) (Node.moveAll place nodes) =
      (readElement (.ofBytes bytes) nodes).map (Expr.map (Atom.move place))
  | .sequence =>
    readElements (ending.source bytes) (Node.moveAll place nodes) =
      Expr.mapAll (Atom.move place) (readElements (.ofBytes bytes) nodes)
  | .choice =>
    readAlternatives (ending.source bytes) (Node.moveAll place nodes) =
      Expr.mapAll (Atom.move place) (readAlternatives (.ofBytes bytes) nodes)

theorem Arranged.readsMoved {part : Part} {nodes : List Node}
    (h : Arranged (.ofBytes bytes) part nodes) : ReadsMoved ending bytes part nodes := by
  induction h with
  | leaf hs hmatch =>
    obtain ⟨a, ha, -⟩ := sound_leaf hs rfl hmatch
    have hmoved : Atom.leaf? (ending.source bytes) _ = (Atom.leaf? (.ofBytes bytes) _).map _ :=
      leaf?_move ending hs hmatch
    rw [ha] at hmoved
    rw [ReadsMoved, readElement_leaf hs ha]
    exact readElement_leaf hs hmoved
  | bracketed hne _ ih =>
    rw [ReadsMoved, readElement_alternation]
    exact (readElement_alternation _ _ _).trans (congrArg (fun es => some (Expr.alt es)) ih)
  | @governed s pos n inner nodes hs hmatch h ih =>
    obtain ⟨a, ha, -⟩ := sound_operator (.ofBytes bytes) hs pos n inner
    obtain ⟨e, he, -⟩ := h.reads
    have hmoved : Atom.operator? (ending.source bytes) _ =
        (Atom.operator? (.ofBytes bytes) _).map _ := operator?_move ending hs hmatch
    rw [ha] at hmoved
    rw [ReadsMoved, he] at ih
    rw [ReadsMoved, readElement_operator ha he]
    exact readElement_operator hmoved ih
  | noElement => rfl
  | elements h _ ihelement ih =>
    obtain ⟨e, he, -⟩ := h.reads
    rw [ReadsMoved, he] at ihelement
    rw [ReadsMoved] at ih ⊢
    simp only [Node.moveAll, Node.move, readElements, elementOf, ihelement, he, ih, Option.map_some,
      Expr.mapAll]
  | noAlternative => rfl
  | alternatives hne _ _ ihsequence ih =>
    simp only [ReadsMoved] at ihsequence ih ⊢
    simp only [Node.moveAll, Node.move, readAlternatives, alternativeOf, ihsequence, ih, Expr.mapAll,
      Expr.map]

/-- A definition line is read from its phrase where it has gone. -/
theorem ofNode?_move {line : Node} (h : ArrangedLine (.ofBytes bytes) line)
    (hphrases : ∀ node ∈ line.postorder, among Symbol.isUnbroken node.rule = true →
      OnOneLine bytes.toList node) :
    ofNode? (ending.source bytes) (line.move (ending.shift bytes.toList)) =
      (ofNode? (.ofBytes bytes) line).map (Definition.move (ending.shift bytes.toList)) := by
  obtain ⟨pos, n, m, _, sign, symbol, _, rfl, ⟨offset, length, rfl⟩, -, -, _, _, inner, rfl, -,
    hchoice⟩ := h
  have hname : OnOneLine bytes.toList (.mk Symbol.ruleName.index offset length []) :=
    hphrases _ (by simp [Node.postorder, Node.postorderAll]) rfl
  have hphrase := phrase_move ending hname
  have hread := hchoice.readsMoved ending
  simp only [ReadsMoved] at hread
  have hincremental : decide (Atom.symbol? (sign.move (ending.shift bytes.toList)) = some .incAlt) =
      decide (Atom.symbol? sign = some .incAlt) := by
    rw [symbol?_move]
  simp only [ofNode?, Node.children, Node.move, Node.moveAll, Option.map_some, Definition.move,
    hincremental, hread, Option.some.injEq, Definition.mk.injEq, and_true]
  exact ⟨rfl, hphrase⟩

/-- The definition lines of converted bytes are those of the bytes, with other offsets. -/
theorem ofForest_convert {strict : Bool} {recognition : Recognition}
    (hrecognize : recognize (.ofBytes bytes) strict = .ok recognition)
    (hflaws : recognition.flaws = []) :
    ofForest (ending.source bytes)
        (Node.moveAll (ending.shift bytes.toList) recognition.records.forest) =
      (ofForest (.ofBytes bytes) recognition.records.forest).map
        (Definition.move (ending.shift bytes.toList)) := by
  have harranged := arrangedLine_ofRecognition hrecognize hflaws
  obtain ⟨-, nodes, events, hrun, -, hrecords⟩ := proper_of_flawless hrecognize hflaws
  rw [hrecords, Records.forest_ofNodes] at harranged ⊢
  have hphrases := onOneLine_of_mem hrun rfl
  have hlines : (Node.moveAll (ending.shift bytes.toList) nodes).flatMap Node.children =
      (nodes.flatMap Node.children).map (Node.move (ending.shift bytes.toList)) := by
    simp only [Node.moveAll_eq_map, List.flatMap_map, children_move, List.map_flatMap]
  rw [ofForest, hlines, List.filterMap_map, ofForest, List.map_filterMap]
  refine List.filterMap_congr fun line hline => ofNode?_move ending (harranged line hline) ?_
  obtain ⟨node, hnode, hline⟩ := List.mem_flatMap.1 hline
  exact fun inside hinside =>
    hphrases inside (mem_postorderAll hnode (mem_postorder_of_child hline hinside))

/-- The tables of converted bytes are those of the bytes, and have their flaws where the bytes
go. -/
theorem ofRecognition_convert {strict : Bool} {recognition found : Recognition}
    (hrecognize : recognize (.ofBytes bytes) strict = .ok recognition)
    (hflaws : recognition.flaws = []) (hfound : found.flaws = [])
    (hforest : found.records.forest =
      Node.moveAll (ending.shift bytes.toList) recognition.records.forest) :
    Tables.ofRecognition (ending.source bytes) found =
      { Tables.ofRecognition (.ofBytes bytes) recognition with
        flaws := (Tables.ofRecognition (.ofBytes bytes) recognition).flaws.map fun flaw =>
          (ending.shift bytes.toList flaw.1, flaw.2) } := by
  simp only [Tables.ofRecognition, hflaws, hfound, List.isEmpty_nil, if_true, hforest,
    ofForest_convert ending hrecognize hflaws]
  exact Tables.ofDefinitions_move _ _

end

end Metagrammar

end Abnf
