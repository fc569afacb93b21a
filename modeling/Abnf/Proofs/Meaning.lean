import Abnf.Proofs.Compile
import Abnf.Proofs.Metagrammar.Postorder

/-!
# The flaws of meaning, from the phrases

Which flaws of meaning a text has, said of its phrases and not of the definitions that are read
from them. The lines are walked in order. A line that defines a name once more, or extends one that
is not defined, has one flaw and contributes nothing else; from every other line come the flaws of
its phrases, each behind those of the phrases within it. References are looked up at the end.

* `Meaning.flaws`: the flaws that the phrases of some lines have.
* `meaning_flaws_exact`: the flaws of meaning of a text without flaws of structure are these, and no
  two of its user-defined terminals differ only in whether they may be empty.
-/

namespace Abnf

open Metagrammar

namespace Meaning

variable (source : Source)

/-! ## Numbers and bounds -/

/-- What a phrase says. -/
def text (node : Node) : String :=
  source.phrase node.offset node.length

/-- The first of some phrases that has one of the symbols. -/
def firstOf (symbols : List Symbol) (nodes : List Node) : Option Node :=
  nodes.find? fun node => (Atom.symbol? node).any symbols.contains

/-- The base of the numerals that a symbol stands for, if it stands for any. -/
def base? : Symbol → Option Nat
  | .dString | .dmin | .dmax | .repMin | .repMax | .repMinMax => some 10
  | .xString | .xmin | .xmax => some 16
  | .bString | .bmin | .bmax => some 2
  | _ => none

/-- The number that a literal or a bound says. -/
def number? (node : Node) : Option Nat :=
  ((Atom.symbol? node).bind base?).map fun base => valueOfDigits base (text source node).toList

/-- What a number counts as: one that takes more than 32 bits counts as zero. -/
def counted (number : Nat) : UInt32 :=
  if number < 2 ^ 32 then number.toUInt32 else 0

/-- What the bound with one of the symbols counts as, if it is written. -/
def bound? (symbols : List Symbol) (node : Node) : Option UInt32 :=
  ((firstOf symbols node.children).bind (number? source)).map counted

/-- The flaw of a literal or a bound that takes more than 32 bits. -/
def numberFlaws (node : Node) : List (Nat × MeaningFlaw) :=
  match number? source node with
  | some number => if 2 ^ 32 ≤ number then [(node.offset, .tooLarge (text source node))] else []
  | none => []

/-- The flaw of a lower bound above the upper one. Without a lower bound it is zero, and without an
upper bound nothing is above it. -/
def orderFlaws (low high : List Symbol) (flaw : UInt32 → UInt32 → MeaningFlaw) (node : Node) :
    List (Nat × MeaningFlaw) :=
  let min := (bound? source low node).getD 0
  match bound? source high node with
  | some max => if max < min then [(node.offset, flaw min max)] else []
  | none => []

/-- The flaws of one phrase. -/
def flawsAt (node : Node) : List (Nat × MeaningFlaw) :=
  match Atom.symbol? node with
  | some .repOp => orderFlaws source [.repMin] [.repMax] .repetitionBounds node
  | some .trgOp => orderFlaws source [.dmin, .xmin, .bmin] [.dmax, .xmax, .bmax] .rangeBounds node
  | _ => numberFlaws source node

/-! ## Lines -/

/-- Where the name of a line stands. -/
def nameOffset (line : Node) : Nat :=
  (firstOf [.ruleName] line.postorder).elim 0 Node.offset

/-- The name of a line. -/
def nameOf (line : Node) : String :=
  (firstOf [.ruleName] line.postorder).elim "" (text source)

/-- Whether a line extends a name and does not define one. -/
def isIncremental (line : Node) : Bool :=
  (firstOf [.defined, .incAlt] line.postorder).any fun sign => Atom.symbol? sign = some .incAlt

/-- Whether a line defines a name, in whatever case it is written. -/
def defines (name : String) (line : Node) : Bool :=
  !isIncremental line && lowerName (nameOf source line) == lowerName name

/-- The objection to a line that stands behind some others. -/
def objection? (earlier : List Node) (line : Node) : Option MeaningFlaw :=
  let name := nameOf source line
  match isIncremental line, earlier.any (defines source name) with
  | false, true => some (.redefined name)
  | true, false => some (.notYetDefined name)
  | _, _ => none

/-- Each line that stands behind some others with the objection to it, if there is one. -/
def objections (earlier : List Node) : List Node → List (Node × Option MeaningFlaw)
  | [] => []
  | line :: rest =>
    (line, objection? source earlier line) :: objections (earlier ++ [line]) rest

/-- The lines to which there is no objection. -/
def contributing (lines : List Node) : List Node :=
  ((objections source [] lines).filter fun line => line.2.isNone).map Prod.fst

/-- The flaws of a line before names are looked up. -/
def lineFlaws (line : Node × Option MeaningFlaw) : List (Nat × MeaningFlaw) :=
  match line.2 with
  | some flaw => [(nameOffset line.1, flaw)]
  | none => line.1.postorder.flatMap (flawsAt source)

/-! ## References -/

/-- The user-defined terminal at a phrase, and whether it may be empty. -/
def udtsAt (node : Node) : List (String × Bool) :=
  match Atom.symbol? node with
  | some .udtEmpty => [(text source node, true)]
  | some .udtNonEmpty => [(text source node, false)]
  | _ => []

/-- The names of the rules that some lines define. -/
def ruleNames (lines : List Node) : List String :=
  (lines.filter fun line => !isIncremental line).map fun line => lowerName (nameOf source line)

/-- The names of the user-defined terminals that some lines use. -/
def udtNames (lines : List Node) : List String :=
  ((lines.flatMap Node.postorder).flatMap (udtsAt source)).map fun udt => lowerName udt.1

/-- The flaw of a reference to none of the rules, nor, for a back-reference, to any of the
user-defined terminals. -/
def referenceFlaws (rules udts : List String) (node : Node) : List (Nat × MeaningFlaw) :=
  match Atom.symbol? node with
  | some .rnmOp =>
    let name := text source node
    if lowerName name ∈ rules then [] else [(node.offset, .undefinedRule name)]
  | some .bkrOp =>
    let name := (firstOf [.bkrName] node.children).elim "" (text source)
    if lowerName name ∈ rules ∨ lowerName name ∈ udts then []
    else [(node.offset, .undefinedBackReference name)]
  | _ => []

/-- The flaws of meaning that definition lines have. -/
def flaws (lines : List Node) : List (Nat × MeaningFlaw) :=
  let contributing := contributing source lines
  (objections source [] lines).flatMap (lineFlaws source) ++
    (contributing.flatMap Node.postorder).flatMap
      (referenceFlaws source (ruleNames source contributing) (udtNames source contributing))

/-! ## Flaws of single phrases -/

section Phrases

variable {source} {s : Symbol} {base : Nat} {node : Node} {nodes : List Node}

theorem firstOf_cons {symbols : List Symbol} (h : Atom.symbol? node = some s) :
    firstOf symbols (node :: nodes) =
      if s ∈ symbols then some node else firstOf symbols nodes := by
  by_cases hs : s ∈ symbols <;> simp [firstOf, h, hs]

theorem firstOf_append (symbols : List Symbol) (nodes more : List Node) :
    firstOf symbols (nodes ++ more) = (firstOf symbols nodes).or (firstOf symbols more) :=
  List.find?_append

theorem firstOf_toList {symbols : List Symbol} {found : Option Node}
    (h : ∀ node ∈ found, IsPhrase s node) :
    firstOf symbols found.toList = if s ∈ symbols then found else none := by
  cases found with
  | none => simp [firstOf]
  | some node => exact firstOf_cons (h node rfl).symbol?

theorem number?_eq (h : IsPhrase s node) (hbase : base? s = some base) :
    number? source node = some (Atom.numeralOf source node).toNat := by
  have hsame : Atom.baseOf s = base := by
    cases s <;> first | exact Option.some.inj hbase | cases hbase
  simp [number?, h.symbol?, hbase, Numeral.toNat, Atom.numeralOf, Atom.numeral, hsame, text]

theorem counted_toNat (numeral : Numeral) : counted numeral.toNat = numeral.word := by
  simp [counted, Numeral.word, Numeral.fits]

/-- The flaws of a numeral by itself. -/
theorem flawsAt_numeral (h : IsPhrase s node) (hbase : base? s = some base) :
    flawsAt source node = if (Atom.numeralOf source node).fits then [] else
      [(node.offset, .tooLarge (text source node))] := by
  have hat : flawsAt source node = numberFlaws source node := by
    rw [flawsAt, h.symbol?]
    cases s <;> first | rfl | cases hbase
  rw [hat, numberFlaws, number?_eq h hbase]
  show (if _ then _ else _) = _
  by_cases hfits : (Atom.numeralOf source node).fits = true
  · have hlt : (Atom.numeralOf source node).toNat < 2 ^ 32 := of_decide_eq_true hfits
    rw [if_pos hfits, if_neg (Nat.not_le.2 hlt)]
  · have hle : ¬ (Atom.numeralOf source node).toNat < 2 ^ 32 := fun hlt =>
      hfits (decide_eq_true hlt)
    rw [if_neg hfits, if_pos (Nat.not_lt.1 hle)]

/-- The flaws of numerals one after the other. -/
theorem flatMap_flawsAt_numerals
    (h : ∀ node ∈ nodes, ∃ s base, IsPhrase s node ∧ base? s = some base) :
    nodes.flatMap (flawsAt source) =
      ((nodes.map (Atom.numeralOf source)).filter fun numeral => !numeral.fits).map
        fun numeral => (numeral.offset, .tooLarge numeral.digits) := by
  induction nodes with
  | nil => rfl
  | cons node nodes ih =>
    obtain ⟨⟨s, base, hnode, hbase⟩, hnodes⟩ := List.forall_mem_cons.1 h
    rw [List.flatMap_cons, flawsAt_numeral hnode hbase, ih hnodes, List.map_cons, List.filter_cons]
    cases (Atom.numeralOf source node).fits <;> rfl

/-- Whether phrases of a symbol can have flaws by themselves. -/
def isJudged (s : Symbol) : Bool :=
  (base? s).isSome || s == .repOp || s == .trgOp

theorem flawsAt_eq_nil (source : Source) (hs : isJudged s = false) (pos n : Nat)
    (nodes : List Node) :
    flawsAt source (.mk s.index pos n nodes) = [] := by
  simp only [isJudged, Bool.or_eq_false_iff, beq_eq_false_iff_ne, Option.isSome_eq_false_iff,
    Option.isNone_iff_eq_none] at hs
  obtain ⟨⟨hbase, hrep⟩, htrg⟩ := hs
  rw [flawsAt, symbol?_mk]
  split
  · rename_i heq
    exact absurd (Option.some.inj heq) hrep
  · rename_i heq
    exact absurd (Option.some.inj heq) htrg
  · simp [numberFlaws, number?, hbase]

/-- The bound found among the phrases within counts as the word of its numeral. -/
theorem bound?_eq_map {symbols : List Symbol} {rule pos n : Nat} {found : Option Node}
    (hfound : firstOf symbols nodes = found) (h : ∀ node ∈ found, IsPhrase s node)
    (hbase : base? s = some base) :
    bound? source symbols (.mk rule pos n nodes) =
      found.map fun node => (Atom.numeralOf source node).word := by
  rw [bound?, Node.children, hfound]
  cases found with
  | none => rfl
  | some node => simp [number?_eq (h node rfl) hbase, counted_toNat]

/-- The flaws of a range and its bounds. -/
theorem flatMap_flawsAt_range {low high : Symbol} {pos n : Nat} {min max : Node}
    (hbounds : (low, high) ∈ rangeSymbols) (hmin : IsPhrase low min) (hmax : IsPhrase high max) :
    [min, max].flatMap (flawsAt source) ++
        flawsAt source (.mk Symbol.trgOp.index pos n [min, max]) =
      (Atom.range pos (Atom.numeralOf source min) (Atom.numeralOf source max)).localFlaws := by
  have hsymbols : ∀ bounds ∈ rangeSymbols, (∃ base, base? bounds.1 = some base) ∧
      (∃ base, base? bounds.2 = some base) ∧ bounds.1 ∈ [Symbol.dmin, .xmin, .bmin] ∧
      bounds.1 ∉ [Symbol.dmax, .xmax, .bmax] ∧ bounds.2 ∈ [Symbol.dmax, .xmax, .bmax] := by
    simp [rangeSymbols, base?]
  obtain ⟨⟨_, hlow⟩, ⟨_, hhigh⟩, hin, hout, hin'⟩ := hsymbols _ hbounds
  have hfirst : firstOf [.dmin, .xmin, .bmin] [min, max] = some min := by
    rw [firstOf_cons hmin.symbol?, if_pos hin]
  have hlast : firstOf [.dmax, .xmax, .bmax] [min, max] = some max := by
    rw [firstOf_cons hmin.symbol?, if_neg hout, firstOf_cons hmax.symbol?, if_pos hin']
  rw [flatMap_flawsAt_numerals (by simpa using ⟨⟨_, hmin, _, hlow⟩, _, hmax, _, hhigh⟩)]
  simp only [Atom.localFlaws, Atom.numerals, Atom.boundsFlaw?, flawsAt, symbol?_mk, orderFlaws,
    bound?_eq_map hfirst (by simpa using hmin) hlow,
    bound?_eq_map hlast (by simpa using hmax) hhigh, List.map_cons, List.map_nil,
    Option.map_some, Option.getD_some, Node.offset]
  split <;> rfl

/-- The flaws of a repetition and its bounds. -/
theorem flatMap_flawsAt_repetition {pos n : Nat} {min max : Option Node}
    (hmin : ∀ node ∈ min, IsPhrase .repMin node) (hmax : ∀ node ∈ max, IsPhrase .repMax node) :
    (min.toList ++ max.toList).flatMap (flawsAt source) ++
        flawsAt source (.mk Symbol.repOp.index pos n (min.toList ++ max.toList)) =
      (Atom.repetition pos (min.map (Atom.numeralOf source))
        (max.map (Atom.numeralOf source))).localFlaws := by
  have hnumerals : ∀ node ∈ min.toList ++ max.toList,
      ∃ s base, IsPhrase s node ∧ base? s = some base := by
    simp only [List.mem_append, Option.mem_toList]
    rintro node (hnode | hnode)
    · exact ⟨_, _, hmin node hnode, rfl⟩
    · exact ⟨_, _, hmax node hnode, rfl⟩
  have hfirst : firstOf [.repMin] (min.toList ++ max.toList) = min := by
    simp [firstOf_append, firstOf_toList hmin, firstOf_toList hmax]
  have hlast : firstOf [.repMax] (min.toList ++ max.toList) = max := by
    simp [firstOf_append, firstOf_toList hmin, firstOf_toList hmax]
  have hleast : (min.map fun node => (Atom.numeralOf source node).word).getD 0 =
      (min.map (Atom.numeralOf source)).elim 0 Numeral.word := by
    cases min <;> rfl
  rw [flatMap_flawsAt_numerals hnumerals]
  simp only [Atom.localFlaws, flawsAt, symbol?_mk, orderFlaws, bound?_eq_map hfirst hmin rfl,
    bound?_eq_map hlast hmax rfl, Node.offset, hleast]
  congr 1
  · cases min <;> cases max <;> rfl
  · cases max with
    | none => rfl
    | some max =>
      simp only [Atom.boundsFlaw?, Option.map_some]
      split <;> rfl

end Phrases

/-! ## Walks over lines -/

/-- The flaws of the phrases of an atom are the flaws of the atom. -/
theorem agree_flawsAt : Agree source (flawsAt source) Atom.localFlaws := by
  refine ⟨fun {s} hs => flawsAt_eq_nil source ?_, fun {node a} h => ?_⟩
  · cases s <;> first | rfl | cases hs
  · rw [h.flatMap_postorder]
    -- Only repetitions, numerals and ranges are judged; the other phrases have no flaws.
    cases h with
    | @plain s pos n op hs =>
      have hplain : ∀ s ∈ plainSymbols, isJudged s = false := by decide
      rw [flawsAt_eq_nil source (hplain s hs)]
      rfl
    | @ruleName pos n => exact flawsAt_eq_nil source (s := .rnmOp) rfl pos n []
    | @udtEmpty pos n => exact flawsAt_eq_nil source (s := .udtEmpty) rfl pos n []
    | @udtNonEmpty pos n => exact flawsAt_eq_nil source (s := .udtNonEmpty) rfl pos n []
    | @backReference pos n name modifier _ hname hmodifier =>
      have hcase : ∀ s ∈ [Symbol.bkrCi, .bkrCs], isJudged s = false := by decide
      have hchildren : (modifier.toList ++ [name]).flatMap (flawsAt source) = [] := by
        simp only [List.flatMap_eq_nil_iff, List.mem_append, Option.mem_toList,
          List.mem_singleton]
        rintro child (hchild | rfl)
        · obtain ⟨s, hs, pos, n, rfl⟩ := hmodifier child hchild
          exact flawsAt_eq_nil source (hcase s hs) pos n []
        · obtain ⟨pos, n, rfl⟩ := hname
          exact flawsAt_eq_nil source (s := .bkrName) rfl pos n []
      rw [Node.children, hchildren, flawsAt_eq_nil source (s := .bkrOp) rfl]
      rfl
    | repetition hmin hmax => exact flatMap_flawsAt_repetition hmin hmax
    | @exactly pos n count hcount =>
      rw [Node.children, flatMap_flawsAt_numerals (by simpa using ⟨_, hcount, _, rfl⟩)]
      simp [flawsAt, orderFlaws, bound?, Node.children, firstOf, hcount.symbol?, Atom.localFlaws,
        Atom.numerals, Atom.boundsFlaw?]
    | @string numeral pos n numerals hnumeral h =>
      have hstring : ∀ s ∈ stringSymbols, ∃ base, base? s = some base := by
        simp [stringSymbols, base?]
      obtain ⟨base, hbase⟩ := hstring numeral hnumeral
      rw [Node.children, flatMap_flawsAt_numerals fun node hnode => ⟨_, _, h node hnode, hbase⟩,
        flawsAt_eq_nil source (s := .tbsOp) rfl]
      rfl
    | range hbounds hmin hmax => exact flatMap_flawsAt_range hbounds hmin hmax

theorem referenceFlaws_eq_nil (rules udts : List String) {s : Symbol}
    (hs : s ∉ [Symbol.rnmOp, .bkrOp]) (pos n : Nat) (nodes : List Node) :
    referenceFlaws source rules udts (.mk s.index pos n nodes) = [] := by
  rw [referenceFlaws, symbol?_mk]
  split
  · rename_i heq
    exact absurd (Option.some.inj heq) fun h => hs (by simp [h])
  · rename_i heq
    exact absurd (Option.some.inj heq) fun h => hs (by simp [h])
  · rfl

/-- The flaws of references among the phrases of an atom are those of the atom. -/
theorem agree_referenceFlaws {rules udts : List String} {names : Names}
    (hrules : ∀ name, names.rule? name = none ↔ lowerName name ∉ rules)
    (hudts : ∀ name, names.udt? name = none ↔ lowerName name ∉ udts) :
    Agree source (referenceFlaws source rules udts) fun a =>
      (a.referenceFlaw? names).toList := by
  refine .of_atoms (fun s hs => referenceFlaws_eq_nil source rules udts ?_) fun {node a} h => ?_
  · have hinner : ∀ s ∈ innerSymbols, s ∉ [Symbol.rnmOp, .bkrOp] := by decide
    rcases hs with hs | hs
    · cases s <;> first | decide | cases hs
    · exact hinner s hs
  · cases h with
    | @plain s pos n op hs =>
      have hplain : ∀ s ∈ plainSymbols, s ∉ [Symbol.rnmOp, .bkrOp] := by decide
      exact referenceFlaws_eq_nil source rules udts (hplain s hs) pos n []
    | @ruleName pos n =>
      simp only [referenceFlaws, symbol?_mk, Atom.referenceFlaw?, Option.isNone_iff_eq_none, hrules,
        text, Node.offset, Node.length]
      by_cases hmem : lowerName (source.phrase pos n) ∈ rules
      · simp [hmem]
      · simp [hmem]
    | @backReference pos n name modifier _ hname hmodifier =>
      have hcase : ∀ s ∈ [Symbol.bkrCi, .bkrCs], s ∉ [Symbol.bkrName] := by decide
      have hlast : firstOf [.bkrName] [name] = some name :=
        (firstOf_cons hname.symbol?).trans (if_pos (by simp))
      have hfirst : firstOf [.bkrName] (modifier.toList ++ [name]) = some name := by
        cases modifier with
        | none => exact hlast
        | some node =>
          obtain ⟨s, hs, hnode⟩ := hmodifier node rfl
          exact ((firstOf_cons hnode.symbol?).trans (if_neg (hcase s hs))).trans hlast
      obtain ⟨first, length, rfl⟩ := hname
      simp only [referenceFlaws, symbol?_mk, Atom.referenceFlaw?, Bool.and_eq_true,
        Option.isNone_iff_eq_none, hrules, hudts, Node.children, hfirst, Option.elim_some, text,
        Node.offset, Node.length]
      by_cases hrule : lowerName (source.phrase first length) ∈ rules
      · simp [hrule]
      · by_cases hudt : lowerName (source.phrase first length) ∈ udts
        · simp [hudt]
        · simp [hrule, hudt]
    | udtEmpty | udtNonEmpty | repetition | exactly | string | range => rfl

theorem udtsAt_eq_nil {s : Symbol} (hs : s ∉ [Symbol.udtEmpty, .udtNonEmpty]) (pos n : Nat)
    (nodes : List Node) : udtsAt source (.mk s.index pos n nodes) = [] := by
  rw [udtsAt, symbol?_mk]
  split
  · rename_i heq
    exact absurd (Option.some.inj heq) fun h => hs (by simp [h])
  · rename_i heq
    exact absurd (Option.some.inj heq) fun h => hs (by simp [h])
  · rfl

/-- The user-defined terminals among the phrases of an atom are those of the atom. -/
theorem agree_udtsAt : Agree source (udtsAt source) fun a => a.udt?.toList := by
  refine .of_atoms (fun s hs => udtsAt_eq_nil source ?_) fun {node a} h => ?_
  · have hinner : ∀ s ∈ innerSymbols, s ∉ [Symbol.udtEmpty, .udtNonEmpty] := by decide
    rcases hs with hs | hs
    · cases s <;> first | decide | cases hs
    · exact hinner s hs
  · cases h with
    | @plain s pos n op hs =>
      have hplain : ∀ s ∈ plainSymbols, s ∉ [Symbol.udtEmpty, .udtNonEmpty] := by decide
      exact udtsAt_eq_nil source (hplain s hs) pos n []
    | ruleName | udtEmpty | udtNonEmpty | backReference | repetition | exactly | string | range =>
      rfl

/-! ## Definitions and lines -/

section Lines

variable {source} {line : Node} {lines : List Node} {definition : Definition}
  {d : Node → Definition}

/-- The name and the sign of a line are those of the definition that is read from it. -/
theorem head_eq (h : Renders source line definition) :
    nameOffset line = definition.offset ∧ nameOf source line = definition.name ∧
      isIncremental line = definition.incremental := by
  obtain ⟨name, sign, symbol, hprefix, hname, hsymbol, hsign, hoffset, hspelling, hincremental⟩ :=
    h.head
  have hfirst : firstOf [.ruleName] line.postorder = some name :=
    hprefix.find?_eq_some ((firstOf_cons hname.symbol?).trans (if_pos (by decide)))
  have hsecond : firstOf [.defined, .incAlt] line.postorder = some sign := by
    refine hprefix.find?_eq_some ((firstOf_cons hname.symbol?).trans ?_)
    rw [if_neg (by decide), firstOf_cons hsign.symbol?, if_pos]
    rcases List.mem_pair.1 hsymbol with rfl | rfl <;> decide
  rw [nameOffset, nameOf, isIncremental, hfirst, hsecond, hoffset, hspelling, hincremental]
  simp [text, hsign.symbol?]

theorem defines_iff {name : String} : defines source name line = true ↔
    isIncremental line = false ∧ lowerName (nameOf source line) = lowerName name := by
  simp [defines]

/-- The names in `known` are those that the lines in `earlier` define. -/
def Knows (source : Source) (known : List String) (earlier : List Node) : Prop :=
  ∀ name, lowerName name ∈ known ↔ ∃ line ∈ earlier, defines source name line = true

theorem objection?_eq {known : List String} {earlier : List Node}
    (hknown : Knows source known earlier) (h : Renders source line definition) :
    definition.objection? known = objection? source earlier line := by
  obtain ⟨-, hname, hincremental⟩ := head_eq h
  have hcontains : known.contains definition.lower =
      earlier.any (defines source (nameOf source line)) := by
    rw [Bool.eq_iff_iff, List.contains_iff_mem, List.any_eq_true, ← hknown, hname]
    rfl
  rw [Definition.objection?, hcontains, ← hincremental, ← hname]
  rfl

/-- A line that is objected to defines nothing new, so what is known is what all lines so far
define. -/
theorem Knows.step {known : List String} {earlier : List Node} (hknown : Knows source known earlier)
    (h : Renders source line definition) :
    Knows source (if (objection? source earlier line).isNone && !definition.incremental then
      known ++ [definition.lower] else known) (earlier ++ [line]) := by
  obtain ⟨-, hname, hincremental⟩ := head_eq h
  intro name
  have hmem : (∃ other ∈ earlier ++ [line], defines source name other = true) ↔
      lowerName name ∈ known ∨ defines source name line = true := by
    simp [hknown name, or_and_right, exists_or]
  rw [hmem, defines_iff, hname, hincremental]
  cases hsign : definition.incremental with
  | true => simp
  | false =>
    by_cases hdefined : earlier.any (defines source (nameOf source line)) = true
    · have hlower : lowerName definition.name ∈ known := by
        rw [← hname, hknown]
        simpa using hdefined
      have hobjection : (objection? source earlier line).isNone = false := by
        simp [objection?, hincremental, hsign, hdefined]
      simp only [hobjection, Bool.false_and, Bool.false_eq_true, if_false, true_and]
      refine ⟨Or.inl, ?_⟩
      rintro (hin | heq)
      · exact hin
      · rwa [← heq]
    · have hobjection : (objection? source earlier line).isNone = true := by
        simp [objection?, hincremental, hsign, hdefined]
      simp [hobjection, Definition.lower, eq_comm]

/-- Reviewing the definitions that are read from lines comes to the same objections. -/
theorem review_map {known : List String} {earlier : List Node}
    (hknown : Knows source known earlier) (h : ∀ line ∈ lines, Renders source line (d line)) :
    Definition.review known (lines.map d) =
      (objections source earlier lines).map (Prod.map d id) := by
  induction lines generalizing known earlier with
  | nil => rfl
  | cons line lines ih =>
    obtain ⟨hline, hlines⟩ := List.forall_mem_cons.1 h
    rw [List.map_cons, Definition.review, objections, List.map_cons, Prod.map,
      objection?_eq hknown hline]
    exact congrArg _ (ih (hknown.step hline) hlines)

theorem mem_of_mem_objections {earlier : List Node} {verdict : Node × Option MeaningFlaw}
    (h : verdict ∈ objections source earlier lines) : verdict.1 ∈ lines := by
  induction lines generalizing earlier with
  | nil => simp [objections] at h
  | cons line lines ih =>
    rcases List.mem_cons.1 h with rfl | h
    · simp
    · exact List.mem_cons_of_mem _ (ih h)

theorem mem_of_mem_contributing (h : line ∈ contributing source lines) : line ∈ lines := by
  obtain ⟨verdict, hverdict, rfl⟩ := List.mem_map.1 h
  exact mem_of_mem_objections (List.mem_of_mem_filter hverdict)

/-- A walk over lines finds what agrees with it at the atoms that are read. -/
theorem flatMap_atoms {β : Type} {f : Node → List β} {g : Atom → List β}
    (hagree : Agree source f g) (h : ∀ line ∈ lines, Renders source line (d line)) :
    ((lines.map d).flatMap Definition.atoms).flatMap g =
      (lines.flatMap Node.postorder).flatMap f := by
  rw [List.flatMap_map, List.flatMap_assoc, List.flatMap_assoc]
  exact List.flatMap_congr fun line hline => ((h line hline).atoms hagree).symm

theorem ruleNames_eq (h : ∀ line ∈ lines, Renders source line (d line)) :
    (Tables.namesOf (lines.map d)).rules = ruleNames source lines := by
  have hfilter : lines.filter ((fun line => !line.incremental) ∘ d) =
      lines.filter fun line => !isIncremental line :=
    List.filter_congr fun line hline => by
      rw [Function.comp_apply, (head_eq (h line hline)).2.2]
  simp only [Tables.namesOf, Tables.defining, ruleNames, List.filter_map, List.map_map, hfilter]
  refine List.map_congr_left fun line hline => ?_
  rw [(head_eq (h line (List.mem_of_mem_filter hline))).2.1]
  rfl

theorem mem_udtNames_iff (h : ∀ line ∈ lines, Renders source line (d line)) (name : String) :
    name ∈ (Tables.namesOf (lines.map d)).udts ↔ name ∈ udtNames source lines := by
  have hudts : ((lines.map d).flatMap Definition.atoms).filterMap Atom.udt? =
      (lines.flatMap Node.postorder).flatMap (udtsAt source) := by
    rw [List.filterMap_eq_flatMap_toList, flatMap_atoms (agree_udtsAt source) h]
  simp only [Tables.namesOf, Tables.udtsOf, hudts, udtNames]
  constructor
  · intro hname
    obtain ⟨udt, hudt, rfl⟩ := List.mem_map.1 hname
    exact List.mem_map_of_mem (Tables.mem_of_mem_firstByKey hudt)
  · intro hname
    obtain ⟨udt, hudt, rfl⟩ := List.mem_map.1 hname
    exact (Tables.key_mem_firstByKey hudt).resolve_left (by simp)

/-- A user-defined terminal of a line is one of a definition, and its name tells whether it may be
empty. -/
theorem sound_of_mem_udtsAt (h : ∀ line ∈ lines, Renders source line (d line))
    (hsound : ∀ definition ∈ lines.map d, definition.Sound) {udt : String × Bool}
    (hudt : udt ∈ (lines.flatMap Node.postorder).flatMap (udtsAt source)) :
    (Atom.udtName udt.1 udt.2).Sound := by
  rw [← flatMap_atoms (agree_udtsAt source) h] at hudt
  obtain ⟨a, ha, hudt⟩ := List.mem_flatMap.1 hudt
  have hatom := Tables.sound_of_mem_atoms hsound a ha
  cases a with
  | udtName name empty =>
    obtain rfl := List.mem_singleton.1 hudt
    exact hatom
  | _ => cases hudt

/-- The flaws of the definitions that are read from lines are those of the lines. -/
theorem flaws_ofDefinitions (h : ∀ line ∈ lines, Renders source line (d line)) :
    (Tables.ofDefinitions (lines.map d)).flaws = flaws source lines := by
  have hreview : Definition.review [] (lines.map d) =
      (objections source [] lines).map (Prod.map d id) :=
    review_map (by simp [Knows]) h
  have hcontributing : ((Definition.review [] (lines.map d)).filter fun line =>
      line.2.isNone).map Prod.fst = (contributing source lines).map d := by
    rw [hreview, List.filter_map, List.map_map, contributing, List.map_map]
    rfl
  have hlines : ∀ line ∈ contributing source lines, Renders source line (d line) :=
    fun line hline => h line (mem_of_mem_contributing hline)
  -- The flaws of lines come first, then those of references in the lines that contribute.
  have hlocal : (Definition.review [] (lines.map d)).flatMap Tables.lineFlaws =
      (objections source [] lines).flatMap (lineFlaws source) := by
    rw [hreview, List.flatMap_map]
    refine List.flatMap_congr fun verdict hverdict => ?_
    obtain ⟨line, objection⟩ := verdict
    have hline := h line (mem_of_mem_objections hverdict)
    cases objection with
    | some flaw => simp [Tables.lineFlaws, lineFlaws, (head_eq hline).1]
    | none => exact (hline.atoms (agree_flawsAt source)).symm
  have hreferences : (((contributing source lines).map d).flatMap Definition.atoms).filterMap
      (Atom.referenceFlaw? (Tables.namesOf ((contributing source lines).map d))) =
      ((contributing source lines).flatMap Node.postorder).flatMap (referenceFlaws source
        (ruleNames source (contributing source lines))
        (udtNames source (contributing source lines))) := by
    rw [List.filterMap_eq_flatMap_toList]
    refine flatMap_atoms (agree_referenceFlaws source ?_ ?_) hlines
    · intro name
      rw [Names.rule?, List.idxOf?_eq_none_iff, ruleNames_eq hlines]
    · intro name
      rw [Names.udt?, List.idxOf?_eq_none_iff, mem_udtNames_iff hlines]
  show (Definition.review [] (lines.map d)).flatMap Tables.lineFlaws ++
    (List.flatMap Definition.atoms _).filterMap (Atom.referenceFlaw? (Tables.namesOf _)) = _
  rw [hlocal, hcontributing, hreferences, flaws]

end Lines

end Meaning

/-- The flaws of meaning of a text without flaws of structure are those that its lines have. No two
of its user-defined terminals have the same name, one that may be empty and one that may not. -/
theorem meaning_flaws_exact {source : Source} {strict : Bool} {recognition : Recognition}
    (hrecognize : recognize source strict = .ok recognition) (hflaws : recognition.flaws = []) :
    let lines := recognition.records.forest.flatMap Node.children
    (Tables.ofRecognition source recognition).flaws = Meaning.flaws source lines ∧
      ∀ a ∈ lines.flatMap Node.postorder, ∀ b ∈ lines.flatMap Node.postorder,
        Atom.symbol? a = some .udtEmpty → Atom.symbol? b = some .udtNonEmpty →
        lowerName (Meaning.text source a) ≠ lowerName (Meaning.text source b) := by
  intro lines
  have hlines : ∀ line ∈ lines, ∃ definition, Definition.ofNode? source line = some definition ∧
      Renders source line definition :=
    fun line hline => (arrangedLine_ofRecognition hrecognize hflaws line hline).renders
  have hsound := sound_ofRecognition hrecognize hflaws
  have : Inhabited Definition := ⟨⟨0, "", false, []⟩⟩
  choose! d hread hrenders using hlines
  have hforest : Definition.ofForest source recognition.records.forest = lines.map d := by
    rw [Definition.ofForest, List.filterMap_congr hread, ← List.filterMap_eq_map]
    rfl
  rw [hforest] at hsound
  constructor
  · have htables : Tables.ofRecognition source recognition =
        Tables.ofDefinitions (lines.map d) := by
      simp [Tables.ofRecognition, hflaws, hforest]
    rw [htables, Meaning.flaws_ofDefinitions hrenders]
  · intro a ha b hb hempty hnonEmpty hname
    have haudt := Meaning.sound_of_mem_udtsAt hrenders hsound (List.mem_flatMap_of_mem ha
      (show (Meaning.text source a, true) ∈ _ by simp [Meaning.udtsAt, hempty]))
    have hbudt := Meaning.sound_of_mem_udtsAt hrenders hsound (List.mem_flatMap_of_mem hb
      (show (Meaning.text source b, false) ∈ _ by simp [Meaning.udtsAt, hnonEmpty]))
    cases Tables.empty_eq_of_lowerName haudt hbudt hname

/-- The flaws of a text that has bounds in the wrong order, a reference to nothing, and a line that
defines a name once more, whose own reference is not looked up. -/
theorem meaning_flaws_exact_redefined :
    ∃ recognition, recognize (.ofString "A=9*3B\na=C\n") false = .ok recognition ∧
      recognition.flaws = [] ∧
      Meaning.flaws (.ofString "A=9*3B\na=C\n") (recognition.records.forest.flatMap Node.children) =
        [(2, .repetitionBounds 9 3), (7, .redefined "a"), (5, .undefinedRule "B")] := by
  have hread : ((read? (.ofString "A=9*3B\na=C\n") false).map fun found => (found.1,
      (Tables.ofDefinitions (Definition.ofForest (.ofString "A=9*3B\na=C\n") found.2)).flaws)) =
      some ([], [(2, .repetitionBounds 9 3), (7, .redefined "a"), (5, .undefinedRule "B")]) := by
    decide +kernel
  obtain ⟨⟨flaws, nodes⟩, hread, hfound⟩ := Option.map_eq_some_iff.1 hread
  obtain ⟨rfl, hmeaning⟩ := Prod.mk.inj hfound
  obtain ⟨recognition, hrecognize, hflaws, htables⟩ := ofRecognition_of_read? hread
  refine ⟨recognition, hrecognize, hflaws, ?_⟩
  rw [← (meaning_flaws_exact hrecognize hflaws).1, htables, hmeaning]

end Abnf
