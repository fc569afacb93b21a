import Abnf.Definition
import Abnf.Proofs.Forest
import Abnf.Proofs.Metagrammar.Acceptance

/-!
# The phrases of a proper text

A proper match leaves phrases in a fixed order. A line has a name, a sign and alternatives, an
alternative has elements, and an element is a leaf or alternatives in brackets, with the operators
that govern it in front. Leaves and operators have phrases of numerals and names at most.

* `Arranged`: how the phrases below the alternatives of a line are arranged.
* `arranged_of_alternation`: a proper match of alternatives leaves them so.
* `arrangedLine_ofRecognition`: a text without flaws consists of lines that are arranged.
-/

namespace Abnf.Metagrammar

open Engine

variable {e : Expr Opcode} {s : Symbol} {pos n : Nat} {rest : List UInt8} {nodes : List Node}

/-! ## Phrases of symbols -/

theorem properMatch_ref_iff : ProperMatch (ref s) pos rest n nodes ↔
    ∃ inner, ProperMatch s.properBody pos rest n inner ∧
      nodes = if s.isRecorded then [.mk s.index pos n inner] else inner := by
  have hrecorded : properScheme.recorded s.index = s.isRecorded := by
    simp [properScheme, schemeOf, watch, Symbol.ofIndex?_index]
  simp only [ProperMatch, ref, matches_rule_iff (properScheme_body s), true_and, Scheme.wrap,
    hrecorded]

theorem properMatch_recorded_iff (hs : s.isRecorded = true) :
    ProperMatch (ref s) pos rest n nodes ↔
      ∃ inner, ProperMatch s.properBody pos rest n inner ∧ nodes = [.mk s.index pos n inner] := by
  simp only [properMatch_ref_iff, hs, if_true]

theorem properMatch_unrecorded_iff (hs : s.isRecorded = false) :
    ProperMatch (ref s) pos rest n nodes ↔ ProperMatch s.properBody pos rest n nodes := by
  simp [properMatch_ref_iff, hs]

/-- Whether no phrase is recorded anywhere below a symbol. -/
def Symbol.isSilent : Symbol → Bool
  | blankLine | groupOpen | groupClose | optionClose | altOp | catOp | starOp | tlsOpen | tlsClose
  | tlsString | clsOpen | clsClose | clsString | repNum | dnum | xnum | bnum | dec | hex | bin
  | alphanum | owsp | wsp | space | comment | lineEnd | lineContinue => true
  | _ => false

/-- Whether an expression refers to silent symbols only. -/
def isSilent (e : Expr Opcode) : Bool :=
  e.isRunnable (among Symbol.isSilent)

theorem isSilent_ref : isSilent (ref s) = s.isSilent :=
  among_index

theorem nodes_eq_nil_of_isSilent (he : isSilent e = true) (h : ProperMatch e pos rest n nodes) :
    nodes = [] := by
  obtain ⟨events, hrun, -⟩ := h
  refine hrun.silent ?_ ?_ he
  · intro r body hr hbody
    obtain ⟨s, rfl, hs⟩ := exists_symbol_of_among hr
    rw [properScheme_body] at hbody
    cases hbody
    cases s <;> first | rfl | cases hs
  · intro r hr
    obtain ⟨s, rfl, hs⟩ := exists_symbol_of_among hr
    cases s <;> first | rfl | cases hs

/-- What is left by each iteration is left by all of them together. -/
theorem forall_mem_of_many {P : Node → Prop} (h : ProperMatch (many e) pos rest n nodes)
    (hstep : ∀ k n nodes, ProperMatch e (pos + k) (rest.drop k) n nodes → ∀ node ∈ nodes, P node) :
    ∀ node ∈ nodes, P node := by
  induction h using Matches.many_induction with
  | done => simp
  | empty hempty => exact hstep 0 0 _ hempty
  | @next pos rest m nodes _ _ hfirst _ ih =>
    refine List.forall_mem_append.2 ⟨hstep 0 (m + 1) nodes hfirst, ih fun k n nodes hmatch => ?_⟩
    rw [List.drop_drop, Nat.add_assoc] at hmatch
    exact hstep (m + 1 + k) n nodes hmatch

/-! ## Leaves -/

/-- Whether a symbol is read as a leaf. -/
def Symbol.isLeaf : Symbol → Bool
  | udtEmpty | udtNonEmpty | rnmOp | trgOp | tbsOp | abgOp | aenOp | bkrOp | tlsOp | clsOp => true
  | _ => false

/-- A choice between symbols comes down to one of them. -/
theorem exists_symbol_of_alt {symbols : List Symbol}
    (h : ProperMatch (.alt (symbols.map ref)) pos rest n nodes) :
    ∃ s ∈ symbols, ProperMatch (ref s) pos rest n nodes := by
  obtain ⟨e, he, h⟩ := h.exists_mem
  obtain ⟨s, hs, rfl⟩ := List.mem_map.1 he
  exact ⟨s, hs, h⟩

/-- An element that is neither a group nor an option leaves the phrase of a leaf. -/
theorem exists_leaf_of_basicElement (h : ProperMatch (ref .basicElement) pos rest n nodes) :
    ∃ (s : Symbol) (inner : List Node), s.isLeaf = true ∧
      ProperMatch s.properBody pos rest n inner ∧ nodes = [.mk s.index pos n inner] := by
  obtain ⟨s, hs, hmatch⟩ : ∃ s : Symbol, s.isLeaf = true ∧ ProperMatch (ref s) pos rest n nodes := by
    let symbols : List Symbol :=
      [.udtOp, .rnmOp, .trgOp, .tbsOp, .abgOp, .aenOp, .bkrOp, .tlsOp, .clsOp]
    have hsymbols : ∀ s ∈ symbols, s = .udtOp ∨ s.isLeaf = true := by decide
    obtain ⟨s, hs, h⟩ :=
      exists_symbol_of_alt (show ProperMatch (.alt (symbols.map ref)) pos rest n nodes from
        (properMatch_unrecorded_iff rfl).1 h)
    rcases hsymbols s hs with rfl | hleaf
    · have hudts : ∀ s ∈ [Symbol.udtEmpty, .udtNonEmpty], s.isLeaf = true := by decide
      obtain ⟨s, hs, h⟩ := exists_symbol_of_alt
        (show ProperMatch (.alt ([.udtEmpty, .udtNonEmpty].map ref)) pos rest n nodes from
          (properMatch_unrecorded_iff rfl).1 h)
      exact ⟨s, hudts s hs, h⟩
    · exact ⟨s, hleaf, h⟩
  have hrecorded : s.isRecorded = true := by
    cases s <;> first | rfl | cases hs
  obtain ⟨inner, hinner, rfl⟩ := (properMatch_recorded_iff hrecorded).1 hmatch
  exact ⟨s, inner, hs, hinner, rfl⟩

/-! ## Phrases within leaves -/

/-- A phrase of a symbol within which no other is recorded. -/
def IsPhrase (s : Symbol) (node : Node) : Prop :=
  ∃ pos n, node = .mk s.index pos n []

/-- Whether a symbol leaves its own phrase only. -/
def Symbol.isFlat (s : Symbol) : Bool :=
  s.isRecorded && Metagrammar.isSilent s.properBody

theorem isPhrase_of_isFlat (hs : s.isFlat = true) (h : ProperMatch (ref s) pos rest n nodes) :
    ∃ node, nodes = [node] ∧ IsPhrase s node := by
  obtain ⟨hrecorded, hsilent⟩ := Bool.and_eq_true_iff.1 hs
  obtain ⟨inner, hinner, rfl⟩ := (properMatch_recorded_iff hrecorded).1 h
  cases nodes_eq_nil_of_isSilent hsilent hinner
  exact ⟨_, rfl, pos, n, rfl⟩

/-- A sequence of symbols leaves the phrases of those that are not silent. -/
theorem forall₂_isPhrase_of_cat {symbols : List Symbol}
    (hsymbols : ∀ s ∈ symbols, s.isSilent = true ∨ s.isFlat = true)
    (h : ProperMatch (.cat (symbols.map ref)) pos rest n nodes) :
    List.Forall₂ IsPhrase (symbols.filter fun s => !s.isSilent) nodes := by
  induction symbols generalizing pos rest n nodes with
  | nil =>
    obtain ⟨-, rfl⟩ := matches_cat_nil_iff.1 h
    exact .nil
  | cons s symbols ih =>
    obtain ⟨hs, hsymbols⟩ := List.forall_mem_cons.1 hsymbols
    obtain ⟨_, _, _, _, hfirst, hmore, -, rfl⟩ := matches_cat_cons_iff.1 h
    have hmore := ih hsymbols hmore
    cases hsilent : s.isSilent with
    | true =>
      cases nodes_eq_nil_of_isSilent (isSilent_ref.trans hsilent) hfirst
      rwa [List.filter_cons_of_neg (by simp [hsilent]), List.nil_append]
    | false =>
      obtain ⟨node, rfl, hnode⟩ :=
        isPhrase_of_isFlat (hs.resolve_left (by simp [hsilent])) hfirst
      rw [List.filter_cons_of_pos (by simp [hsilent])]
      exact .cons hnode hmore

/-- The symbols of the lower and the upper bounds of ranges. -/
def rangeSymbols : List (Symbol × Symbol) :=
  [(.dmin, .dmax), (.xmin, .xmax), (.bmin, .bmax)]

theorem nodes_of_interval {base low high : Symbol} (hbase : base.isSilent = true)
    (hlow : low.isFlat = true) (hhigh : high.isFlat = true)
    (h : ProperMatch (interval base low high) pos rest n nodes) :
    ∃ min max, nodes = [min, max] ∧ IsPhrase low min ∧ IsPhrase high max := by
  obtain ⟨_, _, _, _, h₁, hrest₁, -, rfl⟩ := matches_cat_cons_iff.1 h
  obtain ⟨_, _, _, _, h₂, hrest₂, -, rfl⟩ := matches_cat_cons_iff.1 hrest₁
  obtain ⟨_, _, _, _, h₃, h₄, -, rfl⟩ := matches_cat_cons_iff.1 hrest₂
  cases nodes_eq_nil_of_isSilent (isSilent_ref.trans hbase) h₁
  cases nodes_eq_nil_of_isSilent rfl h₃
  obtain ⟨min, rfl, hmin⟩ := isPhrase_of_isFlat hlow h₂
  obtain ⟨max, rfl, hmax⟩ := isPhrase_of_isFlat hhigh (matches_cat_singleton_iff.1 h₄)
  exact ⟨min, max, rfl, hmin, hmax⟩

/-- A range leaves the phrases of its two bounds. -/
theorem nodes_of_trgOp (h : ProperMatch Symbol.trgOp.properBody pos rest n nodes) :
    ∃ low high min max, (low, high) ∈ rangeSymbols ∧ nodes = [min, max] ∧ IsPhrase low min ∧
      IsPhrase high max := by
  obtain ⟨_, _, _, _, hpercent, hnumbers, -, rfl⟩ := matches_cat_cons_iff.1 h
  cases nodes_eq_nil_of_isSilent rfl hpercent
  have hnumbers : ProperMatch (.alt [interval .dec .dmin .dmax, interval .hex .xmin .xmax,
      interval .bin .bmin .bmax]) _ _ _ _ := matches_cat_singleton_iff.1 hnumbers
  simp only [matches_alt_cons_iff, not_matches_alt_nil, and_false, or_false] at hnumbers
  rcases hnumbers with h | ⟨-, h | ⟨-, h⟩⟩ <;>
    obtain ⟨min, max, hnodes, hmin, hmax⟩ := nodes_of_interval rfl rfl rfl h <;>
    exact ⟨_, _, min, max, by simp [rangeSymbols], hnodes, hmin, hmax⟩

/-- The symbols of the numerals of strings. -/
def stringSymbols : List Symbol :=
  [.dString, .xString, .bString]

theorem nodes_of_dotted {base numeral : Symbol} (hbase : base.isSilent = true)
    (hnumeral : numeral.isFlat = true) (h : ProperMatch (dotted base numeral) pos rest n nodes) :
    nodes ≠ [] ∧ ∀ node ∈ nodes, IsPhrase numeral node := by
  obtain ⟨_, _, _, _, hsign, hrest, -, rfl⟩ := matches_cat_cons_iff.1 h
  obtain ⟨_, _, _, more, hfirst, hmore, -, rfl⟩ := matches_cat_cons_iff.1 hrest
  cases nodes_eq_nil_of_isSilent (isSilent_ref.trans hbase) hsign
  obtain ⟨_, rfl, hphrase⟩ := isPhrase_of_isFlat hnumeral hfirst
  refine ⟨by simp, List.forall_mem_cons.2 ⟨hphrase, ?_⟩⟩
  refine forall_mem_of_many (matches_cat_singleton_iff.1 hmore) fun k n nodes h => ?_
  obtain ⟨_, _, _, _, hdot, hnext, -, rfl⟩ := matches_cat_cons_iff.1 h
  cases nodes_eq_nil_of_isSilent rfl hdot
  obtain ⟨_, rfl, hphrase⟩ := isPhrase_of_isFlat hnumeral (matches_cat_singleton_iff.1 hnext)
  simpa using hphrase

/-- A string of numerals leaves the phrases of one numeral or more. -/
theorem nodes_of_tbsOp (h : ProperMatch Symbol.tbsOp.properBody pos rest n nodes) :
    nodes ≠ [] ∧ ∃ numeral ∈ stringSymbols, ∀ node ∈ nodes, IsPhrase numeral node := by
  obtain ⟨_, _, _, _, hpercent, hnumbers, -, rfl⟩ := matches_cat_cons_iff.1 h
  cases nodes_eq_nil_of_isSilent rfl hpercent
  have hnumbers : ProperMatch (.alt [dotted .dec .dString, dotted .hex .xString,
      dotted .bin .bString]) _ _ _ _ := matches_cat_singleton_iff.1 hnumbers
  simp only [matches_alt_cons_iff, not_matches_alt_nil, and_false, or_false] at hnumbers
  rcases hnumbers with h | ⟨-, h | ⟨-, h⟩⟩ <;>
    obtain ⟨hne, hnodes⟩ := nodes_of_dotted rfl rfl h <;>
    exact ⟨hne, _, by simp [stringSymbols], hnodes⟩

/-- A repetition leaves the phrases of the bounds that are written, or that of a single number. -/
theorem nodes_of_repOp (h : ProperMatch Symbol.repOp.properBody pos rest n nodes) :
    (∃ min max : Option Node, nodes = min.toList ++ max.toList ∧
      (∀ node ∈ min, IsPhrase .repMin node) ∧ ∀ node ∈ max, IsPhrase .repMax node) ∨
    ∃ count, nodes = [count] ∧ IsPhrase .repMinMax count := by
  have h : ProperMatch (.alt [.cat ([.repMin, .starOp, .repMax].map ref),
      .cat ([.repMin, .starOp].map ref), .cat ([.starOp, .repMax].map ref), ref .starOp,
      ref .repMinMax]) pos rest n nodes := h
  simp only [matches_alt_cons_iff, not_matches_alt_nil, and_false, or_false] at h
  rcases h with h | ⟨-, h | ⟨-, h | ⟨-, h | ⟨-, h⟩⟩⟩⟩
  · have hphrases : List.Forall₂ IsPhrase [.repMin, .repMax] nodes :=
      forall₂_isPhrase_of_cat (by decide) h
    obtain - | ⟨hmin, - | ⟨hmax, - | -⟩⟩ := hphrases
    exact Or.inl ⟨some _, some _, rfl, by simpa using hmin, by simpa using hmax⟩
  · have hphrases : List.Forall₂ IsPhrase [.repMin] nodes :=
      forall₂_isPhrase_of_cat (by decide) h
    obtain - | ⟨hmin, - | -⟩ := hphrases
    exact Or.inl ⟨some _, none, rfl, by simpa using hmin, by simp⟩
  · have hphrases : List.Forall₂ IsPhrase [.repMax] nodes :=
      forall₂_isPhrase_of_cat (by decide) h
    obtain - | ⟨hmax, - | -⟩ := hphrases
    exact Or.inl ⟨none, some _, rfl, by simp, by simpa using hmax⟩
  · cases nodes_eq_nil_of_isSilent rfl h
    exact Or.inl ⟨none, none, rfl, by simp, by simp⟩
  · exact Or.inr (isPhrase_of_isFlat rfl h)

/-- A back-reference leaves the phrase of a name, behind that of a modifier if there is one. -/
theorem nodes_of_bkrOp (h : ProperMatch Symbol.bkrOp.properBody pos rest n nodes) :
    ∃ (modifier : Option Node) (name : Node), nodes = modifier.toList ++ [name] ∧
      (∀ node ∈ modifier, ∃ s ∈ [Symbol.bkrCi, .bkrCs], IsPhrase s node) ∧
      IsPhrase .bkrName name := by
  obtain ⟨_, _, _, _, hslash, hrest₁, -, rfl⟩ := matches_cat_cons_iff.1 h
  obtain ⟨_, _, _, _, hmodifier, hname, -, rfl⟩ := matches_cat_cons_iff.1 hrest₁
  cases nodes_eq_nil_of_isSilent rfl hslash
  obtain ⟨name, rfl, hphrase⟩ := isPhrase_of_isFlat rfl (matches_cat_singleton_iff.1 hname)
  rcases matches_optional_iff.1 hmodifier with ⟨-, rfl, -⟩ | hmodifier
  · exact ⟨none, name, rfl, by simp, hphrase⟩
  · obtain ⟨_, _, _, _, hpercent, hcase, -, rfl⟩ :=
      matches_cat_cons_iff.1 ((properMatch_unrecorded_iff rfl).1 hmodifier)
    cases nodes_eq_nil_of_isSilent rfl hpercent
    have hcase : ProperMatch (.alt ([.bkrCi, .bkrCs].map ref)) _ _ _ _ :=
      matches_cat_singleton_iff.1 hcase
    have hflat : ∀ s ∈ [Symbol.bkrCi, .bkrCs], s.isFlat = true := by decide
    obtain ⟨s, hs, hcase⟩ := exists_symbol_of_alt hcase
    obtain ⟨node, rfl, hcased⟩ := isPhrase_of_isFlat (hflat s hs) hcase
    refine ⟨some node, name, rfl, ?_, hphrase⟩
    rintro _ ⟨⟩
    exact ⟨s, hs, hcased⟩

/-! ## Elements -/

/-- Whether a symbol is read as an operator in front of an element. -/
def Symbol.isOperator : Symbol → Bool
  | bkaOp | bknOp | andOp | notOp | repOp => true
  | _ => false

/-- The kinds of lists of phrases below the alternatives of a line. -/
inductive Part where
  /-- The phrases within an element: operators, and a leaf or alternatives. -/
  | element
  /-- The phrases within an alternative: elements. -/
  | sequence
  /-- The phrases within alternatives. -/
  | choice

/-- How the phrases below the alternatives of a line are arranged. -/
inductive Arranged (source : Source) : Part → List Node → Prop
  | leaf {s : Symbol} {pos n : Nat} {inner : List Node} (hs : s.isLeaf = true)
      (h : ProperMatch s.properBody pos (source.bytes.toList.drop pos) n inner) :
      Arranged source .element [.mk s.index pos n inner]
  | bracketed {pos n : Nat} {inner : List Node} (hne : inner ≠ [])
      (h : Arranged source .choice inner) :
      Arranged source .element [.mk Symbol.alternation.index pos n inner]
  | governed {s : Symbol} {pos n : Nat} {inner nodes : List Node} (hs : s.isOperator = true ∨ s = .optionOpen)
      (hinner : ProperMatch s.properBody pos (source.bytes.toList.drop pos) n inner)
      (h : Arranged source .element nodes) :
      Arranged source .element (.mk s.index pos n inner :: nodes)
  | noElement : Arranged source .sequence []
  | elements {pos n : Nat} {inner nodes : List Node} (h : Arranged source .element inner)
      (hnodes : Arranged source .sequence nodes) :
      Arranged source .sequence (.mk Symbol.repetition.index pos n inner :: nodes)
  | noAlternative : Arranged source .choice []
  | alternatives {pos n : Nat} {inner nodes : List Node} (hne : inner ≠ [])
      (h : Arranged source .sequence inner) (hnodes : Arranged source .choice nodes) :
      Arranged source .choice (.mk Symbol.concatenation.index pos n inner :: nodes)

variable {source : Source}

/-- A phrase of alternatives that are arranged. -/
def ArrangedChoice (source : Source) (node : Node) : Prop :=
  ∃ pos n inner, node = .mk Symbol.alternation.index pos n inner ∧ inner ≠ [] ∧
    Arranged source .choice inner

/-- A phrase of one alternative that is arranged. -/
def ArrangedSequence (source : Source) (node : Node) : Prop :=
  ∃ pos n inner, node = .mk Symbol.concatenation.index pos n inner ∧ inner ≠ [] ∧
    Arranged source .sequence inner

/-- A phrase of an element that is arranged. -/
def ArrangedElement (source : Source) (node : Node) : Prop :=
  ∃ pos n inner, node = .mk Symbol.repetition.index pos n inner ∧ Arranged source .element inner

theorem Arranged.of_elements (h : ∀ node ∈ nodes, ArrangedElement source node) :
    Arranged source .sequence nodes := by
  induction nodes with
  | nil => exact .noElement
  | cons node nodes ih =>
    obtain ⟨⟨pos, n, inner, rfl, helement⟩, hrest⟩ := List.forall_mem_cons.1 h
    exact .elements helement (ih hrest)

theorem Arranged.of_sequences (h : ∀ node ∈ nodes, ArrangedSequence source node) :
    Arranged source .choice nodes := by
  induction nodes with
  | nil => exact .noAlternative
  | cons node nodes ih =>
    obtain ⟨⟨pos, n, inner, rfl, hne, hsequence⟩, hrest⟩ := List.forall_mem_cons.1 h
    exact .alternatives hne hsequence (ih hrest)

theorem drop_eq_drop (hrest : rest = source.bytes.toList.drop pos) (m : Nat) :
    rest.drop m = source.bytes.toList.drop (pos + m) := by
  rw [hrest, List.drop_drop]

/-- The claim that alternatives are arranged, for texts shorter than `length`. -/
def AlternationsArranged (source : Source) (length : Nat) : Prop :=
  ∀ pos n rest nodes, rest.length < length → rest = source.bytes.toList.drop pos →
    ProperMatch (ref .alternation) pos rest n nodes →
    ∃ node, nodes = [node] ∧ ArrangedChoice source node

theorem AlternationsArranged.drop (h : AlternationsArranged source rest.length) (m : Nat) :
    AlternationsArranged source (rest.drop m).length := by
  intro pos n rest' nodes hlength
  rw [List.length_drop] at hlength
  exact h pos n rest' nodes (by omega)

/-- The alternatives between two brackets. -/
theorem arranged_bracketed {opening closing : Symbol}
    (hnonempty : opening.canBeEmpty = false) (hclosing : closing.isSilent = true)
    (hshorter : AlternationsArranged source rest.length)
    (hrest : rest = source.bytes.toList.drop pos)
    (h : ProperMatch (.cat [ref opening, ref .alternation, .alt [ref closing]]) pos rest n nodes) :
    ∃ m opened inner, ProperMatch (ref opening) pos rest m opened ∧
      Arranged source .element inner ∧ nodes = opened ++ inner := by
  obtain ⟨m, opened, _, _, h₁, hrest₁, -, rfl⟩ := matches_cat_cons_iff.1 h
  obtain ⟨_, inner, _, _, h₂, h₃, -, rfl⟩ := matches_cat_cons_iff.1 hrest₁
  have hclosed : isSilent (.alt [ref closing]) = true := by
    simpa [isSilent, Expr.isRunnable, Expr.allRunnable, ref] using hclosing
  cases nodes_eq_nil_of_isSilent hclosed (matches_cat_singleton_iff.1 h₃)
  have hpos := pos_of_properMatch (isNullable_ref.trans hnonempty) h₁
  have hle := h₁.le_length
  have hlt : (rest.drop m).length < rest.length := by
    rw [List.length_drop]
    omega
  obtain ⟨_, rfl, offset, length, _, rfl, hne, hchoice⟩ :=
    hshorter _ _ _ _ hlt (drop_eq_drop hrest m) h₂
  exact ⟨m, opened, [.mk _ offset length _], h₁, .bracketed hne hchoice, by simp⟩

theorem arranged_of_group (hshorter : AlternationsArranged source rest.length)
    (hrest : rest = source.bytes.toList.drop pos)
    (h : ProperMatch (ref .group) pos rest n nodes) : Arranged source .element nodes := by
  obtain ⟨m, opened, inner, hopened, hinner, rfl⟩ :=
    arranged_bracketed rfl rfl hshorter hrest ((properMatch_unrecorded_iff rfl).1 h)
  cases nodes_eq_nil_of_isSilent rfl hopened
  exact hinner

theorem arranged_of_option (hshorter : AlternationsArranged source rest.length)
    (hrest : rest = source.bytes.toList.drop pos)
    (h : ProperMatch (ref .option) pos rest n nodes) : Arranged source .element nodes := by
  obtain ⟨m, opened, inner, hopened, hinner, rfl⟩ :=
    arranged_bracketed rfl rfl hshorter hrest ((properMatch_unrecorded_iff rfl).1 h)
  obtain ⟨_, hbracket, rfl⟩ := (properMatch_recorded_iff rfl).1 hopened
  exact .governed (Or.inr rfl) (hrest ▸ hbracket) hinner

theorem arrangedElement_of_repetition (hshorter : AlternationsArranged source rest.length)
    (hrest : rest = source.bytes.toList.drop pos)
    (h : ProperMatch (ref .repetition) pos rest n nodes) :
    ∃ node, nodes = [node] ∧ ArrangedElement source node := by
  obtain ⟨inner, hinner, rfl⟩ := (properMatch_recorded_iff rfl).1 h
  refine ⟨_, rfl, pos, n, inner, rfl, ?_⟩
  obtain ⟨m, prior, _, operand, hprior, hoperand, -, rfl⟩ := matches_cat_cons_iff.1 hinner
  have hrest' := drop_eq_drop hrest m
  have hoperand : ProperMatch (.alt [ref .group, ref .option, ref .basicElement]) _ _ _ _ :=
    matches_cat_singleton_iff.1 hoperand
  have harranged : Arranged source .element operand := by
    simp only [matches_alt_cons_iff, not_matches_alt_nil, and_false, or_false] at hoperand
    rcases hoperand with h | ⟨-, h | ⟨-, h⟩⟩
    · exact arranged_of_group (hshorter.drop m) hrest' h
    · exact arranged_of_option (hshorter.drop m) hrest' h
    · obtain ⟨s, inner, hs, hleaf, rfl⟩ := exists_leaf_of_basicElement h
      exact .leaf hs (hrest' ▸ hleaf)
  rcases matches_optional_iff.1 hprior with ⟨-, rfl, -⟩ | hprior
  · exact harranged
  · let symbols : List Symbol := [.bkaOp, .bknOp, .andOp, .notOp, .repOp]
    have hsymbols : ∀ s ∈ symbols, s.isOperator = true ∧ s.isRecorded = true := by decide
    obtain ⟨s, hs, hprior⟩ := exists_symbol_of_alt
      (show ProperMatch (.alt (symbols.map ref)) pos rest m prior from hprior)
    obtain ⟨hoperator, hrecorded⟩ := hsymbols s hs
    obtain ⟨inner, hbody, rfl⟩ := (properMatch_recorded_iff hrecorded).1 hprior
    exact .governed (Or.inl hoperator) (hrest ▸ hbody) harranged

/-! ## Alternatives -/

theorem arrangedSequence_of_concatenation (hshorter : AlternationsArranged source rest.length)
    (hrest : rest = source.bytes.toList.drop pos)
    (h : ProperMatch (ref .concatenation) pos rest n nodes) :
    ∃ node, nodes = [node] ∧ ArrangedSequence source node := by
  obtain ⟨inner, hinner, rfl⟩ := (properMatch_recorded_iff rfl).1 h
  obtain ⟨m, _, _, more, hfirst, hmore, -, rfl⟩ := matches_cat_cons_iff.1 hinner
  obtain ⟨first, rfl, helement⟩ := arrangedElement_of_repetition hshorter hrest hfirst
  have hmore : ∀ node ∈ more, ArrangedElement source node := by
    refine forall_mem_of_many (matches_cat_singleton_iff.1 hmore) fun k n nodes h => ?_
    obtain ⟨w, _, _, _, hwsp, hnext, -, rfl⟩ := matches_cat_cons_iff.1 h
    cases nodes_eq_nil_of_isSilent rfl hwsp
    obtain ⟨node, rfl, hnode⟩ := arrangedElement_of_repetition (((hshorter.drop m).drop k).drop w)
      (drop_eq_drop (drop_eq_drop (drop_eq_drop hrest m) k) w) (matches_cat_singleton_iff.1 hnext)
    simpa using hnode
  exact ⟨_, rfl, pos, n, _, rfl, by simp, .of_elements (List.forall_mem_cons.2 ⟨helement, hmore⟩)⟩

theorem arrangedChoice_of_alternation (hshorter : AlternationsArranged source rest.length)
    (hrest : rest = source.bytes.toList.drop pos)
    (h : ProperMatch (ref .alternation) pos rest n nodes) :
    ∃ node, nodes = [node] ∧ ArrangedChoice source node := by
  obtain ⟨inner, hinner, rfl⟩ := (properMatch_recorded_iff rfl).1 h
  obtain ⟨m, _, _, more, hfirst, hmore, -, rfl⟩ := matches_cat_cons_iff.1 hinner
  obtain ⟨first, rfl, hsequence⟩ := arrangedSequence_of_concatenation hshorter hrest hfirst
  have hmore : ∀ node ∈ more, ArrangedSequence source node := by
    refine forall_mem_of_many (matches_cat_singleton_iff.1 hmore) fun k n nodes h => ?_
    obtain ⟨w, _, _, _, howsp, hrest₁, -, rfl⟩ := matches_cat_cons_iff.1 h
    obtain ⟨v, _, _, _, haltOp, hnext, -, rfl⟩ := matches_cat_cons_iff.1 hrest₁
    cases nodes_eq_nil_of_isSilent rfl howsp
    cases nodes_eq_nil_of_isSilent rfl haltOp
    obtain ⟨node, rfl, hnode⟩ := arrangedSequence_of_concatenation
      ((((hshorter.drop m).drop k).drop w).drop v)
      (drop_eq_drop (drop_eq_drop (drop_eq_drop (drop_eq_drop hrest m) k) w) v)
      (matches_cat_singleton_iff.1 hnext)
    simpa using hnode
  exact ⟨_, rfl, pos, n, _, rfl, by simp,
    .of_sequences (List.forall_mem_cons.2 ⟨hsequence, hmore⟩)⟩

/-- Alternatives are arranged. The induction is on the length of the text, since brackets take at
least one byte. -/
theorem arranged_of_alternation (hrest : rest = source.bytes.toList.drop pos)
    (h : ProperMatch (ref .alternation) pos rest n nodes) :
    ∃ node, nodes = [node] ∧ ArrangedChoice source node := by
  suffices hall : ∀ length, AlternationsArranged source length from
    hall (rest.length + 1) pos n rest nodes (Nat.lt_succ_self _) hrest h
  intro length
  induction length with
  | zero => exact fun _ _ _ _ hlt => absurd hlt (Nat.not_lt_zero _)
  | succ length ih =>
    intro pos n rest nodes hlt hrest h
    exact arrangedChoice_of_alternation
      (fun pos n rest' nodes hlt' => ih pos n rest' nodes (by omega)) hrest h

/-! ## Lines -/

/-- A phrase of a definition line that is arranged: a name, a sign, and alternatives. -/
def ArrangedLine (source : Source) (line : Node) : Prop :=
  ∃ pos n m name sign symbol body,
    line = .mk Symbol.rule.index pos n [.mk Symbol.ruleLookup.index pos m [name, sign], body] ∧
    IsPhrase .ruleName name ∧ symbol ∈ [Symbol.incAlt, .defined] ∧ IsPhrase symbol sign ∧
    ArrangedChoice source body

/-- The head of a line leaves the phrases of its name and its sign. -/
theorem nodes_of_ruleLookup (h : ProperMatch Symbol.ruleLookup.properBody pos rest n nodes) :
    ∃ name sign symbol, nodes = [name, sign] ∧ IsPhrase .ruleName name ∧
      symbol ∈ [Symbol.incAlt, .defined] ∧ IsPhrase symbol sign := by
  obtain ⟨_, _, _, _, hname, hrest₁, -, rfl⟩ := matches_cat_cons_iff.1 h
  obtain ⟨_, _, _, _, howsp, hsign, -, rfl⟩ := matches_cat_cons_iff.1 hrest₁
  cases nodes_eq_nil_of_isSilent rfl howsp
  have hname : ProperMatch (.alt ([.ruleName].map ref)) _ _ _ _ :=
    (properMatch_unrecorded_iff rfl).1 hname
  obtain ⟨s, hs, hname⟩ := exists_symbol_of_alt hname
  rw [List.mem_singleton] at hs
  subst hs
  obtain ⟨name, rfl, hnamed⟩ := isPhrase_of_isFlat rfl hname
  have hsign : ProperMatch (.alt ([.definedAs].map ref)) _ _ _ _ :=
    (properMatch_unrecorded_iff rfl).1 (matches_cat_singleton_iff.1 hsign)
  obtain ⟨s, hs, hsign⟩ := exists_symbol_of_alt hsign
  rw [List.mem_singleton] at hs
  subst hs
  have hsign : ProperMatch (.alt ([.incAlt, .defined].map ref)) _ _ _ _ :=
    (properMatch_unrecorded_iff rfl).1 hsign
  obtain ⟨symbol, hsymbol, hsign⟩ := exists_symbol_of_alt hsign
  have hflat : ∀ s ∈ [Symbol.incAlt, .defined], s.isFlat = true := by decide
  obtain ⟨sign, rfl, hsigned⟩ := isPhrase_of_isFlat (hflat symbol hsymbol) hsign
  exact ⟨name, sign, symbol, rfl, hnamed, hsymbol, hsigned⟩

theorem arrangedLine_of_rule (hrest : rest = source.bytes.toList.drop pos)
    (h : ProperMatch (ref .rule) pos rest n nodes) : ∀ node ∈ nodes, ArrangedLine source node := by
  obtain ⟨inner, hinner, rfl⟩ := (properMatch_recorded_iff rfl).1 h
  obtain ⟨m, _, _, _, hlookup, hrest₁, -, rfl⟩ := matches_cat_cons_iff.1 hinner
  obtain ⟨w, _, _, _, howsp, hrest₂, -, rfl⟩ := matches_cat_cons_iff.1 hrest₁
  obtain ⟨_, _, _, _, hbody, hend, -, rfl⟩ := matches_cat_cons_iff.1 hrest₂
  cases nodes_eq_nil_of_isSilent rfl howsp
  cases nodes_eq_nil_of_isSilent rfl (matches_cat_singleton_iff.1 hend)
  obtain ⟨_, hhead, rfl⟩ := (properMatch_recorded_iff rfl).1 hlookup
  obtain ⟨name, sign, symbol, rfl, hname, hsymbol, hsign⟩ := nodes_of_ruleLookup hhead
  obtain ⟨body, rfl, hchoice⟩ :=
    arranged_of_alternation (drop_eq_drop (drop_eq_drop hrest m) w) hbody
  intro node hnode
  rw [List.mem_singleton] at hnode
  subst hnode
  exact ⟨pos, n, m, name, sign, symbol, body, rfl, hname, hsymbol, hsign, hchoice⟩

/-- The phrases within a proper text are lines. -/
theorem arrangedLine_of_file (h : ProperMatch (ref .file) 0 source.bytes.toList n nodes) :
    ∀ node ∈ nodes.flatMap Node.children, ArrangedLine source node := by
  obtain ⟨inner, hinner, rfl⟩ := (properMatch_recorded_iff rfl).1 h
  simp only [List.flatMap_cons, List.flatMap_nil, List.append_nil, Node.children]
  refine forall_mem_of_many hinner fun k n nodes h => ?_
  have h : ProperMatch (.alt [ref .blankLine, ref .rule]) _ _ _ _ := h
  simp only [matches_alt_cons_iff, not_matches_alt_nil, and_false, or_false] at h
  rcases h with h | ⟨-, h⟩
  · cases nodes_eq_nil_of_isSilent rfl h
    simp
  · exact arrangedLine_of_rule (by rw [Nat.zero_add]) h

/-- The phrases within a text without flaws are lines. -/
theorem arrangedLine_ofRecognition {strict : Bool} {recognition : Recognition}
    (hrecognize : recognize source strict = .ok recognition) (hflaws : recognition.flaws = []) :
    ∀ node ∈ recognition.records.forest.flatMap Node.children, ArrangedLine source node := by
  obtain ⟨-, nodes, events, hrun, -, hrecords⟩ := proper_of_flawless hrecognize hflaws
  rw [hrecords, Records.forest_ofNodes]
  exact arrangedLine_of_file ⟨events, hrun, fun _ _ => trivial⟩

end Abnf.Metagrammar
