import Abnf.Proofs.Cache.Loading
import Abnf.Proofs.LineEnds.Reading
import Abnf.Proofs.Listing.Lines

/-!
# Listings of compiled grammars are read again

The phrases of names are made of letters, digits, hyphens and underscores, so no name of a rule or
a user-defined terminal goes on in the next line, and reduction keeps the names. So what the
comments in a listing spell out does not get in the way of reading it.

* `oneLine_of_arranged`: the names of terminals in the alternatives of a line stay on one line.
* `oneLine_of_compileText`: so do the names in the tables of a grammar that was compiled.
* `listing_exact`: the listing of a compiled grammar is read as what the grammar consists of.
-/

namespace Abnf

open Engine Metagrammar Definition Listing

/-! ## Phrases -/

/-- A phrase without line feeds stays on one line. -/
theorem oneLine_phrase {bytes : Array UInt8} {node : Node} (h : OnOneLine bytes.toList node) :
    OneLine ((Source.ofBytes bytes).phrase node.offset node.length) := by
  have hbytes : (Source.ofBytes bytes).bytes = bytes := rfl
  rw [phrase_eq rfl, OneLine, String.toList_ofList, hbytes]
  intro hmem
  obtain ⟨byte, hbyte, heq⟩ := List.mem_map.1 hmem
  have hvalid : byte.toNat.isValidChar := Or.inl (Nat.lt_trans byte.toNat_lt (by decide))
  have hnat := congrArg Char.toNat heq
  rw [Char.ofNat, dif_pos hvalid] at hnat
  obtain rfl : byte = 10 := UInt8.toNat_inj.1 hnat
  exact h hbyte

/-- If an atom names a user-defined terminal, then the name stays on one line. -/
def Atom.NamesOnOneLine (atom : Atom) : Prop :=
  ∀ udt ∈ atom.udt?, OneLine udt.1

section

variable {bytes : Array UInt8} {s : Symbol} {pos n : Nat} {inner : List Node} {a : Atom}

theorem namesOnOneLine_leaf (hs : s.isLeaf = true)
    (h : ProperMatch s.properBody pos (bytes.toList.drop pos) n inner)
    (ha : Atom.leaf? (.ofBytes bytes) (.mk s.index pos n inner) = some a) : a.NamesOnOneLine := by
  have hrecorded : s.isRecorded = true := by
    cases s <;> first | rfl | cases hs
  have hunbroken : s.isUnbroken = true := by
    cases s <;> first | rfl | cases hs
  have hphrase := oneLine_phrase ((onOneLine_of_match hrecorded h).1 hunbroken)
  rintro ⟨name, empty⟩ hudt
  cases s with
  | udtEmpty | udtNonEmpty =>
    cases ha
    cases hudt
    exact hphrase
  | trgOp =>
    obtain ⟨_, _, _, _, -, rfl, -, -⟩ := nodes_of_trgOp h
    cases ha
    cases hudt
  | abgOp | aenOp | rnmOp | bkrOp | tlsOp | clsOp | tbsOp =>
    cases ha
    cases hudt
  | _ => cases hs

theorem namesOnOneLine_operator {node : Node} {source : Source}
    (ha : Atom.operator? source node = some a) : a.NamesOnOneLine := by
  rintro ⟨name, empty⟩ hudt
  unfold Atom.operator? at ha
  split at ha
  case h_6 => split at ha <;> (cases ha; cases hudt)
  case h_7 => cases ha
  all_goals
    cases ha
    cases hudt

/-! ## Definition lines -/

/-- The names of terminals that are read from phrases stay on one line. -/
def ReadOnOneLine (source : Source) : Part → List Node → Prop
  | .element, nodes =>
    ∀ e ∈ readElement source nodes, ∀ a ∈ e.atoms, a.NamesOnOneLine
  | .sequence, nodes => ∀ a ∈ Expr.atomsAll (readElements source nodes), a.NamesOnOneLine
  | .choice, nodes => ∀ a ∈ Expr.atomsAll (readAlternatives source nodes), a.NamesOnOneLine

/-- Phrases that are arranged name terminals on one line only. -/
theorem oneLine_of_arranged {part : Part} {nodes : List Node}
    (h : Arranged (.ofBytes bytes) part nodes) : ReadOnOneLine (.ofBytes bytes) part nodes := by
  induction h with
  | leaf hs hmatch =>
    obtain ⟨a, ha, -⟩ := sound_leaf hs rfl hmatch
    rintro e he a' ha'
    cases (readElement_leaf hs ha).symm.trans he
    rw [Expr.atoms, List.mem_singleton] at ha'
    exact ha' ▸ namesOnOneLine_leaf hs hmatch ha
  | bracketed _ _ ih =>
    rintro e he
    cases (readElement_alternation _ _ _).symm.trans he
    exact ih
  | @governed s pos n inner _ hs _ hoperand ih =>
    obtain ⟨a, ha, -⟩ := sound_operator (.ofBytes bytes) hs pos n inner
    obtain ⟨e, he, -⟩ := hoperand.reads
    rintro e' he'
    cases (readElement_operator ha he).symm.trans he'
    exact List.forall_mem_cons.2 ⟨namesOnOneLine_operator ha, ih e he⟩
  | noElement => simp [ReadOnOneLine, readElements, Expr.atomsAll]
  | elements helement _ ihelement ih =>
    obtain ⟨e, he, -⟩ := helement.reads
    simp only [ReadOnOneLine, readElements, elementOf, he, Expr.atomsAll, List.forall_mem_append]
    exact ⟨ihelement e he, ih⟩
  | noAlternative => simp [ReadOnOneLine, readAlternatives, Expr.atomsAll]
  | alternatives _ _ _ ihsequence ih =>
    simp only [ReadOnOneLine, readAlternatives, alternativeOf, Expr.atomsAll,
      List.forall_mem_append]
    exact ⟨ihsequence, ih⟩

/-- A definition line whose names stay on one line. -/
structure NamesLines (definition : Definition) : Prop where
  name : OneLine definition.name
  atoms : ∀ a ∈ definition.atoms, a.NamesOnOneLine

/-- The definition lines of a text without flaws have names on one line only. -/
theorem namesLines_ofRecognition {strict : Bool} {recognition : Recognition}
    (hrecognize : recognize (.ofBytes bytes) strict = .ok recognition)
    (hflaws : recognition.flaws = []) :
    ∀ line ∈ ofForest (.ofBytes bytes) recognition.records.forest, NamesLines line := by
  have harranged := arrangedLine_ofRecognition hrecognize hflaws
  obtain ⟨-, nodes, events, hrun, -, hrecords⟩ := proper_of_flawless hrecognize hflaws
  rw [hrecords, Records.forest_ofNodes] at harranged ⊢
  have hphrases := onOneLine_of_mem hrun rfl
  intro line hline
  obtain ⟨node, hnode, hread⟩ := List.mem_filterMap.1 hline
  obtain ⟨pos, n, m, _, sign, symbol, _, rfl, ⟨offset, length, rfl⟩, -, -, _, _, inner, rfl, -,
    hchoice⟩ := harranged node hnode
  cases hread
  obtain ⟨outer, houter, hinside⟩ := List.mem_flatMap.1 hnode
  have hname : OnOneLine bytes.toList (.mk Symbol.ruleName.index offset length []) :=
    hphrases _ (mem_postorderAll houter (mem_postorder_of_child hinside
      (by simp [Node.postorder, Node.postorderAll]))) rfl
  exact ⟨oneLine_phrase hname, oneLine_of_arranged hchoice⟩

/-! ## Tables -/

/-- The names in the tables of definition lines are those in the lines. -/
theorem oneLine_ofDefinitions {definitions : List Definition}
    (h : ∀ line ∈ definitions, NamesLines line) :
    (∀ rule ∈ (Tables.ofDefinitions definitions).rules, OneLine rule.name) ∧
      ∀ udt ∈ (Tables.ofDefinitions definitions).udts, OneLine udt.name := by
  have hcontributing : ∀ line ∈ ((Definition.review [] definitions).filter fun line =>
      line.2.isNone).map Prod.fst, NamesLines line := by
    intro line hline
    obtain ⟨reviewed, hreviewed, rfl⟩ := List.mem_map.1 hline
    refine h _ ?_
    rw [← Tables.review_map_fst [] definitions]
    exact List.mem_map_of_mem (List.mem_of_mem_filter hreviewed)
  constructor
  · intro rule hrule
    obtain ⟨⟨line, index⟩, hline, rfl⟩ := List.mem_map.1 (List.mem_toArray.1 hrule)
    have hmem := List.mem_of_getElem? (List.mem_zipIdx_iff_getElem?.1 hline)
    exact (hcontributing line (List.mem_of_mem_filter hmem)).name
  · intro udt hudt
    obtain ⟨⟨named, index⟩, hnamed, rfl⟩ := List.mem_map.1 (List.mem_toArray.1 hudt)
    have hmem := List.mem_of_getElem? (List.mem_zipIdx_iff_getElem?.1 hnamed)
    obtain ⟨atom, hatom, hudt⟩ := List.mem_filterMap.1 (Tables.mem_of_mem_firstByKey hmem)
    obtain ⟨line, hline, hatom⟩ := List.mem_flatMap.1 hatom
    exact (hcontributing line hline).atoms atom hatom named hudt

/-- Reduction keeps the names of rules. -/
theorem names_of_reduce {rules reduced : Array Rule} (h : Reduction.reduce rules = .ok reduced) :
    rules.toList.map Rule.name = reduced.toList.map Rule.name := by
  rw [← List.forall₂_eq_eq_eq, List.forall₂_map_left_iff, List.forall₂_map_right_iff]
  exact (Reduction.reduce_eq_ok_iff.1 h).imp fun _ _ hrule => hrule.1.symm

/-- The names in a grammar that was compiled stay on one line. -/
theorem oneLine_of_compileText {strict : Bool} {text : String} {grammar : Grammar}
    (h : compileText strict text = .ok (.ok grammar)) :
    (∀ rule ∈ grammar.rules, OneLine rule.name) ∧ ∀ udt ∈ grammar.udts, OneLine udt.name := by
  obtain ⟨-, recognition, reduced, _, hrecognize, hform, hreduce, -, rfl⟩ :=
    exists_stages_of_compileText h
  have hlines : ∀ line ∈ ofForest (.ofString text) recognition.records.forest, NamesLines line :=
    namesLines_ofRecognition hrecognize hform
  have htables := oneLine_ofDefinitions hlines
  have heq : Tables.ofRecognition (.ofString text) recognition =
      Tables.ofDefinitions (ofForest (.ofString text) recognition.records.forest) := by
    simp [Tables.ofRecognition, hform]
  rw [← heq] at htables
  refine ⟨fun rule hrule => ?_, htables.2⟩
  have hname : rule.name ∈ reduced.toList.map Rule.name :=
    List.mem_map_of_mem (Array.mem_toList_iff.2 hrule)
  rw [← names_of_reduce hreduce] at hname
  obtain ⟨old, hold, hname⟩ := List.mem_map.1 hname
  exact hname ▸ htables.1 old (Array.mem_toList_iff.1 hold)

end

/-! ## Listings -/

/-- The names for callbacks are the lowered names of rules and terminals in ascending order. -/
theorem callbackNames_sorted (grammar : Grammar) :
    grammar.callbackNames.Pairwise (· ≤ ·) ∧
      grammar.callbackNames.Perm
        (grammar.rules.toList.map Rule.lower ++ grammar.udts.toList.map Udt.lower) := by
  have htrans : ∀ a b c : String, (!decide (b < a)) = true → (!decide (c < b)) = true →
      (!decide (c < a)) = true := by
    simp only [Bool.not_eq_true', decide_eq_false_iff_not, String.not_lt]
    exact fun a b c => String.le_trans
  have htotal : ∀ a b : String, (!decide (b < a) || !decide (a < b)) = true := by
    simp only [Bool.or_eq_true, Bool.not_eq_true', decide_eq_false_iff_not, String.not_lt]
    exact String.le_total
  refine ⟨(List.pairwise_mergeSort htrans htotal _).imp fun hle => ?_, List.mergeSort_perm _ _⟩
  simpa only [Bool.not_eq_true', decide_eq_false_iff_not, String.not_lt] using hle

/-- Whatever compiles has a listing. -/
theorem Grammar.Checked.exists_listing {grammar : Grammar} (h : grammar.Checked) :
    ∃ text, grammar.listing = .ok text := by
  have hwell := h.tabled.wellFormed
  refine Cache.exists_listing fun rule hrule op hop => ?_
  obtain ⟨i, hi⟩ := Array.getElem?_of_mem hop
  exact Cache.mayCarry_of_fits (hwell.wired rule hrule) hi (hwell.fits rule hrule op hop)

/-- Whatever compiles has a listing. When it is read as source code, it defines the rules of the
grammar, its user-defined terminals, its text and the names for callbacks, which are the lowered
names in ascending order. So grammars with the same listing agree in all of these. -/
theorem listing_exact {strict : Bool} {sources : List String} {grammar : Grammar}
    (h : compile strict sources = .ok (.ok grammar)) :
    (∃ text, grammar.listing = .ok text ∧ Listing.read text =
      some ⟨grammar.callbackNames, grammar.rules, grammar.udts, grammar.source⟩) ∧
    (grammar.callbackNames.Pairwise (· ≤ ·) ∧ grammar.callbackNames.Perm
      (grammar.rules.toList.map Rule.lower ++ grammar.udts.toList.map Udt.lower)) ∧
    ∀ strict' sources' grammar', compile strict' sources' = .ok (.ok grammar') →
      grammar'.listing = grammar.listing →
        grammar'.rules = grammar.rules ∧ grammar'.udts = grammar.udts ∧
          grammar'.callbackNames = grammar.callbackNames ∧ grammar'.source = grammar.source := by
  have hread : ∀ {strict sources grammar}, compile strict sources = .ok (.ok grammar) →
      ∃ text, grammar.listing = .ok text ∧ read text = some (Contents.ofGrammar grammar) := by
    intro strict sources grammar h
    obtain ⟨text, htext⟩ := (checked_of_compile h).exists_listing
    obtain ⟨hrules, hudts⟩ := oneLine_of_compileText h
    exact ⟨text, htext, read_text hrules hudts htext⟩
  obtain ⟨text, htext, hcontents⟩ := hread h
  refine ⟨⟨text, htext, hcontents⟩, callbackNames_sorted grammar, ?_⟩
  intro strict' sources' grammar' h' hsame
  obtain ⟨text', htext', hcontents'⟩ := hread h'
  cases htext'.symm.trans (hsame.trans htext)
  have heq := Option.some.inj (hcontents'.symm.trans hcontents)
  exact ⟨congrArg Contents.rules heq, congrArg Contents.udts heq,
    congrArg Contents.callbackNames heq, congrArg Contents.source heq⟩

/-- The listing of the grammar of a backslash between quotes is read again, and tells this grammar
from the one of the empty phrase. -/
theorem listing_exact_backslash :
    ∃ grammar grammar' text, compile false ["A=\"\\\"\n"] = .ok (.ok grammar) ∧
      compile false ["A=\"\"\n"] = .ok (.ok grammar') ∧ grammar.listing = .ok text ∧
      Listing.read text =
        some ⟨["a"], #[⟨"A", 0, #[.tls [92]]⟩], #[], "A=\"\\\"\n"⟩ ∧
      grammar'.listing ≠ grammar.listing := by
  have htables : (grammar? false "A=\"\\\"\n").map
      (fun grammar => (grammar.rules, grammar.udts, grammar.source)) =
        some (#[⟨"A", 0, #[.tls [92]]⟩], #[], "A=\"\\\"\n") := by
    decide +kernel
  obtain ⟨grammar, hgrammar, htables⟩ := Option.map_eq_some_iff.1 htables
  have hcompile := compile_of_grammar? hgrammar
  simp only [Prod.mk.injEq] at htables
  obtain ⟨hrules, hudts, hsource⟩ := htables
  have hnames : grammar.callbackNames = ["a"] := by
    have hlower : lowerName "A" = "a" := by decide +kernel
    simp [Grammar.callbackNames, hrules, hudts, Rule.lower, hlower]
  obtain ⟨⟨text, htext, hread⟩, -, hsame⟩ := listing_exact hcompile
  refine ⟨grammar, emptyPhrase, text, hcompile, compile_emptyPhrase, htext, ?_, fun heq => ?_⟩
  · rwa [hnames, hrules, hudts, hsource] at hread
  · have hdiffers := (hsame _ _ _ compile_emptyPhrase heq).1
    rw [hrules] at hdiffers
    exact absurd hdiffers (by decide)

end Abnf
