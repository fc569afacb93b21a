import Abnf.Proofs.Canonical.Spelling

/-!
# Leaves and operators

Every leaf and every operator of a canonical text is taken from it as a whole, and the phrases
that are recorded on the way are read as what was written.

* `isRead_leaf`: a leaf in front of what can stand behind an element.
* `isOperatorRead_operator`: an operator in front of an element.
-/

namespace Abnf.Canonical

open Engine Metagrammar
open scoped Decisions

variable {source : Source} {s : Symbol} {pos : Nat} {n : UInt32} {text rest : List Char}
  {nodes : List Node}

/-! ## Numbers -/

theorem takes_dnum (n : UInt32) (h : ∀ c ∈ rest.head?, isDigit c = false) :
    Takes (ref .dnum) pos (printNumber n) rest [] :=
  .ref _ rfl (takes_digits n h)

theorem takes_repNum (n : UInt32) (h : ∀ c ∈ rest.head?, isDigit c = false) :
    Takes (ref .repNum) pos (printNumber n) rest [] :=
  .ref _ rfl (takes_digits n h)

theorem takes_dec : Takes (ref .dec) pos ['d'] rest [] :=
  .ref _ rfl (.miss (.chars (by decide) rfl) (.hit (.chars _ (by decide))))

/-- Whether a character can stand right behind a number in a string of numbers. -/
def endsNumber (c : Char) : Bool :=
  endsElement c || c == '.'

theorem not_digit_of_endsNumber {c : Char} (h : endsNumber c = true) : isDigit c = false := by
  simp only [endsNumber, Bool.or_eq_true, beq_iff_eq] at h
  rcases h with h | rfl
  · exact (not_continued h).2
  · decide

theorem begins_dotted (ns : List UInt32) (h : Begins endsElement rest) :
    Begins endsNumber (printDotted ns ++ rest) := by
  cases ns with
  | nil => exact h.imp fun c hc => by simp [endsNumber, hc]
  | cons n ns => exact begins_cons.2 rfl

/-- Numbers with a dot in front of each leave one phrase for each. -/
theorem takes_dotted (ns : List UInt32) (hrest : Begins endsElement rest)
    (hsource : Holds source pos (printDotted ns ++ rest)) :
    ∃ nodes, Takes (many (.cat [chars ['.'], ref .dString])) pos (printDotted ns) rest nodes ∧
      WritesAll ns (nodes.map (Atom.numeralOf source)) := by
  induction ns generalizing pos with
  | nil =>
    exact ⟨[], .none (.cat (.chars (by decide) (hrest.isPrefixOf rfl []))), by simp, rfl⟩
  | cons n ns ih =>
    have hdigits := (begins_dotted ns hrest).not_mem fun c hc => not_digit_of_endsNumber hc
    have hfirst : Takes (.cat [chars ['.'], ref .dString]) pos ('.' :: printNumber n)
        (printDotted ns ++ rest) [.mk Symbol.dString.index (pos + 1) (printNumber n).length []] :=
      Takes.cat (.chars ['.'] (by decide)) (.one (.phrase .dString rfl (takes_dnum n hdigits)))
    have hsource : Holds source pos ('.' :: printNumber n ++ (printDotted ns ++ rest)) := by
      simpa [printDotted] using hsource
    obtain ⟨nodes, htakes, hwrites⟩ := ih hsource.skip
    refine ⟨_, .more (List.cons_ne_nil _ _) hfirst htakes, ?_⟩
    have hsource : Holds source pos (['.'] ++ (printNumber n ++ (printDotted ns ++ rest))) :=
      hsource
    exact .cons (hsource.skip.writes _ _) hwrites

/-! ## Leaves -/

/-- The symbols of leaves, in the order in which they are tried. -/
def leafSymbols : List Symbol :=
  [.udtOp, .rnmOp, .trgOp, .tbsOp, .abgOp, .aenOp, .bkrOp, .tlsOp, .clsOp]

/-- A leaf that stands in front of `rest` is taken, and read as it was written. -/
def IsRead (source : Source) (pos : Nat) (leaf : Leaf) (rest : List Char) : Prop :=
  ∃ (s : Symbol) (nodes : List Node) (spelled : Spelled), s.isLeaf = true ∧
    Takes (ref .basicElement) pos leaf.print rest [.mk s.index pos leaf.print.length nodes] ∧
    Atom.leaf? source (.mk s.index pos leaf.print.length nodes) = some spelled.atom ∧
    spelled.token = .leaf leaf

theorem takes_basicElement (hs : s ∈ leafSymbols)
    (hbefore : ∀ t ∈ leafSymbols.takeWhile (· != s), Refuses (ref t) (text ++ rest))
    (h : Takes (ref s) pos text rest nodes) : Takes (ref .basicElement) pos text rest nodes :=
  .ref _ rfl (Takes.among hs hbefore h)

theorem isRead_of_takes (s : Symbol) {leaf : Leaf} (spelled : Spelled) (hleaf : s.isLeaf = true)
    (hs : s ∈ leafSymbols)
    (hbefore : ∀ t ∈ leafSymbols.takeWhile (· != s), Refuses (ref t) (leaf.print ++ rest))
    (h : Takes s.properBody pos leaf.print rest nodes)
    (hread : Atom.leaf? source (.mk s.index pos leaf.print.length nodes) = some spelled.atom)
    (htoken : spelled.token = .leaf leaf) : IsRead source pos leaf rest := by
  have hrecorded : s.isRecorded = true := by
    cases s <;> first | rfl | cases hleaf
  exact ⟨s, nodes, spelled, hleaf, takes_basicElement hs hbefore (.phrase s hrecorded h), hread,
    htoken⟩

/-- The symbols before one of a leaf take nothing if they cannot begin as the leaf does. -/
theorem refuses_before {c : Char} (h : ∀ t ∈ leafSymbols.takeWhile (· != s),
    t.isProperlyQuiet (some (byteOf c)) = true) :
    ∀ t ∈ leafSymbols.takeWhile (· != s), Refuses (ref t) (c :: rest) :=
  fun t ht => refuses_of_head (h t ht)

/-- A percent sign begins no name. -/
theorem refuses_names (rest : List Char) :
    ∀ t ∈ [Symbol.udtOp, .rnmOp], Refuses (ref t) ('%' :: rest) := by
  have hquiet : ∀ t ∈ [Symbol.udtOp, .rnmOp], t.isProperlyQuiet (some (byteOf '%')) = true := by
    decide
  exact fun t ht => refuses_of_head (hquiet t ht)

theorem isRead_range {min max : UInt32} (le : min ≤ max) (hrest : Begins endsElement rest)
    (hsource : Holds source pos ((Leaf.range min max le).print ++ rest)) :
    IsRead source pos (.range min max le) rest := by
  have hsource : Holds source pos
      (['%'] ++ (['d'] ++ (printNumber min ++ (['-'] ++ (printNumber max ++ rest))))) := by
    simpa [Leaf.print] using hsource
  have hend := hrest.not_mem fun c hc => (not_continued hc).2
  have htakes : Takes Symbol.trgOp.properBody pos (Leaf.range min max le).print rest
      [.mk Symbol.dmin.index (pos + 1 + 1) (printNumber min).length [],
        .mk Symbol.dmax.index (pos + 1 + 1 + (printNumber min).length + 1)
          (printNumber max).length []] :=
    Takes.cat (.chars ['%'] (by decide)) (.one (.hit (Takes.cat takes_dec
      (Takes.cat (.phrase .dmin rfl (takes_dnum min (by rintro _ ⟨⟩; rfl)))
        (Takes.cat (.chars ['-'] (by decide)) (.one (.phrase .dmax rfl (takes_dnum max hend))))))))
  exact isRead_of_takes .trgOp (.range pos le (hsource.skip.skip.writes _ _)
    (hsource.skip.skip.skip.skip.writes _ _)) rfl (by decide)
    (refuses_before (by decide)) htakes rfl rfl

/-- A string of numbers is no range. -/
theorem refuses_trgOp_string (first : UInt32) (more : List UInt32)
    (hrest : Begins endsElement rest) :
    Refuses (ref .trgOp) ((Leaf.string first more).print ++ rest) := by
  have hbegins := begins_dotted more hrest
  have hnumber : ∀ pos, ∃ nodes,
      Takes (ref .dmin) pos (printNumber first) (printDotted more ++ rest) nodes :=
    fun pos => ⟨_, .phrase .dmin rfl (takes_dnum first (hbegins.not_mem fun c hc =>
      not_digit_of_endsNumber hc))⟩
  -- The first number is taken for the lower bound; there is no hyphen behind it.
  have hdec : Refuses (interval .dec .dmin .dmax)
      (['d'] ++ (printNumber first ++ (printDotted more ++ rest))) :=
    .behind (fun _ => ⟨[], takes_dec⟩) (.behind hnumber
      (.cat (.chars (by decide) (hbegins.isPrefixOf rfl []))))
  have hpercent : Refuses Symbol.trgOp.properBody
      (['%'] ++ (['d'] ++ (printNumber first ++ (printDotted more ++ rest)))) :=
    .behind (fun _ => ⟨[], .chars ['%'] (by decide)⟩) (.cat (.alt hdec
      (.alt (.cat (refuses_of_head (by decide)))
        (.alt (.cat (refuses_of_head (by decide))) .nil))))
  refine .ref ?_
  simpa [Leaf.print] using hpercent

theorem isRead_string (first : UInt32) (more : List UInt32) (hrest : Begins endsElement rest)
    (hsource : Holds source pos ((Leaf.string first more).print ++ rest)) :
    IsRead source pos (.string first more) rest := by
  have hsource : Holds source pos
      (['%'] ++ (['d'] ++ (printNumber first ++ (printDotted more ++ rest)))) := by
    simpa [Leaf.print] using hsource
  have hbegins := (begins_dotted more hrest).not_mem fun c hc => not_digit_of_endsNumber hc
  obtain ⟨nodes, htakesMore, hwrites⟩ := takes_dotted more hrest hsource.skip.skip.skip
  have htakes : Takes Symbol.tbsOp.properBody pos (Leaf.string first more).print rest
      (.mk Symbol.dString.index (pos + 1 + 1) (printNumber first).length [] :: nodes) :=
    Takes.cat (.chars ['%'] (by decide)) (.one (.hit (Takes.cat takes_dec
      (Takes.cat (.phrase .dString rfl (takes_dnum first hbegins)) (.one htakesMore)))))
  refine isRead_of_takes .tbsOp (.string (.cons (hsource.skip.skip.writes _ _) hwrites)) rfl
    (by decide) ?_ htakes rfl rfl
  change ∀ t ∈ [Symbol.udtOp, .rnmOp] ++ [.trgOp], _
  exact List.forall_mem_append.2 ⟨refuses_names _,
    List.forall_mem_singleton.2 (refuses_trgOp_string first more hrest)⟩

theorem isRead_rule (name : Name) (hrest : Begins endsElement rest)
    (hsource : Holds source pos (name.chars ++ rest)) :
    IsRead source pos (.name (.rule name)) rest := by
  have hend := hrest.not_mem fun c hc => (not_continued hc).1
  have htakes : Takes Symbol.rnmOp.properBody pos name.chars rest [] := takes_alphanum name hend
  refine isRead_of_takes .rnmOp (.ruleName pos name) rfl (by decide) ?_ htakes ?_ rfl
  · refine List.forall_mem_singleton.2 (.ref ?_)
    have hmark : ∀ c : Char, c.toNat < 128 →
        Refuses (.cat [chars [c, '_'], ref .alphanum]) (name.chars ++ rest) := fun c hc =>
      .cat (.chars (by simpa using hc) (isPrefixOf_name name hrest c))
    -- No underscore follows the first letter, so the name is not that of a terminal.
    exact .alt (.ref (hmark 'e' (by decide))) (.alt (.ref (hmark 'u' (by decide))) .nil)
  · exact congrArg (fun text => some (Atom.ruleName pos text))
      (hsource.phrase (printable_name name))

theorem isRead_udt (empty : Bool) (name : Name) (hrest : Begins endsElement rest)
    (hsource : Holds source pos ((Reference.udt empty name).print ++ rest)) :
    IsRead source pos (.name (.udt empty name)) rest := by
  have hend := hrest.not_mem fun c hc => (not_continued hc).1
  have hread := congrArg (fun text => some (Atom.udtName text empty))
    (hsource.phrase (printable_reference _))
  cases empty with
  | true =>
    have htakes : Takes Symbol.udtEmpty.properBody pos ('e' :: '_' :: name.chars) rest [] :=
      Takes.cat (.chars ['e', '_'] (by decide)) (.one (takes_alphanum name hend))
    exact ⟨.udtEmpty, [], .udtName true name, rfl, takes_basicElement (by decide)
      (by simp [leafSymbols]) (.ref .udtOp rfl (.hit (.phrase _ rfl htakes))), hread, rfl⟩
  | false =>
    have htakes : Takes Symbol.udtNonEmpty.properBody pos ('u' :: '_' :: name.chars) rest [] :=
      Takes.cat (.chars ['u', '_'] (by decide)) (.one (takes_alphanum name hend))
    exact ⟨.udtNonEmpty, [], .udtName false name, rfl, takes_basicElement (by decide)
      (by simp [leafSymbols]) (.ref .udtOp rfl (.miss (refuses_of_head (by decide))
        (.hit (.phrase _ rfl htakes)))), hread, rfl⟩

/-! ### Quoted text -/

theorem scans_quoted : Scans (.alt [range ' ' '!', range '#' '~'])
    fun c => isPrintable c && c != '\x22' := by
  refine (Scans.or (.range (by decide)) (.or (.range (by decide)) .none)).congr fun c => ?_
  rw [Bool.eq_iff_iff]
  simp [isPrintable, Char.le_def, UInt32.le_iff_toNat_le, ← Char.toNat_inj]
  omega

theorem scans_caseSensitive : Scans (.alt [range ' ' '&', range '(' '~'])
    fun c => isPrintable c && c != '\x27' := by
  refine (Scans.or (.range (by decide)) (.or (.range (by decide)) .none)).congr fun c => ?_
  rw [Bool.eq_iff_iff]
  simp [isPrintable, Char.le_def, UInt32.le_iff_toNat_le, ← Char.toNat_inj]
  omega

theorem Quoted.admits {delimiter : Char} (text : Quoted delimiter) :
    ∀ c ∈ text.chars, (isPrintable c && c != delimiter) = true := by
  intro c hc
  simpa [printable_quoted text c hc] using (text.printable c hc).2.2

theorem lowerByte_byteOf {c : Char} (h : c.toNat < 128) :
    (Engine.lowerByte (byteOf c)).toUInt32 = c.toLower.val := by
  have hall : ∀ i : Fin 128, (Engine.lowerByte (byteOf (Char.ofNat i))).toUInt32 =
      (Char.ofNat i).toLower.val := by
    decide
  simpa using hall ⟨c.toNat, h⟩

/-- The bytes of a text between its delimiters. -/
theorem Holds.quotedText {delimiter : Char} (text : Quoted delimiter)
    (h : Holds source pos (delimiter :: text.chars ++ [delimiter] ++ rest)) (rule : Nat)
    (nodes : List Node) :
    Atom.quoted source (.mk rule pos (delimiter :: text.chars ++ [delimiter]).length nodes) =
      encode text.chars := by
  have hlength : (delimiter :: text.chars ++ [delimiter]).length = text.chars.length + 2 := by
    simp
  rw [hlength]
  exact Holds.quoted (by simpa using h) rule nodes

theorem isRead_quoted (text : Quoted '\x22')
    (hsource : Holds source pos ((Leaf.quoted text).print ++ rest)) :
    IsRead source pos (.quoted text) rest := by
  have htakes : Takes Symbol.tlsOp.properBody pos (Leaf.quoted text).print rest [] :=
    Takes.cat (.ref .tlsOpen rfl (.chars ['\x22'] (by decide)))
      (Takes.cat (.ref .tlsString rfl (scans_quoted.many text.admits (by rintro _ ⟨⟩; rfl)))
        (.one (.ref .tlsClose rfl (.chars ['\x22'] (by decide)))))
  have hbytes : (encode text.chars).map (fun byte => (Engine.lowerByte byte).toUInt32) =
      text.chars.map fun c => c.toLower.val := by
    rw [encode, List.map_map]
    exact List.map_congr_left fun c hc => lowerByte_byteOf ((printable_quoted text).isAscii c hc)
  have hread : Atom.leaf? source (.mk Symbol.tlsOp.index pos (Leaf.quoted text).print.length []) =
      some (.plain (.tls (text.chars.map fun c => c.toLower.val))) := by
    rw [← hbytes, ← hsource.quotedText text Symbol.tlsOp.index []]
    rfl
  exact isRead_of_takes .tlsOp (.plain _ (.leaf (.quoted text)) rfl fun _ => rfl) rfl (by decide)
    (refuses_before (by decide)) htakes hread rfl

theorem isRead_caseSensitive (text : Quoted '\x27')
    (hsource : Holds source pos ((Leaf.caseSensitive text).print ++ rest)) :
    IsRead source pos (.caseSensitive text) rest := by
  have htakes : Takes Symbol.clsOp.properBody pos (Leaf.caseSensitive text).print rest [] :=
    Takes.cat (.ref .clsOpen rfl (.chars ['\x27'] (by decide)))
      (Takes.cat (.ref .clsString rfl (scans_caseSensitive.many text.admits (by rintro _ ⟨⟩; rfl)))
        (.one (.ref .clsClose rfl (.chars ['\x27'] (by decide)))))
  have hbytes : (encode text.chars).map UInt8.toUInt32 = text.chars.map Char.val := by
    rw [encode, List.map_map]
    exact List.map_congr_left fun c hc => toUInt32_byteOf ((printable_quoted text).isAscii c hc)
  have hop : ∀ names, (if (text.chars.map Char.val).isEmpty then
      Opcode.tls (text.chars.map Char.val) else .tbs (text.chars.map Char.val)) =
      (Leaf.caseSensitive text).opcode names := by
    intro names
    cases hchars : text.chars <;> simp [Leaf.opcode, hchars]
  have hread : Atom.leaf? source
      (.mk Symbol.clsOp.index pos (Leaf.caseSensitive text).print.length []) =
      some (.plain (if (text.chars.map Char.val).isEmpty then .tls (text.chars.map Char.val)
        else .tbs (text.chars.map Char.val))) := by
    rw [← hbytes, ← hsource.quotedText text Symbol.clsOp.index []]
    rfl
  exact isRead_of_takes .clsOp (.plain _ (.leaf (.caseSensitive text)) rfl hop) rfl (by decide)
    (refuses_before (by decide)) htakes hread rfl

/-! ### Anchors -/

/-- What follows the percent sign of an anchor is not the base of a number. -/
theorem refuses_numbers {c : Char} (h : ∀ t ∈ [Symbol.dec, .hex, .bin],
    t.isProperlyQuiet (some (byteOf c)) = true) :
    ∀ t ∈ [Symbol.trgOp, .tbsOp], Refuses (ref t) ('%' :: c :: rest) := by
  have hpercent : ∀ pos, ∃ nodes, Takes (chars ['%']) pos ['%'] (c :: rest) nodes :=
    fun _ => ⟨[], .chars ['%'] (by decide)⟩
  have hbase : ∀ t ∈ [Symbol.dec, .hex, .bin], Refuses (ref t) (c :: rest) :=
    fun t ht => refuses_of_head (h t ht)
  have hdec := hbase .dec (by decide)
  have hhex := hbase .hex (by decide)
  have hbin := hbase .bin (by decide)
  have htrg : Refuses (ref .trgOp) ('%' :: c :: rest) :=
    .ref (.behind hpercent (.cat (.alt (.cat hdec) (.alt (.cat hhex) (.alt (.cat hbin) .nil)))))
  have htbs : Refuses (ref .tbsOp) ('%' :: c :: rest) :=
    .ref (.behind hpercent (.cat (.alt (.cat hdec) (.alt (.cat hhex) (.alt (.cat hbin) .nil)))))
  exact List.forall_mem_cons.2 ⟨htrg, List.forall_mem_singleton.2 htbs⟩

theorem isRead_begins : IsRead source pos .begins rest := by
  refine isRead_of_takes .abgOp (.plain .abg (.leaf .begins) rfl fun _ => rfl) rfl (by decide)
    ?_ (.chars ['%', '^'] (by decide)) rfl rfl
  change ∀ t ∈ [Symbol.udtOp, .rnmOp] ++ [.trgOp, .tbsOp], _
  exact List.forall_mem_append.2 ⟨refuses_names _, refuses_numbers (by decide)⟩

theorem isRead_ends : IsRead source pos .ends rest := by
  have habg : Refuses (ref .abgOp) ('%' :: '$' :: rest) := .ref (.chars (by decide) rfl)
  refine isRead_of_takes .aenOp (.plain .aen (.leaf .ends) rfl fun _ => rfl) rfl (by decide)
    ?_ (.chars ['%', '$'] (by decide)) rfl rfl
  change ∀ t ∈ [Symbol.udtOp, .rnmOp] ++ ([.trgOp, .tbsOp] ++ [.abgOp]), _
  exact List.forall_mem_append.2 ⟨refuses_names _, List.forall_mem_append.2
    ⟨refuses_numbers (by decide), List.forall_mem_singleton.2 habg⟩⟩

/-! ### Back-references -/

theorem takes_bkrName (reference : Reference) (hrest : Begins endsElement rest) :
    Takes Symbol.bkrName.properBody pos reference.print rest [] := by
  have hend := hrest.not_mem fun c hc => (not_continued hc).1
  cases reference with
  | rule name =>
    have hmark : ∀ c : Char, c.toNat < 128 → Refuses (chars [c, '_']) (name.chars ++ rest) :=
      fun c hc => .chars (by simpa using hc) (isPrefixOf_name name hrest c)
    have hnone := Refuses.alt (hmark 'u' (by decide)) (.alt (hmark 'e' (by decide)) .nil)
    exact Takes.cat (.missing hnone) (.one (takes_alphanum name hend))
  | udt empty name =>
    cases empty with
    | true =>
      exact Takes.cat
        (.present (.miss (.chars (by decide) rfl) (.hit (.chars ['e', '_'] (by decide)))))
        (.one (takes_alphanum name hend))
    | false =>
      exact Takes.cat (.present (.hit (.chars ['u', '_'] (by decide))))
        (.one (takes_alphanum name hend))

theorem takes_bkrOp {letter : Char} (modifier : Symbol) (reference : Reference)
    (hrest : Begins endsElement rest) (hmodifier : ∀ pos rest, Takes
      (.alt [ref .bkrCi, ref .bkrCs]) pos [letter] rest [.mk modifier.index pos 1 []]) :
    Takes Symbol.bkrOp.properBody pos ('\x5c' :: '%' :: letter :: reference.print) rest
      [.mk modifier.index (pos + 1 + 1) 1 [],
        .mk Symbol.bkrName.index (pos + 1 + 2) reference.print.length []] :=
  Takes.cat (.chars ['\x5c'] (by decide)) (Takes.cat
    (.present (.ref .bkrModifier rfl (Takes.cat (.chars ['%'] (by decide))
      (.one (hmodifier _ _)))))
    (.one (.phrase .bkrName rfl (takes_bkrName reference hrest))))

theorem isRead_back (caseInsensitive : Bool) (reference : Reference)
    (hrest : Begins endsElement rest)
    (hsource : Holds source pos ((Leaf.back caseInsensitive reference).print ++ rest)) :
    IsRead source pos (.back caseInsensitive reference) rest := by
  cases caseInsensitive with
  | true =>
    have hsource : Holds source pos (['\x5c', '%', 'i'] ++ (reference.print ++ rest)) := hsource
    refine isRead_of_takes .bkrOp (.backReference pos true reference) rfl (by decide)
      (refuses_before (by decide)) (takes_bkrOp .bkrCi reference hrest fun _ _ => ?_)
      (congrArg (fun text => some (Atom.backReference pos text true))
        (hsource.skip.phrase (printable_reference reference))) rfl
    exact .hit (.phrase .bkrCi rfl (.hit (.chars ['i'] (by decide))))
  | false =>
    have hsource : Holds source pos (['\x5c', '%', 's'] ++ (reference.print ++ rest)) := hsource
    refine isRead_of_takes .bkrOp (.backReference pos false reference) rfl (by decide)
      (refuses_before (by decide)) (takes_bkrOp .bkrCs reference hrest fun _ _ => ?_)
      (congrArg (fun text => some (Atom.backReference pos text false))
        (hsource.skip.phrase (printable_reference reference))) rfl
    exact .miss (refuses_of_head (by decide))
      (.hit (.phrase .bkrCs rfl (.hit (.chars ['s'] (by decide)))))

/-- Every leaf is read as it was written. -/
theorem isRead_leaf (leaf : Leaf) (hrest : Begins endsElement rest)
    (hsource : Holds source pos (leaf.print ++ rest)) : IsRead source pos leaf rest := by
  cases leaf with
  | name reference =>
    cases reference with
    | rule name => exact isRead_rule name hrest hsource
    | udt empty name => exact isRead_udt empty name hrest hsource
  | string first more => exact isRead_string first more hrest hsource
  | range min max le => exact isRead_range le hrest hsource
  | quoted text => exact isRead_quoted text hsource
  | caseSensitive text => exact isRead_caseSensitive text hsource
  | begins => exact isRead_begins
  | ends => exact isRead_ends
  | back caseInsensitive reference => exact isRead_back caseInsensitive reference hrest hsource

/-! ## Operators -/

/-- The symbols of operators, in the order in which they are tried. -/
def operatorSymbols : List Symbol :=
  [.bkaOp, .bknOp, .andOp, .notOp, .repOp]

/-- Nothing that begins an element without an operator is taken for an operator. -/
theorem refuses_operators (h : Begins beginsOperand rest) :
    Refuses (.alt (operatorSymbols.map ref)) rest := by
  have hquiet : ∀ t ∈ operatorSymbols, ∀ i : Fin 128, (!beginsOperand (Char.ofNat i) ||
      t.isProperlyQuiet (some (byteOf (Char.ofNat i)))) = true := by
    decide +kernel
  exact .symbols fun t ht =>
    refuses_of_begins (fun _ => beginsElement_of_operand) (hquiet t ht) h

/-- An operator that stands in front of `rest` is taken, and read as it was written. -/
def IsOperatorRead (source : Source) (pos : Nat) (operator : Operator) (rest : List Char) : Prop :=
  ∃ (node : Node) (spelled : Spelled),
    Takes (.alt (operatorSymbols.map ref)) pos operator.print rest [node] ∧
    Atom.operator? source node = some spelled.atom ∧ spelled.token = .operator operator

theorem isOperatorRead_of_takes (s : Symbol) {operator : Operator} (spelled : Spelled)
    (hrecorded : s.isRecorded = true) (hs : s ∈ operatorSymbols)
    (hbefore : ∀ t ∈ operatorSymbols.takeWhile (· != s), Refuses (ref t) (operator.print ++ rest))
    (h : Takes s.properBody pos operator.print rest nodes)
    (hread : Atom.operator? source (.mk s.index pos operator.print.length nodes) =
      some spelled.atom)
    (htoken : spelled.token = .operator operator) : IsOperatorRead source pos operator rest :=
  ⟨_, spelled, .among hs hbefore (.phrase s hrecorded h), hread, htoken⟩

/-- Behind a single operator sign the same sign does not stand again. -/
theorem refuses_doubled {c : Char} (hc : c.toNat < 128) (h : beginsOperand c = false)
    (hrest : Begins beginsOperand rest) : Refuses (chars [c, c]) (c :: rest) := by
  refine .chars (by simpa using hc) ?_
  rw [List.isPrefixOf, hrest.isPrefixOf h [], Bool.and_false]

theorem begins_number (n : UInt32) : Begins isDigit (printNumber n) := by
  cases hn : printNumber n with
  | nil => exact absurd hn (printNumber_ne_nil n)
  | cons c tail =>
    have hc : c ∈ printNumber n := by simp [hn]
    exact begins_cons.2 (isDigit_of_mem_printNumber hc)

theorem refuses_before_number (n : UInt32) (rest : List Char) :
    ∀ t ∈ operatorSymbols.takeWhile (· != .repOp), Refuses (ref t) (printNumber n ++ rest) := by
  have hquiet : ∀ t ∈ operatorSymbols.takeWhile (· != .repOp), ∀ i : Fin 128,
      (!isDigit (Char.ofNat i) || t.isProperlyQuiet (some (byteOf (Char.ofNat i)))) = true := by
    decide +kernel
  exact fun t ht => refuses_of_begins (fun _ => beginsElement_of_digit) (hquiet t ht)
    ((begins_number n).append rest)

theorem not_digit_of_beginsOperand {c : Char} (h : beginsOperand c = true) :
    isDigit c = false := by
  simp only [beginsOperand, beginsLeaf, Bool.or_eq_true, List.contains_iff_mem, List.mem_cons,
    List.not_mem_nil, or_false, isLetter_iff] at h
  rcases h with (h | h) | h
  · rw [← Bool.not_eq_true, isDigit_iff]
    omega
  · rcases h with rfl | rfl | rfl | rfl <;> decide
  · rcases h with rfl | rfl <;> decide

theorem takes_star : Takes (ref .starOp) pos ['*'] rest [] :=
  .ref .starOp rfl (.chars ['*'] (by decide))

theorem takes_repMin (n : UInt32) (h : rest.head? = some '*') : Takes (ref .repMin) pos
    (printNumber n) rest [.mk Symbol.repMin.index pos (printNumber n).length []] := by
  refine .phrase .repMin rfl (takes_repNum n ?_)
  rw [h]
  rintro _ ⟨⟩
  rfl

theorem isOperatorRead_between {min max : UInt32} (le : min ≤ max)
    (hrest : Begins beginsOperand rest)
    (hsource : Holds source pos ((Operator.between min max le).print ++ rest)) :
    IsOperatorRead source pos (.between min max le) rest := by
  have hsource : Holds source pos (printNumber min ++ (['*'] ++ (printNumber max ++ rest))) := by
    simpa [Operator.print] using hsource
  have hend := hrest.not_mem fun c hc => not_digit_of_beginsOperand hc
  have htakes : Takes Symbol.repOp.properBody pos (Operator.between min max le).print rest
      [.mk Symbol.repMin.index pos (printNumber min).length [],
        .mk Symbol.repMax.index (pos + (printNumber min).length + 1)
          (printNumber max).length []] :=
    .hit (Takes.cat (takes_repMin min rfl)
      (Takes.cat takes_star (.one (.phrase .repMax rfl (takes_repNum max hend)))))
  refine isOperatorRead_of_takes .repOp (.between pos le (hsource.writes _ _)
    (hsource.skip.skip.writes _ _)) rfl (by decide) ?_ htakes rfl rfl
  intro t ht
  rw [Operator.print, List.append_assoc]
  exact refuses_before_number min _ t ht

theorem isOperatorRead_atLeast (min : UInt32) (hrest : Begins beginsOperand rest)
    (hsource : Holds source pos ((Operator.atLeast min).print ++ rest)) :
    IsOperatorRead source pos (.atLeast min) rest := by
  have hsource : Holds source pos (printNumber min ++ (['*'] ++ rest)) := by
    simpa [Operator.print] using hsource
  -- A maximum would begin with a digit, and no element begins with one.
  have hmax : Refuses (ref .repMax) rest :=
    .ref (.ref (.oneOrMore (scans_digit.refuses
      (hrest.not_mem fun c hc => not_digit_of_beginsOperand hc))))
  have hbetween : Refuses (.cat [ref .repMin, ref .starOp, ref .repMax])
      (printNumber min ++ (['*'] ++ rest)) :=
    .behind (fun _ => ⟨_, takes_repMin min rfl⟩) (.behind (fun _ => ⟨[], takes_star⟩) (.cat hmax))
  have htakes : Takes Symbol.repOp.properBody pos (Operator.atLeast min).print rest
      [.mk Symbol.repMin.index pos (printNumber min).length []] := by
    refine .miss ?_ (.hit (Takes.cat (takes_repMin min rfl) (.one takes_star)))
    rw [Operator.print, List.append_assoc]
    exact hbetween
  refine isOperatorRead_of_takes .repOp (.atLeast pos (hsource.writes _ _)) rfl (by decide) ?_
    htakes rfl rfl
  intro t ht
  rw [Operator.print, List.append_assoc]
  exact refuses_before_number min _ t ht

/-- An operator in front of an element is read as it was written. -/
theorem isOperatorRead_operator (operator : Operator) (hrest : Begins beginsOperand rest)
    (hsource : Holds source pos (operator.print ++ rest)) :
    IsOperatorRead source pos operator rest := by
  cases operator with
  | between min max le => exact isOperatorRead_between le hrest hsource
  | atLeast min => exact isOperatorRead_atLeast min hrest hsource
  | and =>
    refine isOperatorRead_of_takes .andOp (.plain .and (.operator .and) rfl fun _ => rfl) rfl
      (by decide) ?_ (.chars ['&'] (by decide)) rfl rfl
    refine List.forall_mem_cons.2 ⟨.ref (refuses_doubled (by decide) rfl hrest), ?_⟩
    exact List.forall_mem_singleton.2 (refuses_of_head (by decide))
  | not =>
    refine isOperatorRead_of_takes .notOp (.plain .not (.operator .not) rfl fun _ => rfl) rfl
      (by decide) ?_ (.chars ['!'] (by decide)) rfl rfl
    refine List.forall_mem_cons.2 ⟨refuses_of_head (by decide), ?_⟩
    refine List.forall_mem_cons.2 ⟨.ref (refuses_doubled (by decide) rfl hrest), ?_⟩
    exact List.forall_mem_singleton.2 (refuses_of_head (by decide))
  | lookBehind =>
    exact isOperatorRead_of_takes .bkaOp (.plain .bka (.operator .lookBehind) rfl fun _ => rfl) rfl
      (by decide) (by simp [operatorSymbols]) (.chars ['&', '&'] (by decide)) rfl rfl
  | notLookBehind =>
    exact isOperatorRead_of_takes .bknOp (.plain .bkn (.operator .notLookBehind) rfl fun _ => rfl)
      rfl (by decide) (List.forall_mem_singleton.2 (refuses_of_head (by decide)))
      (.chars ['!', '!'] (by decide)) rfl rfl

end Abnf.Canonical
