import Abnf.Proofs.Reduction
import Abnf.Tables

/-!
# Tables are well formed

What holds of the tables that definition lines without flaws stand for, before and after
reduction: rules stand where their index says, their names differ, their opcodes are trees, and
every opcode fits the tables.

* `ofDefinitions_of_consistent`: the tables of lines to none of which there is an objection.
* `tabled_ofDefinitions`: flawless definition lines stand for well-formed tables.
* `Tabled.reduce`: reduction ends on well-formed tables and keeps them so.
-/

namespace Abnf

/-! ## Well-formed tables -/

/-- Whether an opcode refers to entries of the tables only, agrees with the terminal that it
names, and has characters and bounds that can match. -/
def Opcode.Fits (ruleCount : Nat) (udts : Array Udt) : Opcode → Prop
  | .rnm rule => rule < ruleCount
  | .udt index empty => ∃ udt, udts[index]? = some udt ∧ udt.empty = empty
  | .bkr index toUdt _ => index < if toUdt then udts.size else ruleCount
  | .rep min max => ∀ m, max = some m → min ≤ m
  | .trg min max => min ≤ max
  | .tbs chars => chars ≠ []
  | _ => True

/-- What makes a rule table and a table of user-defined terminals well formed. -/
structure WellFormed (rules : Array Rule) (udts : Array Udt) : Prop where
  index : ∀ (i : Nat) rule, rules[i]? = some rule → rule.index = i
  names : (rules.toList.map Rule.lower).Nodup
  wired : ∀ rule ∈ rules, Opcodes.Wired rule.opcodes
  fits : ∀ rule ∈ rules, ∀ op ∈ rule.opcodes, op.Fits rules.size udts

/-- Tables whose rules are the layouts of valid expressions. -/
structure Tabled (rules : Array Rule) (udts : Array Udt) : Prop where
  index : ∀ (i : Nat) rule, rules[i]? = some rule → rule.index = i
  names : (rules.toList.map Rule.lower).Nodup
  body : ∀ rule ∈ rules, ∃ e : Expr Opcode, rule.opcodes = e.layout ∧ e.isValid = true ∧
    ∀ op ∈ e.atoms, op.Fits rules.size udts

namespace Tabled

variable {rules : Array Rule} {udts : Array Udt}

theorem wellFormed (h : Tabled rules udts) : WellFormed rules udts := by
  refine ⟨h.index, h.names, ?_, ?_⟩
  · intro rule hrule
    obtain ⟨e, heq, hv, -⟩ := h.body rule hrule
    rw [heq]
    exact Expr.wired_layout hv
  · intro rule hrule op hop
    obtain ⟨e, heq, hv, hfits⟩ := h.body rule hrule
    rw [heq] at hop
    rcases Expr.mem_layoutFrom hv (List.mem_toArray.1 hop) with ⟨hatom, -⟩ | ⟨hbranch, -⟩
    · exact hfits op hatom
    · cases op with
      | alt | cat => trivial
      | _ => cases hbranch

/-- Reduction ends on well-formed tables. It changes opcodes only, and keeps the tables well
formed. -/
theorem reduce (h : Tabled rules udts) :
    ∃ reduced, Reduction.reduce rules = .ok reduced ∧ Tabled reduced udts := by
  have hrule : ∀ rule ∈ rules.toList, ∃ reduced, Reduction.reduceRule rule = .ok reduced ∧
      reduced.name = rule.name ∧ reduced.index = rule.index ∧
      ∃ e : Expr Opcode, reduced.opcodes = e.layout ∧ e.isValid = true ∧
        ∀ op ∈ e.atoms, op.Fits rules.size udts := by
    intro rule hrule
    obtain ⟨e, heq, hv, hfits⟩ := h.body rule (Array.mem_toList_iff.1 hrule)
    refine ⟨{ rule with opcodes := e.simplify.layout }, ?_, rfl, rfl, e.simplify, rfl,
      Expr.isValid_simplify hv, fun op hop => hfits op (Expr.mem_atoms_simplify hop)⟩
    simp only [Reduction.reduceRule, heq, Reduction.reduceOpcodes_layout hv, bind, Except.bind]
    rfl
  choose! reduced heq hname hindex hbody using hrule
  have hsize : (rules.map reduced).size = rules.size := Array.size_map
  refine ⟨rules.map reduced, ?_, ?_, ?_, ?_⟩
  · rw [Reduction.reduce, Array.mapM_eq_mapM_toList, mapM_eq_ok heq,
      ← Array.toList_map]
    rfl
  · intro i rule hi
    rw [Array.getElem?_map] at hi
    obtain ⟨old, hold, rfl⟩ := Option.map_eq_some_iff.1 hi
    rw [hindex old (Array.mem_toList_iff.2 (Array.mem_of_getElem? hold)), h.index i old hold]
  · have hnames : (rules.map reduced).toList.map Rule.lower = rules.toList.map Rule.lower := by
      rw [Array.toList_map, List.map_map]
      refine List.map_congr_left fun rule hrule => ?_
      simp [Rule.lower, hname rule hrule]
    rw [hnames]
    exact h.names
  · intro rule hrule
    obtain ⟨old, hold, rfl⟩ := Array.mem_map.1 hrule
    rw [hsize]
    exact hbody old (Array.mem_toList_iff.2 hold)

end Tabled

/-! ## Sound expressions -/

namespace Atom

/-- What is known of an atom that was read from a text: it carries no reference but by name, a
literal has characters, and the name of a user-defined terminal tells whether it may be empty. -/
def Sound : Atom → Prop
  | plain op => ∀ ruleCount udts, op.Fits ruleCount udts
  | udtName name empty => name.toList.head? = some (if empty then 'e' else 'u')
  | string chars => chars ≠ []
  | _ => True

end Atom

namespace Expr

variable {α β γ : Type}

theorem mapAll_eq_map (f : α → β) (es : List (Expr α)) : mapAll f es = es.map (map f) := by
  induction es with
  | nil => rfl
  | cons e es ih => rw [mapAll, ih, List.map_cons]

theorem map_map (f : α → β) (g : β → γ) (e : Expr α) :
    (e.map f).map g = e.map fun a => g (f a) := by
  induction e using Expr.induction with
  | atom a => rfl
  | alt es ih | cat es ih =>
    simp only [map, mapAll_eq_map, List.map_map]
    exact congrArg _ (List.map_congr_left ih)
  | under a e ih => rw [map, map, map, ih]

theorem map_congr {f g : α → β} {e : Expr α} (h : ∀ a ∈ e.atoms, f a = g a) :
    e.map f = e.map g := by
  induction e using Expr.induction with
  | atom a => rw [map, map, h a (by simp [atoms])]
  | alt es ih | cat es ih =>
    simp only [map, mapAll_eq_map]
    refine congrArg _ (List.map_congr_left fun e he => ih e he fun a ha => h a ?_)
    exact mem_atomsAll.2 ⟨e, he, ha⟩
  | under a e ih =>
    rw [map, map, h a (by simp [atoms]), ih fun b hb => h b (by simp [atoms, hb])]

mutual

theorem atoms_map (f : α → β) : (e : Expr α) → (e.map f).atoms = e.atoms.map f
  | atom a => rfl
  | alt es => atomsAll_mapAll f es
  | cat es => atomsAll_mapAll f es
  | under a e => by rw [map, atoms, atoms, atoms_map f e, List.map_cons]

theorem atomsAll_mapAll (f : α → β) :
    (es : List (Expr α)) → atomsAll (mapAll f es) = (atomsAll es).map f
  | [] => rfl
  | e :: es => by
    rw [mapAll, atomsAll, atomsAll, atoms_map f e, atomsAll_mapAll f es, List.map_append]

end

theorem mem_atoms_map {f : α → β} {b : β} {e : Expr α} :
    b ∈ (e.map f).atoms ↔ ∃ a ∈ e.atoms, f a = b := by
  rw [atoms_map, List.mem_map]

/-- Whether an expression stands for a valid expression, whatever its names stand for, and has
sound atoms only. -/
def Sound (e : Expr Atom) : Prop :=
  (∀ names, (e.map (Atom.resolve names)).isValid = true) ∧ ∀ a ∈ e.atoms, a.Sound

theorem Sound.atom {a : Atom} (hleaf : ∀ names, (a.resolve names).isLeaf = true) (ha : a.Sound) :
    Sound (.atom a) := by
  refine ⟨hleaf, fun b hb => ?_⟩
  rw [atoms, List.mem_singleton] at hb
  exact hb ▸ ha

theorem Sound.under {a : Atom} {e : Expr Atom}
    (hgoverns : ∀ names, (a.resolve names).governsNext = true) (ha : a.Sound) (he : Sound e) :
    Sound (.under a e) := by
  refine ⟨fun names => ?_, fun b hb => ?_⟩
  · simp [map, isValid, hgoverns, he.1]
  · rcases List.mem_cons.1 hb with rfl | hb
    · exact ha
    · exact he.2 b hb

theorem Sound.branch {es : List (Expr Atom)} (hne : es ≠ []) (h : ∀ e ∈ es, Sound e) :
    Sound (.alt es) ∧ Sound (.cat es) := by
  have hvalid : ∀ names, (!(mapAll (Atom.resolve names) es).isEmpty &&
      allValid (mapAll (Atom.resolve names) es)) = true := by
    intro names
    simp only [mapAll_eq_map, List.isEmpty_map, Bool.and_eq_true, Bool.not_eq_true',
      List.isEmpty_eq_false_iff, allValid_iff, List.mem_map]
    refine ⟨hne, ?_⟩
    rintro _ ⟨e, he, rfl⟩
    exact (h e he).1 names
  have hatoms : ∀ a ∈ atomsAll es, a.Sound := by
    intro a ha
    obtain ⟨e, he, ha⟩ := mem_atomsAll.1 ha
    exact (h e he).2 a ha
  exact ⟨⟨hvalid, hatoms⟩, ⟨hvalid, hatoms⟩⟩

end Expr

/-- Whether a definition line has sound alternatives. -/
structure Definition.Sound (definition : Definition) : Prop where
  nonempty : definition.alternatives ≠ []
  alternatives : ∀ e ∈ definition.alternatives, e.Sound

/-! ## Lines without objections -/

namespace Tables

/-- Definition lines to none of which there is an objection, when the names in `known` are
defined before them. -/
def Consistent (known : List String) (definitions : List Definition) : Prop :=
  ∀ line ∈ Definition.review known definitions, line.2 = none

/-- The lines that define a name, not those that extend one. -/
def defining (definitions : List Definition) : List Definition :=
  definitions.filter fun line => !line.incremental

/-- The user-defined terminals that definition lines name, each once. -/
def udtsOf (definitions : List Definition) : List (String × Bool) :=
  firstByKey (fun udt => lowerName udt.1) []
    ((definitions.flatMap Definition.atoms).filterMap Atom.udt?)

/-- What the names in definition lines stand for. -/
def namesOf (definitions : List Definition) : Names :=
  ⟨(defining definitions).map Definition.lower,
    (udtsOf definitions).map fun udt => lowerName udt.1⟩

/-- The alternatives of all lines of a name. -/
def alternativesOf (definitions : List Definition) (name : String) : List (Expr Atom) :=
  (definitions.filter fun other => other.lower == name).flatMap Definition.alternatives

/-- The expression of the rule that a line defines. -/
def bodyOf (definitions : List Definition) (line : Definition) : Expr Opcode :=
  (Expr.alt (alternativesOf definitions line.lower)).map (Atom.resolve (namesOf definitions))

/-- The flaws of a line by itself: the objection to it or else the flaws of its atoms. -/
def lineFlaws (line : Definition × Option MeaningFlaw) : List (Nat × MeaningFlaw) :=
  match line.2 with
  | some flaw => [(line.1.offset, flaw)]
  | none => line.1.atoms.flatMap Atom.localFlaws

theorem review_map_fst (known : List String) (definitions : List Definition) :
    (Definition.review known definitions).map Prod.fst = definitions := by
  induction definitions generalizing known with
  | nil => rfl
  | cons line rest ih => rw [Definition.review, List.map_cons, ih]

/-- The tables of lines to none of which there is an objection. -/
theorem ofDefinitions_of_consistent {definitions : List Definition}
    (h : Consistent [] definitions) :
    ofDefinitions definitions =
      ⟨((defining definitions).zipIdx.map fun (line, index) =>
          (⟨line.name, index, (bodyOf definitions line).layout⟩ : Rule)).toArray,
        ((udtsOf definitions).zipIdx.map fun (udt, index) =>
          (⟨udt.1, index, udt.2⟩ : Udt)).toArray,
        (definitions.flatMap Definition.atoms).flatMap Atom.localFlaws ++
          (definitions.flatMap Definition.atoms).filterMap
            (Atom.referenceFlaw? (namesOf definitions))⟩ := by
  have hcontributing : ((Definition.review [] definitions).filter fun line =>
      line.2.isNone).map Prod.fst = definitions := by
    rw [List.filter_eq_self.2 fun line hline => by simp [h line hline], review_map_fst]
  have hlocal : (Definition.review [] definitions).flatMap lineFlaws =
      (definitions.flatMap Definition.atoms).flatMap Atom.localFlaws := by
    rw [List.flatMap_assoc]
    conv_rhs => rw [← review_map_fst [] definitions, List.flatMap_map]
    refine List.flatMap_congr fun line hline => ?_
    rw [lineFlaws, h line hline]
  refine Eq.trans ?_ (congrArg (fun flaws => Tables.mk _ _ (flaws ++ _)) hlocal)
  simp only [ofDefinitions, hcontributing]
  rfl

theorem consistent_of_flaws {definitions : List Definition}
    (h : (ofDefinitions definitions).flaws = []) : Consistent [] definitions := by
  have hlocal : (Definition.review [] definitions).flatMap lineFlaws = [] :=
    (List.append_eq_nil_iff.1 h).1
  rintro ⟨line, objection⟩ hline
  have hnone := List.flatMap_eq_nil_iff.1 hlocal _ hline
  cases objection with
  | none => rfl
  | some flaw => simp [lineFlaws] at hnone

theorem consistent_cons_iff {known : List String} {line : Definition} {rest : List Definition} :
    Consistent known (line :: rest) ↔ line.objection? known = none ∧
      Consistent (if line.incremental then known else known ++ [line.lower]) rest := by
  rw [Consistent, Definition.review, List.forall_mem_cons]
  refine and_congr_right fun h => ?_
  replace h : line.objection? known = none := h
  cases hincremental : line.incremental <;> simp [h, Consistent]

/-- Lines without objections define names that differ from each other and from those known. -/
theorem nodup_defining {known : List String} {definitions : List Definition}
    (h : Consistent known definitions) :
    ((defining definitions).map Definition.lower).Nodup ∧
      ∀ name ∈ (defining definitions).map Definition.lower, name ∉ known := by
  induction definitions generalizing known with
  | nil => simp [defining]
  | cons line rest ih =>
    obtain ⟨hobjection, hrest⟩ := consistent_cons_iff.1 h
    cases hincremental : line.incremental with
    | true =>
      rw [hincremental] at hrest
      have hdefining : defining (line :: rest) = defining rest := by
        simp [defining, hincremental]
      rw [hdefining]
      exact ih hrest
    | false =>
      rw [hincremental] at hrest
      obtain ⟨hnodup, hfresh⟩ := ih hrest
      have hunknown : line.lower ∉ known := by
        intro hmem
        simp [Definition.objection?, hincremental, hmem] at hobjection
      have hdefining : (defining (line :: rest)).map Definition.lower =
          line.lower :: (defining rest).map Definition.lower := by
        simp [defining, hincremental]
      rw [hdefining]
      refine ⟨List.nodup_cons.2 ⟨fun hmem => ?_, hnodup⟩, ?_⟩
      · exact hfresh _ hmem (by simp)
      · refine List.forall_mem_cons.2 ⟨hunknown, fun name hname hmem => ?_⟩
        exact hfresh name hname (by simp [hmem])

/-! ## First occurrences -/

section

variable {α : Type} {key : α → String} {seen : List String} {as : List α} {a : α}

theorem mem_of_mem_firstByKey (h : a ∈ firstByKey key seen as) : a ∈ as := by
  induction as generalizing seen with
  | nil => simp [firstByKey] at h
  | cons b as ih =>
    rw [firstByKey] at h
    split at h
    · exact List.mem_cons_of_mem _ (ih h)
    · rcases List.mem_cons.1 h with rfl | h
      · simp
      · exact List.mem_cons_of_mem _ (ih h)

theorem key_mem_firstByKey (h : a ∈ as) :
    key a ∈ seen ∨ key a ∈ (firstByKey key seen as).map key := by
  induction as generalizing seen with
  | nil => simp at h
  | cons b as ih =>
    rw [firstByKey]
    split
    · rename_i hseen
      rcases List.mem_cons.1 h with rfl | h
      · exact Or.inl (by simpa using hseen)
      · exact ih h
    · rw [List.map_cons, List.mem_cons]
      rcases List.mem_cons.1 h with rfl | h
      · exact Or.inr (Or.inl rfl)
      · rcases ih h with h | h
        · exact (List.mem_cons.1 h).symm.imp_right Or.inl
        · exact Or.inr (Or.inr h)

end

/-! ## Flawless lines -/

theorem head?_lowerName (name : String) :
    (lowerName name).toList.head? = name.toList.head?.map Char.toLower := by
  simp [lowerName]

/-- Names that are the same tell the same about the terminal. -/
theorem empty_eq_of_lowerName {name name' : String} {empty empty' : Bool}
    (h : (Atom.udtName name empty).Sound) (h' : (Atom.udtName name' empty').Sound)
    (hname : lowerName name = lowerName name') : empty = empty' := by
  have hhead := head?_lowerName name
  rw [hname, head?_lowerName, h, h'] at hhead
  revert hhead
  cases empty <;> cases empty' <;> decide

variable {definitions : List Definition}

theorem sound_of_mem_atoms (h : ∀ line ∈ definitions, line.Sound) :
    ∀ a ∈ definitions.flatMap Definition.atoms, a.Sound := by
  intro a ha
  obtain ⟨line, hline, ha⟩ := List.mem_flatMap.1 ha
  obtain ⟨e, he, ha⟩ := Expr.mem_atomsAll.1 ha
  exact ((h line hline).alternatives e he).2 a ha

theorem mem_alternativesOf {name : String} {e : Expr Atom} :
    e ∈ alternativesOf definitions name ↔
      ∃ line, (line ∈ definitions ∧ line.lower = name) ∧ e ∈ line.alternatives := by
  simp [alternativesOf]

theorem sound_alternativesOf (h : ∀ line ∈ definitions, line.Sound) {line : Definition}
    (hline : line ∈ definitions) : (Expr.alt (alternativesOf definitions line.lower)).Sound := by
  refine (Expr.Sound.branch ?_ ?_).1
  · obtain ⟨e, he⟩ := List.exists_mem_of_ne_nil _ (h line hline).nonempty
    exact List.ne_nil_of_mem (mem_alternativesOf.2 ⟨line, ⟨hline, rfl⟩, he⟩)
  · intro e he
    obtain ⟨other, hother, he⟩ := mem_alternativesOf.1 he
    exact (h other hother.1).alternatives e he

/-- A terminal that a line names is in the table of terminals. -/
theorem udt_resolves (h : ∀ line ∈ definitions, line.Sound) {name : String} {empty : Bool}
    (ha : .udtName name empty ∈ definitions.flatMap Definition.atoms) :
    ∃ i name', (namesOf definitions).udt? name = some i ∧
      (udtsOf definitions)[i]? = some (name', empty) := by
  have hudt : (name, empty) ∈ (definitions.flatMap Definition.atoms).filterMap Atom.udt? :=
    List.mem_filterMap.2 ⟨_, ha, rfl⟩
  have hmem : lowerName name ∈ (udtsOf definitions).map fun udt => lowerName udt.1 :=
    (key_mem_firstByKey hudt).resolve_left (by simp)
  obtain ⟨i, hi⟩ := Option.isSome_iff_exists.1 (List.isSome_idxOf?.2 hmem)
  obtain ⟨hlt, hname, -⟩ := List.idxOf?_eq_some_iff.1 hi
  rw [List.length_map] at hlt
  rw [List.getElem_map] at hname
  have hget : (udtsOf definitions)[i]? = some (udtsOf definitions)[i] := List.getElem?_eq_getElem hlt
  refine ⟨i, (udtsOf definitions)[i].1, hi, hget.trans ?_⟩
  -- The entry was named by some atom, with a name that is the same.
  obtain ⟨a, ha', hentry⟩ :=
    List.mem_filterMap.1 (mem_of_mem_firstByKey (List.mem_of_getElem? hget))
  cases a with
  | udtName name' empty' =>
    rw [Atom.udt?, Option.some.injEq] at hentry
    rw [← hentry] at hname ⊢
    have hsound := sound_of_mem_atoms h
    rw [empty_eq_of_lowerName (hsound _ ha) (hsound _ ha') hname.symm]
  | _ => cases hentry

/-- The opcode of an atom without flaws fits the tables. -/
theorem fits_resolve (h : ∀ line ∈ definitions, line.Sound) {a : Atom}
    (ha : a ∈ definitions.flatMap Definition.atoms) (hlocal : a.localFlaws = [])
    (hreference : a.referenceFlaw? (namesOf definitions) = none) :
    (a.resolve (namesOf definitions)).Fits (defining definitions).length
      ((udtsOf definitions).zipIdx.map fun (udt, index) =>
        (⟨udt.1, index, udt.2⟩ : Udt)).toArray := by
  have hsound := sound_of_mem_atoms h a ha
  have hbounds : a.boundsFlaw? = none := by
    simpa using (List.append_eq_nil_iff.1 hlocal).2
  have hrule : ∀ {name : String} {i : Nat}, (namesOf definitions).rule? name = some i →
      i < (defining definitions).length := by
    intro name i hi
    simpa [namesOf] using (List.idxOf?_eq_some_iff.1 hi).1
  -- A name resolves because it has no flaw of reference, and bounds are in order because the atom
  -- has no flaw of its own.
  cases a with
  | plain op => exact hsound _ _
  | ruleName offset name =>
    cases hname : (namesOf definitions).rule? name with
    | none => simp [Atom.referenceFlaw?, hname] at hreference
    | some i =>
      rw [Atom.resolve, hname]
      exact hrule hname
  | udtName name empty =>
    obtain ⟨i, name', hname, hget⟩ := udt_resolves h ha
    rw [Atom.resolve, hname]
    exact ⟨⟨name', i, empty⟩, by simp [List.getElem?_zipIdx, hget], rfl⟩
  | backReference offset name caseInsensitive =>
    rw [Atom.resolve]
    cases hudt : (namesOf definitions).udt? name with
    | some i =>
      simpa [Opcode.Fits, namesOf] using (List.idxOf?_eq_some_iff.1 hudt).1
    | none =>
      cases hname : (namesOf definitions).rule? name with
      | none => simp [Atom.referenceFlaw?, hudt, hname] at hreference
      | some i => exact hrule hname
  | repetition offset min max =>
    intro m hm
    obtain ⟨max, rfl, rfl⟩ := Option.map_eq_some_iff.1 hm
    simpa [Atom.boundsFlaw?] using hbounds
  | exactly count =>
    intro m hm
    cases hm
    exact UInt32.le_refl _
  | string chars => simpa [Atom.resolve, Opcode.Fits, Atom.Sound] using hsound
  | range offset min max => simpa [Atom.resolve, Opcode.Fits, Atom.boundsFlaw?] using hbounds

/-- Flawless definition lines stand for well-formed tables. -/
theorem tabled_ofDefinitions (h : ∀ line ∈ definitions, line.Sound)
    (hflaws : (ofDefinitions definitions).flaws = []) :
    Tabled (ofDefinitions definitions).rules (ofDefinitions definitions).udts := by
  have hconsistent := consistent_of_flaws hflaws
  rw [ofDefinitions_of_consistent hconsistent] at hflaws ⊢
  obtain ⟨hlocal, hreference⟩ := List.append_eq_nil_iff.1 hflaws
  refine ⟨?_, ?_, ?_⟩
  · intro i rule hi
    simp only [List.getElem?_toArray, List.getElem?_map, List.getElem?_zipIdx,
      Option.map_eq_some_iff] at hi
    obtain ⟨_, ⟨line, -, rfl⟩, rfl⟩ := hi
    simp
  · have hnames := (nodup_defining hconsistent).1
    have hlower : ∀ line : Definition × Nat, Rule.lower ⟨line.1.name, line.2,
        (bodyOf definitions line.1).layout⟩ = line.1.lower := fun _ => rfl
    rw [← List.zipIdx_map_fst 0 (defining definitions), List.map_map] at hnames
    simpa only [List.map_map, Function.comp_def, hlower] using hnames
  · intro rule hrule
    simp only [List.mem_toArray, List.mem_map] at hrule
    obtain ⟨⟨line, i⟩, hline, rfl⟩ := hrule
    have hline : line ∈ definitions :=
      (List.mem_filter.1 (List.fst_mem_of_mem_zipIdx hline)).1
    refine ⟨bodyOf definitions line, rfl, ?_, ?_⟩
    · exact (sound_alternativesOf h hline).1 (namesOf definitions)
    · intro op hop
      obtain ⟨a, ha, rfl⟩ := Expr.mem_atoms_map.1 hop
      have ha : a ∈ definitions.flatMap Definition.atoms := by
        obtain ⟨e, he, ha⟩ := Expr.mem_atomsAll.1 ha
        obtain ⟨other, hother, he⟩ := mem_alternativesOf.1 he
        exact List.mem_flatMap.2 ⟨other, hother.1, Expr.mem_atomsAll.2 ⟨e, he, ha⟩⟩
      have hsize : ((defining definitions).zipIdx.map fun line =>
          (⟨line.1.name, line.2, (bodyOf definitions line.1).layout⟩ : Rule)).toArray.size =
          (defining definitions).length := by
        simp
      rw [hsize]
      exact fits_resolve h ha (List.flatMap_eq_nil_iff.1 hlocal a ha)
        (List.filterMap_eq_nil_iff.1 hreference a ha)

end Tables

end Abnf
