import Abnf.Proofs.Translation.Pages

/-!
# Entries

The rules that some lines define, before they are laid out: each has the name of the line that defines
it and the alternatives of all lines of this name, in order. A line either enters a rule or extends
one that is entered, so a translator can build the layouts line by line.

* `entriesOf`: the entries of some lines.
* `rulesOf`: the rules that entries are laid out as.
* `Booked`: the atoms of the entries stand in their places.
-/

namespace Abnf.Translation

open Tables

/-- A rule before it is laid out: its name and its alternatives. -/
structure Entry where
  name : String
  body : List (Expr Atom)

namespace Entry

/-- The form of the name that is compared. -/
def lower (entry : Entry) : String :=
  lowerName entry.name

/-- An entry with more alternatives. -/
def extend (es : List (Expr Atom)) (entry : Entry) : Entry :=
  ⟨entry.name, entry.body ++ es⟩

/-- The opcodes of an entry. -/
def opcodes (f : Atom → Opcode) (entry : Entry) : List Opcode :=
  ((Expr.alt entry.body).map f).layoutFrom 0

end Entry

/-- The rules that entries are laid out as. -/
def rulesOf (f : Atom → Opcode) (entries : List Entry) : List Rule :=
  entries.zipIdx.map fun (entry, i) => ⟨entry.name, i, (entry.opcodes f).toArray⟩

/-- The entries of the lines to which there is no objection. -/
def entriesOf (lines : List Definition) : List Entry :=
  (defining lines).map fun line => ⟨line.name, alternativesOf lines line.lower⟩

variable {f : Atom → Opcode} {entries : List Entry} {entry : Entry} {lines : List Definition}
  {line : Definition} {es : List (Expr Atom)} {placed : List Placed} {r : Nat}

/-! ## Rules -/

theorem getElem?_rulesOf (f : Atom → Opcode) (entries : List Entry) (i : Nat) :
    (rulesOf f entries)[i]? =
      entries[i]?.map fun entry => ⟨entry.name, i, (entry.opcodes f).toArray⟩ := by
  simp [rulesOf, List.getElem?_zipIdx, Function.comp_def]

theorem length_rulesOf : (rulesOf f entries).length = entries.length := by
  simp [rulesOf]

theorem map_lower_rulesOf : (rulesOf f entries).map Rule.lower = entries.map Entry.lower := by
  refine List.ext_getElem? fun i => ?_
  rw [List.getElem?_map, List.getElem?_map, getElem?_rulesOf]
  cases entries[i]? <;> rfl

/-- An entry that gets more alternatives is laid out with them. -/
theorem rulesOf_modify (hentry : entries[r]? = some entry) :
    rulesOf f (entries.modify r (Entry.extend es)) =
      (rulesOf f entries).modify r (Rule.withOpcodes ((entry.extend es).opcodes f)) := by
  refine List.ext_getElem? fun i => ?_
  rw [getElem?_rulesOf, List.getElem?_modify, List.getElem?_modify, getElem?_rulesOf]
  by_cases hi : r = i
  · subst hi
    simp [hentry, Entry.extend, Rule.withOpcodes]
  · simp [hi]

/-- An entry without alternatives is laid out as a rule whose opcodes are still to come. -/
theorem rulesOf_enter (name : String) :
    (rulesOf f (entries ++ [Entry.mk name []])).modify entries.length (Rule.withOpcodes []) =
      rulesOf f entries ++ [⟨name, entries.length, #[]⟩] := by
  have hconcat : rulesOf f (entries ++ [Entry.mk name []]) = rulesOf f entries ++
      [⟨name, entries.length, ((Entry.mk name []).opcodes f).toArray⟩] := by
    simp [rulesOf, List.zipIdx_append]
  rw [hconcat, ← length_rulesOf (f := f), modify_length_append]
  rfl

/-- The opcodes of a rule are those of its entry. -/
theorem rulesOf_modify_opcodes (hentry : entries[r]? = some entry) :
    (rulesOf f entries).modify r (Rule.withOpcodes (entry.opcodes f)) = rulesOf f entries := by
  refine List.ext_getElem? fun i => ?_
  rw [List.getElem?_modify, getElem?_rulesOf]
  by_cases hi : r = i
  · subst hi
    simp [hentry, Rule.withOpcodes]
  · simp [hi]

/-! ## Entries of lines -/

theorem map_lower_entriesOf :
    (entriesOf lines).map Entry.lower = (defining lines).map Definition.lower := by
  rw [entriesOf, List.map_map]
  rfl

theorem alternativesOf_append (lines more : List Definition) (name : String) :
    alternativesOf (lines ++ more) name = alternativesOf lines name ++ alternativesOf more name := by
  simp [alternativesOf]

theorem alternativesOf_singleton_of_ne {name : String} (h : line.lower ≠ name) :
    alternativesOf [line] name = [] := by
  simp [alternativesOf, h]

theorem alternativesOf_singleton : alternativesOf [line] line.lower = line.alternatives := by
  simp [alternativesOf]

/-- A line that defines a new name makes an entry. -/
theorem entriesOf_concat_defined (hsign : line.incremental = false)
    (hnew : line.lower ∉ (defining lines).map Definition.lower)
    (hclosed : ∀ other ∈ lines, other.lower ∈ (defining lines).map Definition.lower) :
    entriesOf (lines ++ [line]) =
      (entriesOf lines ++ [Entry.mk line.name []]).modify (entriesOf lines).length
        (Entry.extend line.alternatives) := by
  have hdefining : defining (lines ++ [line]) = defining lines ++ [line] := by
    simp [defining, hsign]
  have hnone : alternativesOf lines line.lower = [] := by
    refine List.flatMap_eq_nil_iff.2 fun other hother => ?_
    obtain ⟨hmem, hsame⟩ := List.mem_filter.1 hother
    exact absurd (hclosed other hmem) (by rwa [beq_iff_eq.1 hsame])
  rw [modify_length_append, Entry.extend, entriesOf, hdefining, List.map_append, List.map_singleton,
    alternativesOf_append, hnone, alternativesOf_singleton]
  refine congrArg (· ++ _) (List.map_congr_left fun other hother => ?_)
  have hne : line.lower ≠ other.lower := fun hsame =>
    hnew (hsame ▸ List.mem_map_of_mem hother)
  rw [alternativesOf_append, alternativesOf_singleton_of_ne hne, List.append_nil]

/-- A line that extends a name extends its entry. -/
theorem entriesOf_concat_incremental (hsign : line.incremental = true)
    (hnodup : ((defining lines).map Definition.lower).Nodup)
    (hr : ((defining lines).map Definition.lower).idxOf? line.lower = some r) :
    entriesOf (lines ++ [line]) = (entriesOf lines).modify r (Entry.extend line.alternatives) := by
  have hdefining : defining (lines ++ [line]) = defining lines := by
    simp [defining, hsign]
  obtain ⟨hlt, hname, -⟩ := List.idxOf?_eq_some_iff.1 hr
  refine List.ext_getElem? fun i => ?_
  rw [List.getElem?_modify, entriesOf, hdefining, entriesOf, List.getElem?_map, List.getElem?_map]
  cases hother : (defining lines)[i]? with
  | none => simp
  | some other =>
    have hget : ((defining lines).map Definition.lower)[i]? = some other.lower := by
      rw [List.getElem?_map, hother, Option.map_some]
    by_cases hi : r = i
    · subst hi
      have hsame : other.lower = line.lower := by
        rw [← hname]
        exact (List.getElem_eq_iff hlt).2 hget |>.symm
      simp [hsame, Entry.extend, alternativesOf_append, alternativesOf_singleton]
    · have hne : line.lower ≠ other.lower := fun hsame => hi <| by
        obtain ⟨hlt', hget'⟩ := List.getElem?_eq_some_iff.1 hget
        exact (hnodup.getElem_inj_iff).1 (hname.trans (hsame.trans hget'.symm))
      simp [hi, alternativesOf_append, alternativesOf_singleton_of_ne hne]

/-! ## Atoms in their places -/

/-- The atoms of a rule with the places of their opcodes. -/
def placesIn (placed : List Placed) (i : Nat) : List (Nat × Atom) :=
  (placed.filter fun place => place.rule == i).map fun place => (place.opcode, place.atom)

/-- The atoms of each entry stand in their places, and there are no others. -/
structure Booked (entries : List Entry) (placed : List Placed) : Prop where
  places : ∀ (i : Nat) (entry : Entry), entries[i]? = some entry →
    placesIn placed i = (Expr.alt entry.body).placedFrom 0
  below : ∀ place ∈ placed, place.rule < entries.length

theorem placesIn_append (placed more : List Placed) (i : Nat) :
    placesIn (placed ++ more) i = placesIn placed i ++ placesIn more i := by
  simp [placesIn]

theorem placesIn_map (r i : Nat) (places : List (Nat × Atom)) :
    placesIn (places.map fun place => ⟨r, place.1, place.2⟩) i = if r = i then places else [] := by
  by_cases hi : r = i <;> simp [placesIn, List.filter_map, Function.comp_def, hi]

/-- A new entry has no atoms yet. -/
theorem Booked.enter (h : Booked entries placed) (name : String) :
    Booked (entries ++ [Entry.mk name []]) placed := by
  refine ⟨fun i entry hentry => ?_, fun place hplace => ?_⟩
  · rcases Nat.lt_trichotomy i entries.length with hlt | rfl | hgt
    · rw [List.getElem?_append_left hlt] at hentry
      exact h.places i entry hentry
    · rw [List.getElem?_concat_length, Option.some.injEq] at hentry
      subst hentry
      have hnone : placesIn placed entries.length = [] := by
        refine List.map_eq_nil_iff.2 (List.filter_eq_nil_iff.2 fun place hplace hsame => ?_)
        exact Nat.ne_of_lt (h.below place hplace) (beq_iff_eq.1 hsame)
      rw [hnone]
      rfl
    · rw [List.getElem?_eq_none (by rw [List.length_append]; exact hgt)] at hentry
      cases hentry
  · rw [List.length_append]
    exact Nat.lt_add_right _ (h.below place hplace)

/-- The atoms of more alternatives of an entry stand behind the others. -/
theorem Booked.extend (h : Booked entries placed) (hentry : entries[r]? = some entry) :
    Booked (entries.modify r (Entry.extend es)) (placed ++
      (Expr.placedAllFrom (1 + Expr.sizeAll entry.body) es).map fun place =>
        ⟨r, place.1, place.2⟩) := by
  refine ⟨fun i other hother => ?_, fun place hplace => ?_⟩
  · rw [placesIn_append, placesIn_map]
    rw [List.getElem?_modify] at hother
    by_cases hi : r = i
    · subst hi
      rw [hentry] at hother
      simp only [if_true, Option.map_eq_map, Option.map_some, Option.some.injEq] at hother
      subst hother
      rw [if_pos rfl, h.places r entry hentry, Entry.extend, Expr.placedFrom, Expr.placedFrom,
        Expr.placedAllFrom_append, Nat.zero_add]
    · rw [if_neg hi, List.append_nil]
      exact h.places i other (by simpa [hi] using hother)
  · rw [List.length_modify]
    rcases List.mem_append.1 hplace with hplace | hplace
    · exact h.below place hplace
    · obtain ⟨_, -, rfl⟩ := List.mem_map.1 hplace
      exact (List.getElem?_eq_some_iff.1 hentry).1

end Abnf.Translation
