import Abnf.Proofs.Canonical.Text
import Abnf.Proofs.Metagrammar.Reading

/-!
# Scanning canonical texts

What an expression of the metagrammar takes from the front of a text, by the operators that it is
built with. Nothing but the text that follows decides where a loop ends, so every statement is
about some text with any rest behind it.

* `Takes`, `Refuses`: an expression takes a text, or nothing at all.
* `Scans`: an expression takes one character of a class.
-/

namespace Abnf.Canonical

open Engine Metagrammar

/-- `e`, at `pos` and without error alternatives, takes `text` from the front of `text ++ rest` and
leaves `nodes`. -/
def Takes (e : Expr Opcode) (pos : Nat) (text rest : List Char) (nodes : List Node) : Prop :=
  ProperMatch e pos (encode (text ++ rest)) text.length nodes

/-- `e` takes nothing from the front of `rest`, at any position. -/
def Refuses (e : Expr Opcode) (rest : List Char) : Prop :=
  ∀ pos, ProperFail e pos (encode rest)

variable {e : Expr Opcode} {es seps : List (Expr Opcode)} {s : Symbol} {pos : Nat}
  {c : Char} {text text₁ text₂ rest : List Char} {nodes nodes₁ nodes₂ : List Node}

theorem drop_encode (text rest : List Char) :
    (encode (text ++ rest)).drop text.length = encode rest := by
  rw [encode_append]
  exact List.drop_left' (length_encode text)

/-! ## References -/

theorem Takes.ref (s : Symbol) (hs : s.isRecorded = false)
    (h : Takes s.properBody pos text rest nodes) : Takes (ref s) pos text rest nodes :=
  (properMatch_unrecorded_iff hs).2 h

/-- A symbol that is recorded leaves its phrase. -/
theorem Takes.phrase (s : Symbol) (hs : s.isRecorded = true)
    (h : Takes s.properBody pos text rest nodes) :
    Takes (Metagrammar.ref s) pos text rest [.mk s.index pos text.length nodes] :=
  (properMatch_recorded_iff hs).2 ⟨nodes, h, rfl⟩

theorem Refuses.ref (h : Refuses s.properBody rest) : Refuses (ref s) rest :=
  fun pos => (fails_rule_iff (properScheme_body s)).2 ⟨trivial, trivial, h pos⟩

/-- A symbol takes nothing if it cannot begin with the next character. -/
theorem Refuses.of_quiet (hs : s.isProperlyQuiet (rest.head?.map byteOf) = true) :
    Refuses (Metagrammar.ref s) rest := by
  intro pos
  refine properFail_of_quiet ?_
  rwa [encode, List.head?_map]

/-! ## Choice -/

theorem Takes.hit (h : Takes e pos text rest nodes) : Takes (.alt (e :: es)) pos text rest nodes :=
  matches_alt_cons_iff.2 (Or.inl h)

theorem Takes.miss (he : Refuses e (text ++ rest)) (h : Takes (.alt es) pos text rest nodes) :
    Takes (.alt (e :: es)) pos text rest nodes :=
  matches_alt_cons_iff.2 (Or.inr ⟨he pos, h⟩)

/-- A choice between symbols takes what one of them takes, if those before it take nothing. -/
theorem Takes.among {symbols : List Symbol} (hs : s ∈ symbols)
    (hbefore : ∀ t ∈ symbols.takeWhile (· != s), Refuses (Metagrammar.ref t) (text ++ rest))
    (h : Takes (Metagrammar.ref s) pos text rest nodes) :
    Takes (.alt (symbols.map Metagrammar.ref)) pos text rest nodes := by
  induction symbols with
  | nil => cases hs
  | cons t symbols ih =>
    by_cases heq : t = s
    · subst heq
      exact .hit h
    · have hne : (t != s) = true := bne_iff_ne.2 heq
      rw [List.takeWhile_cons, if_pos hne, List.forall_mem_cons] at hbefore
      exact .miss hbefore.1 (ih ((List.mem_cons.1 hs).resolve_left (Ne.symm heq)) hbefore.2)

theorem Refuses.nil : Refuses (.alt []) rest :=
  fun _ => fails_alt_nil

theorem Refuses.alt (he : Refuses e rest) (hes : Refuses (.alt es) rest) :
    Refuses (.alt (e :: es)) rest :=
  fun pos => fails_alt_cons_iff.2 ⟨he pos, hes pos⟩

theorem Refuses.symbols {symbols : List Symbol}
    (h : ∀ t ∈ symbols, Refuses (Metagrammar.ref t) rest) :
    Refuses (.alt (symbols.map Metagrammar.ref)) rest := by
  induction symbols with
  | nil => exact .nil
  | cons t symbols ih =>
    obtain ⟨ht, hsymbols⟩ := List.forall_mem_cons.1 h
    exact .alt ht (ih hsymbols)

/-! ## Sequence -/

theorem Takes.one (h : Takes e pos text rest nodes) : Takes (.cat [e]) pos text rest nodes :=
  matches_cat_singleton_iff.2 h

theorem Takes.cat (h₁ : Takes e pos text₁ (text₂ ++ rest) nodes₁)
    (h₂ : Takes (.cat es) (pos + text₁.length) text₂ rest nodes₂) :
    Takes (.cat (e :: es)) pos (text₁ ++ text₂) rest (nodes₁ ++ nodes₂) := by
  refine matches_cat_cons_iff.2 ⟨_, nodes₁, _, nodes₂, ?_, ?_, List.length_append, rfl⟩
  · rw [List.append_assoc]
    exact h₁
  · rw [List.append_assoc, drop_encode]
    exact h₂

theorem Refuses.cat (h : Refuses e rest) : Refuses (.cat (e :: es)) rest :=
  fun pos => fails_cat_cons_iff.2 (Or.inl (h pos))

/-- A sequence takes nothing if what follows its first part is refused. -/
theorem Refuses.behind (he : ∀ pos, ∃ nodes, Takes e pos text rest nodes)
    (h : Refuses (.cat es) rest) : Refuses (.cat (e :: es)) (text ++ rest) := by
  intro pos
  obtain ⟨nodes, htakes⟩ := he pos
  refine fails_cat_cons_iff.2 (Or.inr ⟨_, nodes, htakes, ?_⟩)
  rw [drop_encode]
  exact h _

/-! ## Repetition -/

theorem Takes.none (h : Refuses e rest) : Takes (many e) pos [] rest [] :=
  Matches.many_done (h pos)

/-- A repetition goes on behind a text that one iteration takes. -/
theorem exists_iteration (hne : text₁ ≠ []) (h₁ : Takes e pos text₁ (text₂ ++ rest) nodes₁)
    (h₂ : Takes (many e) (pos + text₁.length) text₂ rest nodes₂) :
    ∃ m nodes₁' n₂ nodes₂', ProperMatch e pos (encode (text₁ ++ text₂ ++ rest)) (m + 1) nodes₁' ∧
      ProperMatch (many e) (pos + (m + 1)) ((encode (text₁ ++ text₂ ++ rest)).drop (m + 1)) n₂
        nodes₂' ∧
      (text₁ ++ text₂).length = m + 1 + n₂ ∧ nodes₁ ++ nodes₂ = nodes₁' ++ nodes₂' := by
  obtain ⟨m, hm⟩ : ∃ m, text₁.length = m + 1 :=
    Nat.exists_eq_succ_of_ne_zero (by simpa using hne)
  refine ⟨m, nodes₁, text₂.length, nodes₂, ?_, ?_, by rw [List.length_append, hm], rfl⟩
  · rw [List.append_assoc, ← hm]
    exact h₁
  · rw [List.append_assoc, ← hm, drop_encode]
    exact h₂

theorem Takes.more (hne : text₁ ≠ []) (h₁ : Takes e pos text₁ (text₂ ++ rest) nodes₁)
    (h₂ : Takes (many e) (pos + text₁.length) text₂ rest nodes₂) :
    Takes (many e) pos (text₁ ++ text₂) rest (nodes₁ ++ nodes₂) :=
  matches_many_iff.2 (Or.inr (Or.inr (exists_iteration hne h₁ h₂)))

theorem Takes.oneOrMore (hne : text₁ ≠ []) (h₁ : Takes e pos text₁ (text₂ ++ rest) nodes₁)
    (h₂ : Takes (many e) (pos + text₁.length) text₂ rest nodes₂) :
    Takes (oneOrMore e) pos (text₁ ++ text₂) rest (nodes₁ ++ nodes₂) :=
  matches_oneOrMore_iff.2 (Or.inr (exists_iteration hne h₁ h₂))

theorem Refuses.oneOrMore (h : Refuses e rest) : Refuses (oneOrMore e) rest :=
  fun pos => fails_oneOrMore_iff.2 (h pos)

theorem Takes.missing (h : Refuses e rest) : Takes (optional e) pos [] rest [] :=
  matches_optional_iff.2 (Or.inl ⟨rfl, rfl, h pos⟩)

theorem Takes.present (h : Takes e pos text rest nodes) :
    Takes (optional e) pos text rest nodes :=
  matches_optional_iff.2 (Or.inr h)

/-- Items with separators between them go on with a separator and such items. -/
theorem Takes.separated (hne : text₁ ≠ [])
    (hsep : Takes (.cat seps) pos text₁ (text₂ ++ rest) [])
    (h : Takes (.cat [e, many (.cat (seps ++ [e]))]) (pos + text₁.length) text₂ rest nodes) :
    Takes (many (.cat (seps ++ [e]))) pos (text₁ ++ text₂) rest nodes := by
  obtain ⟨n₁, nodes₁, n₂, nodes₂, hfirst, hmore, hlength, rfl⟩ := matches_cat_cons_iff.1 h
  have hpos : 0 < text₁.length := List.length_pos_iff.2 hne
  obtain ⟨m, hm⟩ : ∃ m, text₁.length + n₁ = m + 1 :=
    Nat.exists_eq_succ_of_ne_zero (by omega)
  -- The first item of `text₂` joins the separator in front of it to one iteration.
  rw [← drop_encode text₁] at hfirst hmore
  rw [Takes, List.append_assoc]
  refine matches_many_iff.2 (Or.inr (Or.inr ⟨m, nodes₁, n₂, nodes₂, ?_, ?_, ?_, rfl⟩))
  · rw [← hm]
    exact hsep.append (matches_cat_singleton_iff.2 hfirst)
  · rw [← hm, ← Nat.add_assoc, ← List.drop_drop]
    exact matches_cat_singleton_iff.1 hmore
  · rw [List.length_append]
    omega

/-! ## Characters -/

theorem beginsWith_encode {chars : List Char} (h : ∀ c ∈ chars, c.toNat < 128)
    (text : List Char) :
    beginsWith id (chars.map Char.val) (encode text) = chars.isPrefixOf text := by
  induction chars generalizing text with
  | nil => cases text <;> rfl
  | cons c chars ih =>
    cases text with
    | nil => rfl
    | cons d text =>
      obtain ⟨hc, hchars⟩ := List.forall_mem_cons.1 h
      have hbyte : ((byteOf d).toUInt32 == c.val) = (c == d) := by
        rw [Bool.eq_iff_iff, beq_iff_eq, beq_iff_eq]
        constructor
        · intro heq
          have hnat := congrArg UInt32.toNat heq
          rw [UInt8.toNat_toUInt32, toNat_byteOf] at hnat
          refine Char.toNat_inj.1 ?_
          change c.val.toNat = d.toNat
          change c.val.toNat < 128 at hc
          omega
        · rintro rfl
          exact toUInt32_byteOf hc
      rw [List.map_cons, encode_cons, beginsWith, id, hbyte, ih hchars, List.isPrefixOf]

theorem Takes.chars (text : List Char) (h : ∀ c ∈ text, c.toNat < 128) :
    Takes (chars text) pos text rest [] := by
  refine matches_leaf ?_
  rw [leafResult?, literalResult, beginsWith_encode h]
  simp

theorem Refuses.chars {chars : List Char} (hchars : ∀ c ∈ chars, c.toNat < 128)
    (h : chars.isPrefixOf rest = false) : Refuses (Metagrammar.chars chars) rest := by
  intro pos
  refine fails_leaf ?_
  simp [leafResult?, literalResult, beginsWith_encode hchars, h]

/-- `e` takes one character if `p` holds of it, and leaves nothing. -/
structure Scans (e : Expr Opcode) (p : Char → Bool) : Prop where
  takes : ∀ {c pos rest}, p c = true → Takes e pos [c] rest []
  refuses : ∀ {rest}, (∀ c ∈ rest.head?, p c = false) → Refuses e rest

namespace Scans

variable {p q : Char → Bool}

theorem char (hc : c.toNat < 128) : Scans (chars [c]) (· == c) where
  takes h := by
    cases beq_iff_eq.1 h
    exact Takes.chars [_] (by simpa using hc)
  refuses {rest} h := by
    refine Refuses.chars (by simpa using hc) ?_
    cases rest with
    | nil => rfl
    | cons d rest =>
      have hd := h d (by simp)
      simp only [beq_eq_false_iff_ne, ne_eq] at hd
      simp [List.isPrefixOf, Ne.symm hd]

theorem range {low high : Char} (hhigh : high.toNat < 128) :
    Scans (range low high) (fun c => low ≤ c && c ≤ high) := by
  have hbyte : ∀ c : Char, (decide (low.val ≤ (byteOf c).toUInt32) &&
      decide ((byteOf c).toUInt32 ≤ high.val)) = (decide (low ≤ c) && decide (c ≤ high)) := by
    intro c
    have hhigh : high.val.toNat < 128 := hhigh
    have hc : c.toNat = c.val.toNat := rfl
    rw [Bool.eq_iff_iff]
    simp only [Bool.and_eq_true, decide_eq_true_eq, Char.le_def, UInt32.le_iff_toNat_le,
      UInt8.toNat_toUInt32, toNat_byteOf, hc]
    omega
  constructor
  · intro c pos rest hc
    refine matches_leaf ?_
    simp only [leafResult?, List.singleton_append, encode_cons, rangeResult, hbyte, hc, if_true]
    rfl
  · intro rest h pos
    refine fails_leaf ?_
    cases rest with
    | nil => rfl
    | cons c rest =>
      have hc := h c (by simp)
      simp [leafResult?, encode_cons, rangeResult, hbyte, hc]

theorem none : Scans (.alt []) (fun _ => false) where
  takes h := by cases h
  refuses _ := .nil

theorem or (he : Scans e p) (hes : Scans (.alt es) q) :
    Scans (.alt (e :: es)) (fun c => p c || q c) where
  takes {c pos rest} h := by
    cases hp : p c with
    | true => exact .hit (he.takes hp)
    | false =>
      refine .miss (he.refuses (by simpa using hp)) (hes.takes ?_)
      simpa [hp] using h
  refuses h := by
    have hboth : ∀ c ∈ _, p c = false ∧ q c = false := fun c hc => by simpa using h c hc
    exact .alt (he.refuses fun c hc => (hboth c hc).1) (hes.refuses fun c hc => (hboth c hc).2)

theorem congr (h : Scans e p) (hpq : ∀ c, p c = q c) : Scans e q := by
  rwa [← funext hpq]

/-- A loop takes characters as long as they belong to the class. -/
theorem many (h : Scans e p) (htext : ∀ c ∈ text, p c = true)
    (hrest : ∀ c ∈ rest.head?, p c = false) : Takes (many e) pos text rest [] := by
  induction text generalizing pos with
  | nil => exact .none (h.refuses hrest)
  | cons c text ih =>
    obtain ⟨hc, htext⟩ := List.forall_mem_cons.1 htext
    exact Takes.more (List.cons_ne_nil c []) (h.takes hc) (ih htext)

theorem oneOrMore (h : Scans e p) (hne : text ≠ []) (htext : ∀ c ∈ text, p c = true)
    (hrest : ∀ c ∈ rest.head?, p c = false) : Takes (oneOrMore e) pos text rest [] := by
  cases text with
  | nil => exact absurd rfl hne
  | cons c text =>
    obtain ⟨hc, htext⟩ := List.forall_mem_cons.1 htext
    exact Takes.oneOrMore (List.cons_ne_nil c []) (h.takes hc) (h.many htext hrest)

end Scans

end Abnf.Canonical
