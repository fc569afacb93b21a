import Abnf.Proofs.Engine.Run

/-!
# Matching and failing

Runs seen from outside: whether an expression matches or fails, and whether every event on the way
is allowed. For each operator, matching and failing come down to matching and failing of its
operands, and a whole derivation is read off or built by rewriting with these equivalences.
-/

namespace Abnf.Engine

variable {scheme : Scheme} {allowed : Event → Prop} {e : Expr Opcode} {es : List (Expr Opcode)}
  {pos n : Nat} {rest : List UInt8} {nodes : List Node}

/-- `e` matches `n` bytes, leaves `nodes` and passes allowed events only. -/
def Matches (scheme : Scheme) (allowed : Event → Prop) (e : Expr Opcode) (pos : Nat)
    (rest : List UInt8) (n : Nat) (nodes : List Node) : Prop :=
  ∃ events, Run scheme e pos rest (some n) nodes events ∧ ∀ event ∈ events, allowed event

/-- `e` does not match, and passes allowed events only. -/
def Fails (scheme : Scheme) (allowed : Event → Prop) (e : Expr Opcode) (pos : Nat)
    (rest : List UInt8) : Prop :=
  ∃ events, Run scheme e pos rest none [] events ∧ ∀ event ∈ events, allowed event

theorem Matches.le_length (h : Matches scheme allowed e pos rest n nodes) : n ≤ rest.length := by
  obtain ⟨events, hrun, -⟩ := h
  exact hrun.le_length

theorem Matches.unique {n' : Nat} {nodes' : List Node} {allowed' : Event → Prop}
    (h : Matches scheme allowed e pos rest n nodes)
    (h' : Matches scheme allowed' e pos rest n' nodes') : n = n' ∧ nodes = nodes' := by
  obtain ⟨events, hrun, -⟩ := h
  obtain ⟨events', hrun', -⟩ := h'
  obtain ⟨hn, hnodes, -⟩ := hrun.unique hrun'
  exact ⟨Option.some.inj hn, hnodes⟩

theorem Matches.not_fails {allowed' : Event → Prop} (h : Matches scheme allowed e pos rest n nodes) :
    ¬ Fails scheme allowed' e pos rest := by
  rintro ⟨events', hrun', -⟩
  obtain ⟨events, hrun, -⟩ := h
  exact absurd (hrun.unique hrun').1 (by simp)

theorem Matches.imp {allowed' : Event → Prop} (h : Matches scheme allowed e pos rest n nodes)
    (himp : ∀ event, allowed event → allowed' event) :
    Matches scheme allowed' e pos rest n nodes := by
  obtain ⟨events, hrun, hall⟩ := h
  exact ⟨events, hrun, fun event he => himp event (hall event he)⟩

/-! ## Leaves and rules -/

theorem matches_leaf {op : Opcode} (h : leafResult? op pos rest = some (some n)) :
    Matches scheme allowed (.atom op) pos rest n [] :=
  ⟨[], .leaf h, by simp⟩

theorem fails_leaf {op : Opcode} (h : leafResult? op pos rest = some none) :
    Fails scheme allowed (.atom op) pos rest :=
  ⟨[], .leaf h, by simp⟩

theorem Matches.leafResult? {op : Opcode} (h : Matches scheme allowed (.atom op) pos rest n nodes)
    (hop : ∀ r, op ≠ .rnm r) : leafResult? op pos rest = some (some n) ∧ nodes = [] := by
  obtain ⟨events, hrun, -⟩ := h
  cases hrun with
  | leaf h => exact ⟨h, rfl⟩
  | rule => exact absurd rfl (hop _)

theorem matches_rule_iff {r : Nat} {body : Expr Opcode} (hbody : scheme.body r = some body) :
    Matches scheme allowed (.atom (.rnm r)) pos rest n nodes ↔
      allowed ⟨r, .active, pos, 0⟩ ∧ allowed ⟨r, .ofResult (some n), pos, n⟩ ∧
      ∃ inner, Matches scheme allowed body pos rest n inner ∧
        nodes = scheme.wrap r pos (some n) inner := by
  constructor
  · rintro ⟨events, hrun, hall⟩
    cases hrun with
    | leaf h => simp [Engine.leafResult?] at h
    | rule hbody' h =>
      rw [hbody] at hbody'
      cases hbody'
      refine ⟨hall _ (by simp [bracket]), hall _ (by simp [bracket]), _, ⟨_, h, ?_⟩, rfl⟩
      exact fun event he => hall event (by simp [bracket, he])
  · rintro ⟨hactive, hend, inner, ⟨events, hrun, hall⟩, rfl⟩
    refine ⟨_, .rule hbody hrun, fun event he => ?_⟩
    simp only [bracket, List.cons_append, List.mem_cons, List.mem_append, List.not_mem_nil,
      or_false] at he
    rcases he with rfl | he | rfl
    · exact hactive
    · exact hall event he
    · exact hend

theorem fails_rule_iff {r : Nat} {body : Expr Opcode} (hbody : scheme.body r = some body) :
    Fails scheme allowed (.atom (.rnm r)) pos rest ↔
      allowed ⟨r, .active, pos, 0⟩ ∧ allowed ⟨r, .failed, pos, 0⟩ ∧
      Fails scheme allowed body pos rest := by
  constructor
  · rintro ⟨events, hrun, hall⟩
    generalize hnodes : ([] : List Node) = nodes at hrun
    cases hrun with
    | leaf h => simp [Engine.leafResult?] at h
    | rule hbody' h =>
      rw [hbody] at hbody'
      cases hbody'
      cases h.nodes_eq_nil
      refine ⟨hall _ (by simp [bracket]), hall _ (by simp [bracket, Phase.ofResult]), _, h, ?_⟩
      exact fun event he => hall event (by simp [bracket, he])
  · rintro ⟨hactive, hend, events, hrun, hall⟩
    refine ⟨_, .rule hbody hrun, fun event he => ?_⟩
    simp only [bracket, List.cons_append, List.mem_cons, List.mem_append, List.not_mem_nil,
      or_false] at he
    rcases he with rfl | he | rfl
    · exact hactive
    · exact hall event he
    · exact hend

/-! ## Choice -/

theorem not_matches_alt_nil : ¬ Matches scheme allowed (.alt []) pos rest n nodes := by
  rintro ⟨events, hrun, -⟩
  cases hrun

theorem fails_alt_nil : Fails scheme allowed (.alt []) pos rest :=
  ⟨[], .altNil, by simp⟩

theorem matches_alt_cons_iff :
    Matches scheme allowed (.alt (e :: es)) pos rest n nodes ↔
      Matches scheme allowed e pos rest n nodes ∨
      (Fails scheme allowed e pos rest ∧ Matches scheme allowed (.alt es) pos rest n nodes) := by
  constructor
  · rintro ⟨events, hrun, hall⟩
    cases hrun with
    | altHit h => exact Or.inl ⟨_, h, hall⟩
    | altMiss h h' =>
      exact Or.inr ⟨⟨_, h, fun event he => hall event (by simp [he])⟩,
        _, h', fun event he => hall event (by simp [he])⟩
  · rintro (⟨events, hrun, hall⟩ | ⟨⟨events, hrun, hall⟩, events', hrun', hall'⟩)
    · exact ⟨_, .altHit hrun, hall⟩
    · refine ⟨_, .altMiss hrun hrun', fun event he => ?_⟩
      rcases List.mem_append.1 he with he | he
      · exact hall event he
      · exact hall' event he

theorem fails_alt_cons_iff :
    Fails scheme allowed (.alt (e :: es)) pos rest ↔
      Fails scheme allowed e pos rest ∧ Fails scheme allowed (.alt es) pos rest := by
  constructor
  · rintro ⟨events, hrun, hall⟩
    cases hrun with
    | altMiss h h' =>
      exact ⟨⟨_, h, fun event he => hall event (by simp [he])⟩,
        _, h', fun event he => hall event (by simp [he])⟩
  · rintro ⟨⟨events, hrun, hall⟩, events', hrun', hall'⟩
    refine ⟨_, .altMiss hrun hrun', fun event he => ?_⟩
    rcases List.mem_append.1 he with he | he
    · exact hall event he
    · exact hall' event he

theorem matches_alt_append_iff {es' : List (Expr Opcode)} :
    Matches scheme allowed (.alt (es ++ es')) pos rest n nodes ↔
      Matches scheme allowed (.alt es) pos rest n nodes ∨
      (Fails scheme allowed (.alt es) pos rest ∧
        Matches scheme allowed (.alt es') pos rest n nodes) := by
  induction es with
  | nil => simp [fails_alt_nil, not_matches_alt_nil]
  | cons e es ih =>
    rw [List.cons_append, matches_alt_cons_iff, matches_alt_cons_iff, fails_alt_cons_iff, ih,
      and_or_left, and_assoc, or_assoc]

/-- Some alternative of a choice that matches matches. -/
theorem Matches.exists_mem (h : Matches scheme allowed (.alt es) pos rest n nodes) :
    ∃ e ∈ es, Matches scheme allowed e pos rest n nodes := by
  induction es with
  | nil => exact absurd h not_matches_alt_nil
  | cons e es ih =>
    rcases matches_alt_cons_iff.1 h with h | ⟨-, h⟩
    · exact ⟨e, by simp, h⟩
    · obtain ⟨e', he', h⟩ := ih h
      exact ⟨e', by simp [he'], h⟩

/-! ## Sequence -/

theorem matches_cat_nil_iff :
    Matches scheme allowed (.cat []) pos rest n nodes ↔ n = 0 ∧ nodes = [] := by
  constructor
  · rintro ⟨events, hrun, -⟩
    cases hrun
    exact ⟨rfl, rfl⟩
  · rintro ⟨rfl, rfl⟩
    exact ⟨[], .catNil, by simp⟩

theorem matches_cat_cons_iff :
    Matches scheme allowed (.cat (e :: es)) pos rest n nodes ↔
      ∃ n₁ nodes₁ n₂ nodes₂, Matches scheme allowed e pos rest n₁ nodes₁ ∧
        Matches scheme allowed (.cat es) (pos + n₁) (rest.drop n₁) n₂ nodes₂ ∧
        n = n₁ + n₂ ∧ nodes = nodes₁ ++ nodes₂ := by
  constructor
  · rintro ⟨events, hrun, hall⟩
    generalize hresult : some n = result at hrun
    cases hrun with
    | catMiss => simp at hresult
    | catNext h h' =>
      obtain ⟨n₂, rfl, rfl⟩ := Option.map_eq_some_iff.1 hresult.symm
      exact ⟨_, _, _, _, ⟨_, h, fun event he => hall event (by simp [he])⟩,
        ⟨_, h', fun event he => hall event (by simp [he])⟩, rfl, rfl⟩
  · rintro ⟨n₁, nodes₁, n₂, nodes₂, ⟨events, hrun, hall⟩, ⟨events', hrun', hall'⟩, rfl, rfl⟩
    refine ⟨_, .catNext hrun hrun', fun event he => ?_⟩
    rcases List.mem_append.1 he with he | he
    · exact hall event he
    · exact hall' event he

theorem matches_cat_singleton_iff :
    Matches scheme allowed (.cat [e]) pos rest n nodes ↔
      Matches scheme allowed e pos rest n nodes := by
  rw [matches_cat_cons_iff]
  constructor
  · rintro ⟨n₁, nodes₁, n₂, nodes₂, h, hnil, rfl, rfl⟩
    obtain ⟨rfl, rfl⟩ := matches_cat_nil_iff.1 hnil
    simpa using h
  · intro h
    exact ⟨n, nodes, 0, [], h, matches_cat_nil_iff.2 ⟨rfl, rfl⟩, by simp, by simp⟩

theorem Matches.append {es' : List (Expr Opcode)} {n' : Nat} {nodes' : List Node}
    (h : Matches scheme allowed (.cat es) pos rest n nodes)
    (h' : Matches scheme allowed (.cat es') (pos + n) (rest.drop n) n' nodes') :
    Matches scheme allowed (.cat (es ++ es')) pos rest (n + n') (nodes ++ nodes') := by
  induction es generalizing pos rest n nodes with
  | nil =>
    obtain ⟨rfl, rfl⟩ := matches_cat_nil_iff.1 h
    simpa using h'
  | cons e es ih =>
    obtain ⟨n₁, nodes₁, n₂, nodes₂, hfirst, hmore, rfl, rfl⟩ := matches_cat_cons_iff.1 h
    rw [← Nat.add_assoc, ← List.drop_drop] at h'
    exact matches_cat_cons_iff.2
      ⟨n₁, nodes₁, _, _, hfirst, ih hmore h', Nat.add_assoc _ _ _, List.append_assoc _ _ _⟩

theorem fails_cat_cons_iff :
    Fails scheme allowed (.cat (e :: es)) pos rest ↔
      Fails scheme allowed e pos rest ∨
      ∃ n₁ nodes₁, Matches scheme allowed e pos rest n₁ nodes₁ ∧
        Fails scheme allowed (.cat es) (pos + n₁) (rest.drop n₁) := by
  constructor
  · rintro ⟨events, hrun, hall⟩
    generalize hresult : (none : Option Nat) = result at hrun
    generalize hnodes : ([] : List Node) = nodes at hrun
    cases hrun with
    | catMiss h => exact Or.inl ⟨_, h, hall⟩
    | catNext h h' =>
      rw [eq_comm, Option.map_eq_none_iff] at hresult
      subst hresult
      cases h'.nodes_eq_nil
      exact Or.inr ⟨_, _, ⟨_, h, fun event he => hall event (by simp [he])⟩,
        _, h', fun event he => hall event (by simp [he])⟩
  · rintro (⟨events, hrun, hall⟩ | ⟨n₁, nodes₁, ⟨events, hrun, hall⟩, events', hrun', hall'⟩)
    · exact ⟨_, .catMiss hrun, hall⟩
    · refine ⟨_, .catNext hrun hrun', fun event he => ?_⟩
      rcases List.mem_append.1 he with he | he
      · exact hall event he
      · exact hall' event he

theorem not_fails_cat_nil : ¬ Fails scheme allowed (.cat []) pos rest := by
  rintro ⟨events, hrun, -⟩
  cases hrun

theorem fails_cat_singleton_iff :
    Fails scheme allowed (.cat [e]) pos rest ↔ Fails scheme allowed e pos rest := by
  rw [fails_cat_cons_iff]
  refine ⟨fun h => h.resolve_right ?_, Or.inl⟩
  rintro ⟨_, _, -, hnil⟩
  exact not_fails_cat_nil hnil

/-- The last operand of a sequence that matches matches. -/
theorem Matches.exists_last (es : List (Expr Opcode))
    (h : Matches scheme allowed (.cat (es ++ [e])) pos rest n nodes) :
    ∃ before length nodes', n = before + length ∧
      Matches scheme allowed e (pos + before) (rest.drop before) length nodes' := by
  induction es generalizing pos rest n nodes with
  | nil => exact ⟨0, n, nodes, (Nat.zero_add n).symm, matches_cat_singleton_iff.1 h⟩
  | cons first es ih =>
    obtain ⟨n₁, _, n₂, _, -, hmore, rfl, -⟩ := matches_cat_cons_iff.1 h
    obtain ⟨before, length, nodes', rfl, hlast⟩ := ih hmore
    rw [Nat.add_assoc, List.drop_drop] at hlast
    exact ⟨n₁ + before, length, nodes', (Nat.add_assoc _ _ _).symm, hlast⟩

/-! ## Repetition -/

theorem matches_rep_iff {min : UInt32} {max : Option UInt32} (hmax : max ≠ some 0) :
    Matches scheme allowed (.under (.rep min max) e) pos rest n nodes ↔
      (min.toNat ≤ 0 ∧ n = 0 ∧ nodes = [] ∧ Fails scheme allowed e pos rest) ∨
      (min.toNat ≤ 1 ∧ n = 0 ∧ Matches scheme allowed e pos rest 0 nodes) ∨
      ∃ m nodes₁ n₂ nodes₂, Matches scheme allowed e pos rest (m + 1) nodes₁ ∧
        Matches scheme allowed (.under (.rep (fewer min) (max.map fewer)) e) (pos + (m + 1))
          (rest.drop (m + 1)) n₂ nodes₂ ∧
        n = m + 1 + n₂ ∧ nodes = nodes₁ ++ nodes₂ := by
  constructor
  · rintro ⟨events, hrun, hall⟩
    generalize hresult : some n = result at hrun
    cases hrun with
    | repDone => exact absurd rfl hmax
    | repMiss _ h =>
      obtain ⟨hmin, rfl⟩ := enough_eq_some hresult.symm
      exact Or.inl ⟨hmin, rfl, rfl, _, h, hall⟩
    | repEmpty _ h =>
      obtain ⟨hmin, rfl⟩ := enough_eq_some hresult.symm
      exact Or.inr (Or.inl ⟨hmin, rfl, _, by rwa [if_pos hmin], hall⟩)
    | repNext _ h h' =>
      obtain ⟨n₂, rfl, rfl⟩ := Option.map_eq_some_iff.1 hresult.symm
      exact Or.inr (Or.inr ⟨_, _, _, _, ⟨_, h, fun event he => hall event (by simp [he])⟩,
        ⟨_, h', fun event he => hall event (by simp [he])⟩, rfl, rfl⟩)
  · rintro (⟨hmin, rfl, rfl, events, hrun, hall⟩ | ⟨hmin, rfl, events, hrun, hall⟩ |
      ⟨m, nodes₁, n₂, nodes₂, ⟨events, hrun, hall⟩, ⟨events', hrun', hall'⟩, rfl, rfl⟩)
    · refine ⟨events, ?_, hall⟩
      have h : Run scheme (.under (.rep min max) e) pos rest _ _ _ := .repMiss hmax hrun
      rwa [enough, if_pos hmin] at h
    · refine ⟨events, ?_, hall⟩
      have h : Run scheme (.under (.rep min max) e) pos rest _ _ _ := .repEmpty hmax hrun
      rwa [enough, if_pos hmin, if_pos hmin] at h
    · refine ⟨_, .repNext hmax hrun hrun', fun event he => ?_⟩
      rcases List.mem_append.1 he with he | he
      · exact hall event he
      · exact hall' event he

theorem matches_rep_done_iff :
    Matches scheme allowed (.under (.rep 0 (some 0)) e) pos rest n nodes ↔ n = 0 ∧ nodes = [] := by
  constructor
  · rintro ⟨events, hrun, -⟩
    generalize hresult : some n = result at hrun
    cases hrun with
    | repDone => exact ⟨(enough_eq_some hresult.symm).2, rfl⟩
    | repMiss hmax | repEmpty hmax | repNext hmax => exact absurd rfl hmax
  · rintro ⟨rfl, rfl⟩
    exact ⟨[], .repDone, by simp⟩

theorem matches_many_iff :
    Matches scheme allowed (.under (.rep 0 none) e) pos rest n nodes ↔
      (n = 0 ∧ nodes = [] ∧ Fails scheme allowed e pos rest) ∨
      (n = 0 ∧ Matches scheme allowed e pos rest 0 nodes) ∨
      ∃ m nodes₁ n₂ nodes₂, Matches scheme allowed e pos rest (m + 1) nodes₁ ∧
        Matches scheme allowed (.under (.rep 0 none) e) (pos + (m + 1)) (rest.drop (m + 1)) n₂
          nodes₂ ∧
        n = m + 1 + n₂ ∧ nodes = nodes₁ ++ nodes₂ := by
  rw [matches_rep_iff (by simp)]
  simp only [UInt32.toNat_zero, Nat.le_refl, Nat.zero_le, true_and]
  rfl

theorem Matches.many_done (h : Fails scheme allowed e pos rest) :
    Matches scheme allowed (.under (.rep 0 none) e) pos rest 0 [] :=
  matches_many_iff.2 (Or.inl ⟨rfl, rfl, h⟩)

theorem Matches.many_empty (h : Matches scheme allowed e pos rest 0 nodes) :
    Matches scheme allowed (.under (.rep 0 none) e) pos rest 0 nodes :=
  matches_many_iff.2 (Or.inr (Or.inl ⟨rfl, h⟩))

theorem Matches.many_next {m : Nat} {nodes' : List Node}
    (hfirst : Matches scheme allowed e pos rest (m + 1) nodes)
    (hmore : Matches scheme allowed (.under (.rep 0 none) e) (pos + (m + 1)) (rest.drop (m + 1)) n
      nodes') :
    Matches scheme allowed (.under (.rep 0 none) e) pos rest (m + 1 + n) (nodes ++ nodes') :=
  matches_many_iff.2 (Or.inr (Or.inr ⟨m, nodes, n, nodes', hfirst, hmore, rfl, rfl⟩))

/-- Induction on the iterations of a repetition without bounds. -/
@[elab_as_elim]
theorem Matches.many_induction
    {motive : ∀ pos rest n nodes,
      Matches scheme allowed (.under (.rep 0 none) e) pos rest n nodes → Prop}
    {pos : Nat} {rest : List UInt8} {n : Nat} {nodes : List Node}
    (h : Matches scheme allowed (.under (.rep 0 none) e) pos rest n nodes)
    (done : ∀ {pos rest} (hfails : Fails scheme allowed e pos rest),
      motive pos rest 0 [] (.many_done hfails))
    (empty : ∀ {pos rest nodes} (hempty : Matches scheme allowed e pos rest 0 nodes),
      motive pos rest 0 nodes (.many_empty hempty))
    (next : ∀ {pos rest m nodes n nodes'}
      (hfirst : Matches scheme allowed e pos rest (m + 1) nodes)
      (hmore : Matches scheme allowed (.under (.rep 0 none) e) (pos + (m + 1))
        (rest.drop (m + 1)) n nodes'), motive _ _ _ _ hmore →
      motive pos rest (m + 1 + n) (nodes ++ nodes') (.many_next hfirst hmore)) :
    motive pos rest n nodes h := by
  induction n using Nat.strongRecOn generalizing pos rest nodes with
  | _ n ih =>
    rcases matches_many_iff.1 h with ⟨rfl, rfl, hfails⟩ | ⟨rfl, hempty⟩ |
      ⟨m, nodes₁, k, nodes₂, hfirst, hmore, rfl, rfl⟩
    · exact done hfails
    · exact empty hempty
    · exact next hfirst hmore (ih k (by omega) hmore)

theorem matches_oneOrMore_iff :
    Matches scheme allowed (.under (.rep 1 none) e) pos rest n nodes ↔
      (n = 0 ∧ Matches scheme allowed e pos rest 0 nodes) ∨
      ∃ m nodes₁ n₂ nodes₂, Matches scheme allowed e pos rest (m + 1) nodes₁ ∧
        Matches scheme allowed (.under (.rep 0 none) e) (pos + (m + 1)) (rest.drop (m + 1)) n₂
          nodes₂ ∧
        n = m + 1 + n₂ ∧ nodes = nodes₁ ++ nodes₂ := by
  have hone : ¬ (1 : Nat) ≤ 0 := by decide
  rw [matches_rep_iff (by simp)]
  simp only [UInt32.toNat_one, Nat.le_refl, hone, false_and, false_or, true_and]
  rfl

theorem matches_optional_iff :
    Matches scheme allowed (.under (.rep 0 (some 1)) e) pos rest n nodes ↔
      (n = 0 ∧ nodes = [] ∧ Fails scheme allowed e pos rest) ∨
      Matches scheme allowed e pos rest n nodes := by
  rw [matches_rep_iff (by decide)]
  simp only [UInt32.toNat_zero, Nat.le_refl, Nat.zero_le, true_and]
  change _ ∨ _ ∨ (∃ m nodes₁ n₂ nodes₂, _ ∧
    Matches scheme allowed (.under (.rep 0 (some 0)) e) _ _ n₂ nodes₂ ∧ _) ↔ _
  simp only [matches_rep_done_iff]
  constructor
  · rintro (h | ⟨rfl, h⟩ | ⟨m, nodes₁, n₂, nodes₂, h, ⟨rfl, rfl⟩, rfl, rfl⟩)
    · exact Or.inl h
    · exact Or.inr h
    · exact Or.inr (by simpa using h)
  · rintro (h | h)
    · exact Or.inl h
    · cases n with
      | zero => exact Or.inr (Or.inl ⟨rfl, h⟩)
      | succ m => exact Or.inr (Or.inr ⟨m, nodes, 0, [], h, ⟨rfl, rfl⟩, by simp, by simp⟩)

/-- A repetition that needs no iteration never fails. -/
theorem not_fails_rep_zero {max : Option UInt32} :
    ¬ Fails scheme allowed (.under (.rep 0 max) e) pos rest := by
  rintro ⟨events, hrun, -⟩
  generalize hexpr : Expr.under (.rep 0 max) e = expr at hrun
  generalize hresult : (none : Option Nat) = result at hrun
  generalize ([] : List Node) = nodes at hrun
  induction hrun generalizing max with
  | repDone | repMiss | repEmpty =>
    cases hexpr
    simp [enough] at hresult
  | repNext _ _ _ _ ih =>
    cases hexpr
    exact ih rfl (Option.map_eq_none_iff.1 hresult.symm).symm
  | _ => cases hexpr

theorem fails_oneOrMore_iff :
    Fails scheme allowed (.under (.rep 1 none) e) pos rest ↔ Fails scheme allowed e pos rest := by
  constructor
  · rintro ⟨events, hrun, hall⟩
    generalize hresult : (none : Option Nat) = result at hrun
    generalize hnodes : ([] : List Node) = nodes at hrun
    cases hrun with
    | repMiss _ h => exact ⟨_, h, hall⟩
    | repEmpty _ h => simp [enough] at hresult
    | repNext _ h h' =>
      rw [eq_comm, Option.map_eq_none_iff] at hresult
      subst hresult
      cases h'.nodes_eq_nil
      exact absurd (⟨_, h', fun _ _ => trivial⟩ : Fails scheme (fun _ => True) _ _ _)
        not_fails_rep_zero
  · rintro ⟨events, hrun, hall⟩
    exact ⟨_, .repMiss (by simp) hrun, hall⟩

end Abnf.Engine
