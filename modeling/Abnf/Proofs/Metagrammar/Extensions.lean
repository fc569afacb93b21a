import Abnf.Proofs.Metagrammar.Acceptance
import Abnf.Proofs.Metagrammar.Postorder

/-!
# Extensions in a text

Which phrases of a text are operators that plain ABNF does not have, and which of them are seen
while the text is matched. An operator that is seen in an alternative that is given up later would
be seen too often. In a proper text this does not happen: where an operator could be given up, the
bytes that follow forbid it.

* `extensions`: the extensions among the phrases of some trees.
* `seen`: the extensions that events show.
* `accounted_file`: a proper text shows just the extensions among its phrases.
* `inOrder_extensions`: extensions stand one behind the other.
-/

namespace Abnf.Metagrammar

open Engine

/-! ## Extensions -/

/-- The extension that the phrases of a symbol are. -/
def Symbol.extension? : Symbol → Option Extension
  | andOp => some .and
  | notOp => some .not
  | bkaOp => some .lookBehind
  | bknOp => some .notLookBehind
  | abgOp => some .beginAnchor
  | aenOp => some .endAnchor
  | bkrOp => some .backReference
  | udtEmpty | udtNonEmpty => some .userTerminal
  | clsOp => some .caseSensitiveString
  | _ => none

/-- The extension that the phrases of a rule are. -/
def extensionOf? (rule : Nat) : Option Extension :=
  (Symbol.ofIndex? rule).bind Symbol.extension?

/-- The extensions among the phrases of some trees, each with the offset where it begins. -/
def extensions (nodes : List Node) : List (Nat × Extension) :=
  (Node.postorderAll nodes).filterMap fun node => (extensionOf? node.rule).map (node.offset, ·)

/-- The extension that an event shows. -/
def shown? (event : Event) : Option (Nat × Extension) :=
  if event.phase = .matched then (extensionOf? event.rule).map (event.offset, ·) else none

/-- The extensions that events show. -/
def seen (events : List Event) : List (Nat × Extension) :=
  events.filterMap shown?

section

variable {s : Symbol} {pos n : Nat} {rest : List UInt8} {result : Option Nat} {nodes : List Node}
  {events : List Event}

@[simp] theorem extensionOf?_index : extensionOf? s.index = s.extension? := by
  simp [extensionOf?, Symbol.ofIndex?_index]

@[simp] theorem extensions_nil : extensions [] = [] :=
  rfl

theorem postorderAll_append (nodes nodes' : List Node) :
    Node.postorderAll (nodes ++ nodes') = Node.postorderAll nodes ++ Node.postorderAll nodes' := by
  induction nodes with
  | nil => rfl
  | cons node nodes ih => rw [List.cons_append, Node.postorderAll, ih, Node.postorderAll,
      List.append_assoc]

@[simp] theorem extensions_append (nodes nodes' : List Node) :
    extensions (nodes ++ nodes') = extensions nodes ++ extensions nodes' := by
  rw [extensions, postorderAll_append, List.filterMap_append]
  rfl

theorem extensions_node (rule : Nat) : extensions [.mk rule pos n nodes] =
    extensions nodes ++ ((extensionOf? rule).map (pos, ·)).toList := by
  simp only [extensions, Node.postorderAll, Node.postorder, List.append_nil, List.filterMap_append]
  cases h : extensionOf? rule <;> simp [Node.rule, Node.offset, h]

@[simp] theorem seen_nil : seen [] = [] :=
  rfl

@[simp] theorem seen_append (events events' : List Event) :
    seen (events ++ events') = seen events ++ seen events' :=
  List.filterMap_append

theorem seen_bracket (rule : Nat) : seen (bracket rule pos result events) =
    seen events ++ (shown? ⟨rule, .ofResult result, pos, result.getD 0⟩).toList := by
  have hactive : shown? ⟨rule, .active, pos, 0⟩ = none := rfl
  simp only [seen, bracket, List.cons_append, List.filterMap_cons, hactive, List.filterMap_append]
  cases shown? ⟨rule, .ofResult result, pos, result.getD 0⟩ <;> rfl

/-- A symbol that is no extension shows what is shown within it. -/
theorem seen_bracket_of_none (hs : s.extension? = none) :
    seen (bracket s.index pos result events) = seen events := by
  simp [seen_bracket, shown?, hs]

theorem extensions_wrap_of_none (hs : s.extension? = none) :
    extensions (scheme.wrap s.index pos (some n) nodes) = extensions nodes := by
  simp only [Scheme.wrap]
  split
  · simp [extensions_node, hs]
  · rfl

/-! ## Symbols without extensions -/

/-- Whether there is no extension at a symbol or anywhere below it. -/
def Symbol.isMute : Symbol → Bool
  | file | rule | alternation | concatenation | repetition | basicElement | group | option | udtOp
  | udtEmpty | udtNonEmpty | andOp | notOp | bkaOp | bknOp | abgOp | aenOp | bkrOp | clsOp => false
  | _ => true

/-- Whether an expression refers to symbols without extensions only. -/
def isMute (e : Expr Opcode) : Bool :=
  e.isRunnable (among Symbol.isMute)

theorem isMute_body (hs : s.isMute = true) : isMute s.body = true := by
  cases s <;> first | rfl | cases hs

theorem extension?_of_isMute (hs : s.isMute = true) : s.extension? = none := by
  cases s <;> first | rfl | cases hs

/-- Every recorded phrase belongs to a rule that was entered. -/
theorem rule_of_mem_postorderAll {e : Expr Opcode}
    (h : Run scheme e pos rest result nodes events) :
    ∀ node ∈ Node.postorderAll nodes, ∃ event ∈ events, event.rule = node.rule := by
  have happend : ∀ {nodes nodes' : List Node} {events events' : List Event},
      (∀ node ∈ Node.postorderAll nodes, ∃ event ∈ events, event.rule = node.rule) →
      (∀ node ∈ Node.postorderAll nodes', ∃ event ∈ events', event.rule = node.rule) →
      ∀ node ∈ Node.postorderAll (nodes ++ nodes'),
        ∃ event ∈ events ++ events', event.rule = node.rule := by
    intro nodes nodes' events events' h h' node hnode
    rw [postorderAll_append] at hnode
    rcases List.mem_append.1 hnode with hnode | hnode
    · obtain ⟨event, hevent, heq⟩ := h node hnode
      exact ⟨event, List.mem_append_left _ hevent, heq⟩
    · obtain ⟨event, hevent, heq⟩ := h' node hnode
      exact ⟨event, List.mem_append_right _ hevent, heq⟩
  induction h with
  | leaf | altNil | catNil | catMiss | repDone | repMiss | and | not => simp [Node.postorderAll]
  | @rule r body pos rest result nodes events hbody _ ih =>
    intro node hnode
    -- The phrases of a rule are those of its body and, if it is recorded, its own.
    have hwrap : node ∈ Node.postorderAll nodes ∨ node.rule = r := by
      unfold Scheme.wrap at hnode
      cases result with
      | none => simp [Node.postorderAll] at hnode
      | some n =>
        simp only at hnode
        split at hnode
        · simp only [Node.postorderAll, Node.postorder, List.append_nil, List.mem_append,
            List.mem_singleton] at hnode
          exact hnode.imp_right (congrArg Node.rule)
        · exact Or.inl hnode
    rcases hwrap with hnode | hrule
    · obtain ⟨event, hevent, heq⟩ := ih node hnode
      exact ⟨event, by simp [bracket, hevent], heq⟩
    · exact ⟨⟨r, .active, pos, 0⟩, by simp [bracket], hrule.symm⟩
  | altHit _ ih => exact ih
  | altMiss _ _ _ ih =>
    intro node hnode
    obtain ⟨event, hevent, heq⟩ := ih node hnode
    exact ⟨event, List.mem_append_right _ hevent, heq⟩
  | catNext _ _ ih₁ ih₂ | repNext _ _ _ ih₁ ih₂ =>
    split
    · exact happend ih₁ ih₂
    · simp [Node.postorderAll]
  | repEmpty _ _ ih =>
    split
    · exact ih
    · simp [Node.postorderAll]

/-- A run among symbols without extensions shows none and leaves none. -/
theorem Run.mute {e : Expr Opcode} (he : isMute e = true)
    (h : Run scheme e pos rest result nodes events) : seen events = [] ∧ extensions nodes = [] := by
  have hnone : ∀ event ∈ events, extensionOf? event.rule = none := by
    intro event hevent
    obtain ⟨s, hs, hmute⟩ :=
      exists_symbol_of_among (among_of_run (fun s hs => isMute_body hs) h he event hevent)
    rw [hs, extensionOf?_index, extension?_of_isMute hmute]
  constructor
  · refine List.filterMap_eq_nil_iff.2 fun event hevent => ?_
    simp [shown?, hnone event hevent]
  · refine List.filterMap_eq_nil_iff.2 fun node hnode => ?_
    obtain ⟨event, hevent, hrule⟩ := rule_of_mem_postorderAll h node hnode
    simp [← hrule, hnone event hevent]

theorem isMute_body_of_extension {x : Extension} (hs : s.extension? = some x) :
    isMute s.body = true := by
  cases s <;> first | rfl | cases hs

/-- The phrases of an extension are not empty, they are recorded, and there is no other one
within. -/
theorem extensions_wrap_of_some {x : Extension} (hs : s.extension? = some x)
    (h : Run scheme s.body pos rest (some n) nodes events) :
    n ≠ 0 ∧ extensions (scheme.wrap s.index pos (some n) nodes) = [(pos, x)] := by
  have hrecorded : scheme.recorded s.index = true := by
    cases s <;> first | rfl | cases hs
  have hnonempty : nullable s.index = false := by
    cases s <;> first | rfl | cases hs
  constructor
  · rintro rfl
    have hnull := descends.closed (scheme_body s) (h.isNullable descends.closed)
    rw [hnonempty] at hnull
    cases hnull
  · simp [Scheme.wrap, hrecorded, extensions_node, hs,
      (Run.mute (isMute_body_of_extension hs) h).2]

/-- An extension that matches is not empty, is seen where it begins, and is left there. -/
theorem extension_ref {x : Extension} (hs : s.extension? = some x)
    (h : Run scheme (ref s) pos rest result nodes events) :
    result ≠ some 0 ∧ seen events = (result.map fun _ => (pos, x)).toList ∧
      extensions nodes = (result.map fun _ => (pos, x)).toList := by
  cases h with
  | leaf h => simp [leafResult?] at h
  | @rule _ _ _ _ result inner _ hbody h =>
    rw [scheme_body] at hbody
    cases hbody
    rw [seen_bracket, (Run.mute (isMute_body_of_extension hs) h).1]
    cases result with
    | none => simp [shown?, Phase.ofResult, Scheme.wrap]
    | some n =>
      obtain ⟨hn, hleft⟩ := extensions_wrap_of_some hs h
      obtain ⟨n, rfl⟩ := Nat.exists_eq_succ_of_ne_zero hn
      simp [shown?, Phase.ofResult, hleft, hs]

end

/-! ## Faithful expressions -/

/-- Whatever becomes of a run of the expression, it shows the extensions that it leaves. -/
structure Faithful (e : Expr Opcode) : Prop where
  seen_eq : ∀ {pos rest result nodes events}, Run scheme e pos rest result nodes events →
    seen events = extensions nodes

namespace Faithful

variable {e : Expr Opcode} {s : Symbol}

theorem of_mute (he : isMute e = true) : Faithful e := by
  refine ⟨fun {pos rest result nodes events} h => ?_⟩
  obtain ⟨hseen, hleft⟩ := Run.mute he h
  rw [hseen, hleft]

theorem of_isMute (hs : s.isMute = true) : Faithful (ref s) :=
  of_mute (among_index.trans hs)

theorem ref (hs : s.extension? = none) (hbody : Faithful s.body) : Faithful (ref s) := by
  refine ⟨fun {pos rest result nodes events} h => ?_⟩
  cases h with
  | leaf h => simp [leafResult?] at h
  | @rule _ _ _ _ result inner _ hbody' h =>
    rw [scheme_body] at hbody'
    cases hbody'
    rw [seen_bracket_of_none hs, hbody.seen_eq h]
    cases result with
    | none =>
      cases h.nodes_eq_nil
      rfl
    | some n => exact (extensions_wrap_of_none hs).symm

theorem extension {x : Extension} (hs : s.extension? = some x) : Faithful (Metagrammar.ref s) := by
  refine ⟨fun {pos rest result nodes events} h => ?_⟩
  obtain ⟨-, hseen, hleft⟩ := extension_ref hs h
  rw [hseen, hleft]

theorem alt {es : List (Expr Opcode)} (h : ∀ e ∈ es, Faithful e) : Faithful (.alt es) := by
  induction es with
  | nil =>
    refine ⟨fun {pos rest result nodes events} hrun => ?_⟩
    cases hrun
    rfl
  | cons e es ih =>
    obtain ⟨hfirst, hmore⟩ := List.forall_mem_cons.1 h
    refine ⟨fun {pos rest result nodes events} hrun => ?_⟩
    cases hrun with
    | altHit hrun => exact hfirst.seen_eq hrun
    | altMiss hrun hrun' =>
      rw [seen_append, hfirst.seen_eq hrun, (ih hmore).seen_eq hrun']
      rfl

theorem optional (h : Faithful e) : Faithful (optional e) := by
  refine ⟨fun {pos rest result nodes events} hrun => ?_⟩
  cases hrun with
  | repMiss _ hrun => exact h.seen_eq hrun
  | repEmpty _ hrun => exact h.seen_eq hrun
  | repNext _ hrun hrun' =>
    cases hrun' with
    | repDone => simpa [enough, fewer] using h.seen_eq hrun
    | repMiss hmax | repEmpty hmax | repNext hmax => exact absurd rfl hmax

end Faithful

theorem faithful_operators : Faithful (optional (.alt
    [ref .bkaOp, ref .bknOp, ref .andOp, ref .notOp, ref .repOp])) := by
  refine .optional (.alt fun e he => ?_)
  simp only [List.mem_cons, List.not_mem_nil, or_false] at he
  rcases he with rfl | rfl | rfl | rfl | rfl
  · exact .extension rfl
  · exact .extension rfl
  · exact .extension rfl
  · exact .extension rfl
  · exact .of_mute rfl

theorem faithful_udtOp : Faithful (ref .udtOp) := by
  refine .ref rfl (.alt fun e he => ?_)
  rcases List.mem_pair.1 he with rfl | rfl
  · exact .extension rfl
  · exact .extension rfl

theorem faithful_basicElement : Faithful (ref .basicElement) := by
  refine .ref rfl (.alt fun e he => ?_)
  simp only [List.mem_cons, List.not_mem_nil, or_false] at he
  rcases he with rfl | rfl | rfl | rfl | rfl | rfl | rfl | rfl | rfl | rfl
  · exact faithful_udtOp
  · exact .of_mute rfl
  · exact .of_mute rfl
  · exact .of_mute rfl
  · exact .extension rfl
  · exact .extension rfl
  · exact .extension rfl
  · exact .of_mute rfl
  · exact .extension rfl
  · exact .of_mute rfl

/-! ## Accounts -/

/-- `e` matches and shows the extensions that it leaves. -/
def Accounted (e : Expr Opcode) (pos : Nat) (rest : List UInt8) (n : Nat) (nodes : List Node) :
    Prop :=
  ∃ events, Run scheme e pos rest (some n) nodes events ∧ seen events = extensions nodes

/-- `e` fails and shows no extension. -/
def Unseen (e : Expr Opcode) (pos : Nat) (rest : List UInt8) : Prop :=
  ∃ events, Run scheme e pos rest none [] events ∧ seen events = []

section

variable {e : Expr Opcode} {es : List (Expr Opcode)} {s : Symbol} {pos n m : Nat}
  {rest : List UInt8} {nodes nodes' : List Node}

theorem Faithful.accounted (h : Faithful e) (hmatch : CleanMatch e pos rest n nodes) :
    Accounted e pos rest n nodes := by
  obtain ⟨events, hrun, -⟩ := hmatch
  exact ⟨events, hrun, h.seen_eq hrun⟩

theorem Faithful.unseen (h : Faithful e) (hfail : CleanFail e pos rest) : Unseen e pos rest := by
  obtain ⟨events, hrun, -⟩ := hfail
  exact ⟨events, hrun, h.seen_eq hrun⟩

/-- A symbol that cannot begin with the next byte shows nothing. -/
theorem unseen_of_quiet (hs : s.isQuiet rest.head? = true) : Unseen (ref s) pos rest := by
  have hfail : CleanFail (ref s) pos rest := cleanFail_of_quiet hs
  obtain ⟨events, hrun, -⟩ := hfail
  refine ⟨events, hrun, List.filterMap_eq_nil_iff.2 fun event hevent => ?_⟩
  simp only [Symbol.isQuiet, Bool.and_eq_true] at hs
  have hquiet : (ref s).isQuiet nullable (scheme.isQuiet nullable calm rest.head? 7) rest.head? =
      true := hs.2
  obtain ⟨-, hphase⟩ := (hrun.quiet descends.closed hquiet).2 event hevent
  simp [shown?, hphase]

namespace Accounted

theorem ref (hs : s.extension? = none) (h : ProperMatch (ref s) pos rest n nodes)
    (hbody : ∀ inner, ProperMatch s.properBody pos rest n inner →
      Accounted s.body pos rest n inner) : Accounted (Metagrammar.ref s) pos rest n nodes := by
  obtain ⟨-, -, inner, hinner, rfl⟩ := (matches_rule_iff (properScheme_body s)).1 h
  obtain ⟨events, hrun, hseen⟩ := hbody inner hinner
  refine ⟨_, .rule (scheme_body s) hrun, ?_⟩
  rw [seen_bracket_of_none hs, hseen]
  exact (extensions_wrap_of_none hs).symm

theorem altHit (h : Accounted e pos rest n nodes) : Accounted (.alt (e :: es)) pos rest n nodes := by
  obtain ⟨events, hrun, hseen⟩ := h
  exact ⟨events, .altHit hrun, hseen⟩

theorem altMiss (h : Unseen e pos rest) (h' : Accounted (.alt es) pos rest n nodes) :
    Accounted (.alt (e :: es)) pos rest n nodes := by
  obtain ⟨events, hrun, hseen⟩ := h
  obtain ⟨events', hrun', hseen'⟩ := h'
  exact ⟨_, .altMiss hrun hrun', by rw [seen_append, hseen, hseen', List.nil_append]⟩

theorem cat_nil : Accounted (.cat []) pos rest 0 [] :=
  ⟨[], .catNil, rfl⟩

theorem cat_cons (h : Accounted e pos rest n nodes)
    (h' : Accounted (.cat es) (pos + n) (rest.drop n) m nodes') :
    Accounted (.cat (e :: es)) pos rest (n + m) (nodes ++ nodes') := by
  obtain ⟨events, hrun, hseen⟩ := h
  obtain ⟨events', hrun', hseen'⟩ := h'
  exact ⟨_, .catNext hrun hrun', by rw [seen_append, hseen, hseen']; simp⟩

theorem cat_singleton (h : Accounted e pos rest n nodes) : Accounted (.cat [e]) pos rest n nodes := by
  simpa using h.cat_cons cat_nil

theorem many_done (h : Unseen e pos rest) : Accounted (many e) pos rest 0 [] := by
  obtain ⟨events, hrun, hseen⟩ := h
  exact ⟨events, .repMiss (by simp) hrun, hseen⟩

theorem many_next (h : Accounted e pos rest (n + 1) nodes)
    (h' : Accounted (many e) (pos + (n + 1)) (rest.drop (n + 1)) m nodes') :
    Accounted (many e) pos rest (n + 1 + m) (nodes ++ nodes') := by
  obtain ⟨events, hrun, hseen⟩ := h
  obtain ⟨events', hrun', hseen'⟩ := h'
  have hnext : Run scheme (many e) pos rest _ _ _ := .repNext (by simp) hrun hrun'
  exact ⟨_, hnext, by rw [seen_append, hseen, hseen']; simp⟩

end Accounted

theorem unseen_alt_nil : Unseen (.alt []) pos rest :=
  ⟨[], .altNil, rfl⟩

theorem Unseen.alt_cons (h : Unseen e pos rest) (h' : Unseen (.alt es) pos rest) :
    Unseen (.alt (e :: es)) pos rest := by
  obtain ⟨events, hrun, hseen⟩ := h
  obtain ⟨events', hrun', hseen'⟩ := h'
  exact ⟨_, .altMiss hrun hrun', by rw [seen_append, hseen, hseen', List.nil_append]⟩

theorem Unseen.cat_cons (h : Unseen e pos rest) : Unseen (.cat (e :: es)) pos rest := by
  obtain ⟨events, hrun, hseen⟩ := h
  exact ⟨events, .catMiss hrun, hseen⟩

/-- A sequence that fails behind an operand without extensions. -/
theorem Unseen.cat_next (he : isMute e = true) (h : CleanMatch e pos rest n nodes)
    (h' : Unseen (.cat es) (pos + n) (rest.drop n)) : Unseen (.cat (e :: es)) pos rest := by
  obtain ⟨events, hrun, -⟩ := h
  obtain ⟨events', hrun', hseen'⟩ := h'
  exact ⟨_, .catNext hrun hrun', by rw [seen_append, (Run.mute he hrun).1, hseen', List.nil_append]⟩

/-! ## Elements and alternatives -/

/-- The claim that proper matches of alternatives are accounted for, for texts shorter than
`length`. -/
def AlternationsAccounted (length : Nat) : Prop :=
  ∀ pos n rest nodes, rest.length < length → ProperMatch (ref .alternation) pos rest n nodes →
    Follows closers (pos + n) (rest.drop n) → Accounted (ref .alternation) pos rest n nodes

theorem AlternationsAccounted.drop (h : AlternationsAccounted rest.length) (m : Nat) :
    AlternationsAccounted (rest.drop m).length := by
  intro pos n rest' nodes hlength
  rw [List.length_drop] at hlength
  exact h pos n rest' nodes (by omega)

/-- A group or an option, when the alternatives in it are accounted for. -/
theorem accounted_bracketed {opening closing : Symbol} {failure : Expr Opcode}
    (hopening : opening.isPlain = true) (hmute : opening.isMute = true)
    (hclosing : closing.isClosing = true) (hmute' : closing.isMute = true)
    (hnonempty : opening.canBeEmpty = false)
    (hfollows : ∀ {pos rest n nodes}, ProperMatch (ref closing) pos rest n nodes →
      Follows closers pos rest)
    (hinner : AlternationsAccounted rest.length)
    (h : ProperMatch (.cat [ref opening, ref .alternation, .alt [ref closing]]) pos rest n nodes) :
    Accounted (.cat [ref opening, ref .alternation, .alt [ref closing, failure]]) pos rest n
      nodes := by
  obtain ⟨n₁, _, _, _, h₁, h', rfl, rfl⟩ := matches_cat_cons_iff.1 h
  obtain ⟨n₂, _, n₃, _, h₂, h₃, rfl, rfl⟩ := matches_cat_cons_iff.1 h'
  have hclose := matches_cat_singleton_iff.1 h₃
  simp only [matches_alt_cons_iff, not_matches_alt_nil, and_false, or_false] at hclose
  have hpos := pos_of_properMatch (isNullable_ref.trans hnonempty) h₁
  have hle := h₁.le_length
  refine .cat_cons ?_ (.cat_cons ?_ (.cat_singleton (.altHit ?_)))
  · exact (Faithful.of_isMute hmute).accounted (.of_plain (among_index.trans hopening) h₁)
  · refine hinner _ _ _ _ ?_ h₂ (hfollows hclose)
    rw [List.length_drop]
    omega
  · exact (Faithful.of_isMute hmute').accounted (cleanMatch_closing hclosing hclose)

theorem accounted_group (hinner : AlternationsAccounted rest.length)
    (h : ProperMatch (ref .group) pos rest n nodes) : Accounted (ref .group) pos rest n nodes := by
  refine .ref rfl h fun inner h => ?_
  exact accounted_bracketed rfl rfl rfl rfl rfl (follows_of_closing 41 rfl rfl (by decide)) hinner h

theorem accounted_option (hinner : AlternationsAccounted rest.length)
    (h : ProperMatch (ref .option) pos rest n nodes) :
    Accounted (ref .option) pos rest n nodes := by
  refine .ref rfl h fun inner h => ?_
  exact accounted_bracketed rfl rfl rfl rfl rfl (follows_of_closing 93 rfl rfl (by decide)) hinner h

/-- An operator in front of an element is never given up, since the element matches. -/
theorem accounted_repetition (hinner : AlternationsAccounted rest.length)
    (h : ProperMatch (ref .repetition) pos rest n nodes) :
    Accounted (ref .repetition) pos rest n nodes := by
  refine .ref rfl h fun inner h => ?_
  obtain ⟨n₁, _, _, _, h₁, h', rfl, rfl⟩ := matches_cat_cons_iff.1 h
  refine .cat_cons (faithful_operators.accounted (.of_plain rfl h₁)) (.cat_singleton ?_)
  have h₂ : ProperMatch (.alt [ref .group, ref .option, ref .basicElement]) _ _ _ _ :=
    matches_cat_singleton_iff.1 h'
  simp only [matches_alt_cons_iff, not_matches_alt_nil, and_false, or_false] at h₂
  have hinner := hinner.drop n₁
  rcases h₂ with hgroup | ⟨-, hoption | ⟨-, hbasic⟩⟩
  · exact .altHit (accounted_group hinner hgroup)
  · refine .altMiss ?_ (.altHit (accounted_option hinner hoption))
    exact unseen_of_quiet (quiet_of_proper (excludes_of_mem (by decide)) hoption)
  · refine .altMiss ?_ (.altMiss ?_ (.altHit ?_))
    · exact unseen_of_quiet (quiet_of_proper (excludes_of_mem (by decide)) hbasic)
    · exact unseen_of_quiet (quiet_of_proper (excludes_of_mem (by decide)) hbasic)
    · exact faithful_basicElement.accounted (cleanMatch_basicElement hbasic)

/-- The elements of a concatenation behind the first. -/
theorem accounted_moreElements (hinner : AlternationsAccounted rest.length)
    (h : ProperMatch (many (.cat [ref .catOp, ref .repetition])) pos rest n nodes)
    (hfollows : Follows (47 :: closers) (pos + n) (rest.drop n)) :
    Accounted (many (.cat [ref .catOp, ref .repetition])) pos rest n nodes := by
  induction h using Matches.many_induction with
  | done hfail =>
    refine .many_done ?_
    rcases fails_cat_cons_iff.1 hfail with hwsp | ⟨w, nodes', hwsp, -⟩
    · exact .cat_cons ((Faithful.of_mute rfl).unseen (.of_plain rfl hwsp))
    · -- No operator stands behind the white space, where it would be given up.
      have hwsp := CleanMatch.of_plain rfl hwsp
      obtain ⟨m, _, byte, howsp, hhead, hbyte⟩ := hfollows
      obtain ⟨_, howsp'⟩ := owsp_of_catOp hwsp
      cases (howsp.unique howsp').1
      refine .cat_next rfl hwsp (.cat_cons (unseen_of_quiet ?_))
      rw [List.drop_zero] at hhead
      rw [hhead]
      exact repetition_isQuiet byte hbyte
  | empty hempty => exact absurd (pos_of_properMatch rfl hempty) (by simp)
  | next hfirst _ ih =>
    refine .many_next ?_ (ih (hinner.drop _) ?_)
    · obtain ⟨n₁, _, _, _, h₁, h₂, hn, rfl⟩ := matches_cat_cons_iff.1 hfirst
      rw [hn]
      refine .cat_cons ((Faithful.of_mute rfl).accounted (.of_plain rfl h₁)) (.cat_singleton ?_)
      exact accounted_repetition (hinner.drop _) (matches_cat_singleton_iff.1 h₂)
    · rwa [List.drop_drop, Nat.add_assoc]

theorem accounted_concatenation (hinner : AlternationsAccounted rest.length)
    (h : ProperMatch (ref .concatenation) pos rest n nodes)
    (hfollows : Follows (47 :: closers) (pos + n) (rest.drop n)) :
    Accounted (ref .concatenation) pos rest n nodes := by
  refine .ref rfl h fun inner h => ?_
  obtain ⟨n₁, _, _, _, h₁, h₂, rfl, rfl⟩ := matches_cat_cons_iff.1 h
  refine .cat_cons (accounted_repetition hinner h₁) (.cat_singleton ?_)
  refine accounted_moreElements (hinner.drop _) (matches_cat_singleton_iff.1 h₂) ?_
  rwa [List.drop_drop, Nat.add_assoc]

/-- The alternatives behind the first. -/
theorem accounted_moreAlternatives (hinner : AlternationsAccounted rest.length)
    (h : ProperMatch (many (.cat [ref .owsp, ref .altOp, ref .concatenation])) pos rest n nodes)
    (hfollows : Follows closers (pos + n) (rest.drop n)) :
    Accounted (many (.cat [ref .owsp, ref .altOp, ref .concatenation])) pos rest n nodes := by
  induction h using Matches.many_induction with
  | done =>
    obtain ⟨w, nodes', byte, howsp, hhead, hbyte⟩ := hfollows
    refine .many_done (.cat_next rfl howsp (.cat_cons (unseen_of_quiet ?_)))
    rw [List.drop_zero] at hhead
    rw [hhead]
    exact altOp_isQuiet byte hbyte
  | empty hempty => exact absurd (pos_of_properMatch rfl hempty) (by simp)
  | @next pos rest m _ n _ hfirst hmore ih =>
    have hfollows : Follows closers (pos + (m + 1) + n) ((rest.drop (m + 1)).drop n) := by
      rwa [List.drop_drop, Nat.add_assoc]
    refine .many_next ?_ (ih (hinner.drop _) hfollows)
    obtain ⟨k₁, _, _, _, h₁, h', hn, rfl⟩ := matches_cat_cons_iff.1 hfirst
    obtain ⟨k₂, _, k₃, _, h₂, h₃, rfl, rfl⟩ := matches_cat_cons_iff.1 h'
    have hnext := follows_moreAlternatives hmore hfollows
    rw [hn] at hnext ⊢
    refine .cat_cons ((Faithful.of_mute rfl).accounted (.of_plain rfl h₁)) ?_
    refine .cat_cons ((Faithful.of_mute rfl).accounted (.of_plain rfl h₂)) (.cat_singleton ?_)
    refine accounted_concatenation ((hinner.drop _).drop _) (matches_cat_singleton_iff.1 h₃) ?_
    rwa [List.drop_drop, List.drop_drop, Nat.add_assoc, Nat.add_assoc]

theorem accounted_alternation (h : ProperMatch (ref .alternation) pos rest n nodes)
    (hfollows : Follows closers (pos + n) (rest.drop n)) :
    Accounted (ref .alternation) pos rest n nodes := by
  suffices hall : ∀ length, AlternationsAccounted length from
    hall (rest.length + 1) pos n rest nodes (Nat.lt_succ_self _) h hfollows
  intro length
  induction length with
  | zero => exact fun _ _ _ _ hlt => absurd hlt (Nat.not_lt_zero _)
  | succ length ih =>
    intro pos n rest nodes hlt h hfollows
    have hinner : AlternationsAccounted rest.length := fun pos n rest' nodes hlt' =>
      ih pos n rest' nodes (by omega)
    refine .ref rfl h fun inner h => ?_
    obtain ⟨n₁, _, n₂, _, h₁, h', rfl, rfl⟩ := matches_cat_cons_iff.1 h
    have h₂ := matches_cat_singleton_iff.1 h'
    have hfollows : Follows closers (pos + n₁ + n₂) ((rest.drop n₁).drop n₂) := by
      rwa [List.drop_drop, Nat.add_assoc]
    refine .cat_cons ?_ (.cat_singleton ?_)
    · exact accounted_concatenation hinner h₁ (follows_moreAlternatives h₂ hfollows)
    · exact accounted_moreAlternatives (hinner.drop _) h₂ hfollows

/-! ## Lines -/

theorem accounted_rule (h : ProperMatch (ref .rule) pos rest n nodes) :
    Accounted (ref .rule) pos rest n nodes := by
  refine .ref rfl h fun inner h => ?_
  obtain ⟨n₁, _, _, _, h₁, hrest, rfl, rfl⟩ := matches_cat_cons_iff.1 h
  obtain ⟨n₂, _, _, _, h₂, hrest₂, rfl, rfl⟩ := matches_cat_cons_iff.1 hrest
  obtain ⟨n₃, _, _, _, h₃, hrest₃, rfl, rfl⟩ := matches_cat_cons_iff.1 hrest₂
  have hend : ProperMatch (.alt [.cat [ref .owsp, ref .lineEnd]]) _ _ _ _ :=
    matches_cat_singleton_iff.1 hrest₃
  simp only [matches_alt_cons_iff, not_matches_alt_nil, and_false, or_false] at hend
  refine .cat_cons ?_ (.cat_cons ?_ (.cat_cons ?_ (.cat_singleton (.altHit ?_))))
  · exact (Faithful.of_mute rfl).accounted (cleanMatch_ruleLookup h₁)
  · exact (Faithful.of_mute rfl).accounted (.of_plain rfl h₂)
  · refine accounted_alternation h₃ ?_
    obtain ⟨_, _, _, _, howsp, hlineEnd, -, -⟩ := matches_cat_cons_iff.1 hend
    exact follows_of_proper lineEnd_isProperlyQuiet howsp (matches_cat_singleton_iff.1 hlineEnd)
  · exact (Faithful.of_mute rfl).accounted (.of_plain rfl hend)

/-- The lines of a file, when they go to its end. -/
theorem accounted_lines
    (h : ProperMatch (many (.alt [ref .blankLine, ref .rule])) pos rest n nodes)
    (hn : n = rest.length) :
    Accounted (many (.alt [ref .blankLine, ref .rule, ref .ruleError])) pos rest n nodes := by
  induction h using Matches.many_induction with
  | done =>
    cases List.eq_nil_of_length_eq_zero hn.symm
    refine .many_done (.alt_cons ?_ (.alt_cons ?_ (.alt_cons ?_ unseen_alt_nil)))
    · exact unseen_of_quiet (by decide)
    · exact unseen_of_quiet (by decide)
    · exact unseen_of_quiet (by decide)
  | empty hempty => exact absurd (pos_of_properMatch rfl hempty) (by simp)
  | next hfirst _ ih =>
    refine .many_next ?_ (ih ?_)
    · simp only [matches_alt_cons_iff, not_matches_alt_nil, and_false, or_false] at hfirst
      rcases hfirst with hblank | ⟨hblank, hrule⟩
      · exact .altHit ((Faithful.of_mute rfl).accounted (.of_plain rfl hblank))
      · refine .altMiss ?_ (.altHit (accounted_rule hrule))
        exact (Faithful.of_mute rfl).unseen (.of_plain rfl hblank)
    · rw [List.length_drop]
      omega

/-- A text that matches as a whole without error alternatives shows just the extensions among its
phrases. -/
theorem accounted_file (h : ProperMatch (ref .file) pos rest rest.length nodes) :
    Accounted (ref .file) pos rest rest.length nodes :=
  .ref rfl h fun _ h => accounted_lines h rfl

end

/-! ## Order -/

/-- Extensions in a text stand one behind the other, between two offsets. -/
structure InOrder (low high : Nat) (found : List (Nat × Extension)) : Prop where
  pairwise : (found.map Prod.fst).Pairwise (· < ·)
  bounds : ∀ entry ∈ found, low ≤ entry.1 ∧ entry.1 < high

theorem InOrder.nil {low high : Nat} : InOrder low high [] :=
  ⟨by simp, by simp⟩

theorem InOrder.append {low middle high : Nat} {found found' : List (Nat × Extension)}
    (h : InOrder low middle found) (h' : InOrder middle high found') (hlow : low ≤ middle)
    (hhigh : middle ≤ high) : InOrder low high (found ++ found') := by
  refine ⟨?_, fun entry hentry => ?_⟩
  · rw [List.map_append, List.pairwise_append]
    refine ⟨h.pairwise, h'.pairwise, fun a ha b hb => ?_⟩
    obtain ⟨x, hx, rfl⟩ := List.mem_map.1 ha
    obtain ⟨y, hy, rfl⟩ := List.mem_map.1 hb
    exact Nat.lt_of_lt_of_le (h.bounds x hx).2 (h'.bounds y hy).1
  · rcases List.mem_append.1 hentry with hentry | hentry
    · have := h.bounds entry hentry
      omega
    · have := h'.bounds entry hentry
      omega

/-- The extensions among the phrases of a match are in order, and within the match. -/
theorem inOrder_extensions {e : Expr Opcode} {pos : Nat} {rest : List UInt8} {result : Option Nat}
    {nodes : List Node} {events : List Event} (h : Run scheme e pos rest result nodes events) :
    InOrder pos (pos + result.getD 0) (extensions nodes) := by
  induction h with
  | leaf | altNil | catNil | catMiss | repDone | repMiss | and | not => exact .nil
  | @rule r body pos rest result nodes events hbody h ih =>
    cases result with
    | none => exact .nil
    | some n =>
      obtain ⟨s, hs, rfl⟩ := Option.map_eq_some_iff.1 hbody
      cases index_of_ofIndex? hs
      cases hextension : s.extension? with
      | none => rwa [extensions_wrap_of_none hextension]
      | some x =>
        obtain ⟨hn, hnode⟩ := extensions_wrap_of_some hextension h
        rw [hnode]
        refine ⟨by simp, fun entry hentry => ?_⟩
        rw [List.mem_singleton.1 hentry, Option.getD_some]
        omega
  | altHit _ ih => exact ih
  | altMiss _ _ _ ih => exact ih
  | @catNext _ _ _ _ _ _ _ result _ _ _ _ ih₁ ih₂
  | @repNext _ _ _ _ _ _ _ _ result _ _ _ _ _ ih₁ ih₂ =>
    cases result with
    | none => exact .nil
    | some n =>
      rw [Option.isSome_some, if_pos rfl, extensions_append, Option.map_some, Option.getD_some]
      exact ih₁.append (Nat.add_assoc _ _ n ▸ ih₂) (Nat.le_add_right _ _) (by simp)
  | repEmpty _ _ ih =>
    split
    · refine ⟨ih.pairwise, fun entry hentry => ?_⟩
      have := ih.bounds entry hentry
      simp only [Option.getD_some] at this
      omega
    · exact .nil

end Abnf.Metagrammar
