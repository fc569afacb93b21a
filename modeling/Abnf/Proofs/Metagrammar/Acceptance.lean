import Abnf.Proofs.Metagrammar.Lookahead

/-!
# Recognition accepts exactly the proper texts

What matches without error alternatives also matches with them, and raises no alarm on the way:
where an error alternative could divert the match, the bytes that follow forbid it. Together with
the converse this gives `recognize_flawless_iff`.
-/

namespace Abnf.Metagrammar

open Engine
open scoped Decisions

variable {pos n : Nat} {rest : List UInt8} {nodes : List Node}

/-- Whether no byte can begin both `s` and, without error alternatives, `t`. -/
def Symbol.Excludes (s t : Symbol) : Prop :=
  ∀ byte, (s.isQuiet byte || t.isProperlyQuiet byte) = true

theorem quiet_of_proper {s t : Symbol} (hst : s.Excludes t)
    (h : ProperMatch (ref t) pos rest n nodes) : s.isQuiet rest.head? = true := by
  have hbyte := hst rest.head?
  rwa [not_properlyQuiet h, Bool.or_false] at hbyte

theorem cleanFail_of_proper {s t : Symbol} (hst : s.Excludes t)
    (h : ProperMatch (ref t) pos rest n nodes) : CleanFail (ref s) pos rest :=
  cleanFail_of_quiet (quiet_of_proper hst h)

/-! ## References and sequences -/

/-- Whether a symbol raises an alarm only if it fails. -/
def Symbol.isCalmUnlessFailed (s : Symbol) : Bool :=
  !s.isAlarm .active && !s.isAlarm .matched && !s.isAlarm .empty

theorem CleanMatch.ref {s : Symbol} (hs : s.isCalmUnlessFailed = true)
    (h : ProperMatch (ref s) pos rest n nodes)
    (hbody : ∀ inner, ProperMatch s.properBody pos rest n inner →
      CleanMatch s.body pos rest n inner) : CleanMatch (ref s) pos rest n nodes := by
  obtain ⟨-, -, inner, hinner, rfl⟩ := (matches_rule_iff (properScheme_body s)).1 h
  simp only [Symbol.isCalmUnlessFailed, Bool.and_eq_true, Bool.not_eq_true'] at hs
  refine (matches_rule_iff (scheme_body s)).2 ⟨?_, ?_, inner, hbody inner hinner, rfl⟩
  · intro t ht
    cases (Symbol.ofIndex?_index s).symm.trans ht
    exact hs.1.1
  · intro t ht
    cases (Symbol.ofIndex?_index s).symm.trans ht
    cases n with
    | zero => exact hs.2
    | succ n => exact hs.1.2

theorem CleanMatch.cat {e e' : Expr Opcode} {es es' : List (Expr Opcode)}
    (h : ProperMatch (.cat (e :: es)) pos rest n nodes)
    (hparts : ∀ n₁ nodes₁ n₂ nodes₂, ProperMatch e pos rest n₁ nodes₁ →
      ProperMatch (.cat es) (pos + n₁) (rest.drop n₁) n₂ nodes₂ → n = n₁ + n₂ →
      CleanMatch e' pos rest n₁ nodes₁ ∧
        CleanMatch (.cat es') (pos + n₁) (rest.drop n₁) n₂ nodes₂) :
    CleanMatch (.cat (e' :: es')) pos rest n nodes := by
  obtain ⟨n₁, nodes₁, n₂, nodes₂, h₁, h₂, rfl, rfl⟩ := matches_cat_cons_iff.1 h
  obtain ⟨h₁, h₂⟩ := hparts n₁ nodes₁ n₂ nodes₂ h₁ h₂ rfl
  exact matches_cat_cons_iff.2 ⟨n₁, nodes₁, n₂, nodes₂, h₁, h₂, rfl, rfl⟩

theorem CleanMatch.cat_singleton {e e' : Expr Opcode} (h : ProperMatch (.cat [e]) pos rest n nodes)
    (hpart : ProperMatch e pos rest n nodes → CleanMatch e' pos rest n nodes) :
    CleanMatch (.cat [e']) pos rest n nodes :=
  matches_cat_singleton_iff.2 (hpart (matches_cat_singleton_iff.1 h))

/-- Whether a symbol closes a string, a group or an option. -/
def Symbol.isClosing : Symbol → Bool
  | tlsClose | clsClose | groupClose | optionClose => true
  | _ => false

theorem cleanMatch_closing {s : Symbol} (hs : s.isClosing = true)
    (h : ProperMatch (ref s) pos rest n nodes) : CleanMatch (ref s) pos rest n nodes := by
  have hproper : s.properBody = s.body := by
    cases s <;> first | rfl | cases hs
  have hplain : isPlain s.body = true := by
    cases s <;> first | rfl | cases hs
  have hcalm : s.isCalmUnlessFailed = true := by
    cases s <;> first | rfl | cases hs
  refine CleanMatch.ref hcalm h fun inner hinner => ?_
  rw [hproper] at hinner
  exact .of_plain hplain hinner

/-! ## Strings -/

/-- Pairs of symbols of which the first stands no chance where the second one matches. -/
def exclusions : List (Symbol × Symbol) :=
  [(.stringTab, .tlsClose), (.stringTab, .clsClose), (.tlsOp, .clsOp), (.group, .option),
    (.group, .basicElement), (.option, .basicElement)]

theorem excludes_of_mem {s t : Symbol} (h : (s, t) ∈ exclusions) : s.Excludes t := by
  have hnone : ∀ pair ∈ exclusions,
      (pair.1.isQuiet none || pair.2.isProperlyQuiet none) = true := by
    decide
  have hsome : ∀ pair ∈ exclusions, ∀ i : Fin 256,
      (pair.1.isQuiet (some (UInt8.ofNat i)) ||
        pair.2.isProperlyQuiet (some (UInt8.ofNat i))) = true := by
    decide +kernel
  exact forall_byte (hnone _ h) (hsome _ h)

theorem cleanMatch_characters {a b c d : Char}
    (h : ProperMatch (many (.alt [range a b, range c d])) pos rest n nodes)
    (hnext : Symbol.stringTab.isQuiet (rest.drop n).head? = true) :
    CleanMatch (many (stringCharacter a b c d)) pos rest n nodes := by
  have hplain : isPlain (.alt [range a b, range c d]) = true := rfl
  induction h using Matches.many_induction with
  | done hfail =>
    have hfail := CleanFail.of_plain hplain hfail
    simp only [fails_alt_cons_iff] at hfail
    refine .many_done ?_
    simp only [stringCharacter, fails_alt_cons_iff]
    exact ⟨hfail.1, hfail.2.1, cleanFail_of_quiet hnext, fails_alt_nil⟩
  | empty hempty => exact absurd (pos_of_properMatch rfl hempty) (by simp)
  | next hfirst _ ih =>
    have hfirst := CleanMatch.of_plain hplain hfirst
    refine .many_next ?_ (ih ?_)
    · simp only [stringCharacter, matches_alt_cons_iff, not_matches_alt_nil, and_false, or_false]
        at hfirst ⊢
      exact hfirst.imp_right fun h => ⟨h.1, Or.inl h.2⟩
    · rwa [List.drop_drop]

/-- A string that closes. -/
theorem cleanMatch_string {opening characters closing : Symbol} {a b c d : Char}
    (hopening : opening.isPlain = true)
    (hbody : characters.body = many (stringCharacter a b c d))
    (hproper : characters.properBody = many (.alt [range a b, range c d]))
    (hcalm : characters.isCalmUnlessFailed = true)
    (hclosing : closing.isClosing = true)
    (htab : Symbol.stringTab.Excludes closing)
    (h : ProperMatch (.cat [ref opening, ref characters, ref closing]) pos rest n nodes) :
    CleanMatch (.cat [ref opening, ref characters, ref closing]) pos rest n nodes := by
  refine CleanMatch.cat h fun n₁ nodes₁ n₂ nodes₂ h₁ h₂ _ => ⟨?_, ?_⟩
  · exact .of_plain (among_index.trans hopening) h₁
  refine CleanMatch.cat h₂ fun n₂ nodes₂ n₃ nodes₃ h₂ h₃ _ => ?_
  refine ⟨CleanMatch.ref hcalm h₂ fun inner hinner => ?_, ?_⟩
  · rw [hproper] at hinner
    rw [hbody]
    exact cleanMatch_characters hinner
      (quiet_of_proper htab (matches_cat_singleton_iff.1 h₃))
  · exact CleanMatch.cat_singleton h₃ (cleanMatch_closing hclosing)

theorem cleanMatch_tlsOp (h : ProperMatch (ref .tlsOp) pos rest n nodes) :
    CleanMatch (ref .tlsOp) pos rest n nodes := by
  refine CleanMatch.ref rfl h fun inner hinner => ?_
  exact cleanMatch_string rfl rfl rfl rfl rfl (excludes_of_mem (by decide)) hinner

theorem cleanMatch_clsOp (h : ProperMatch (ref .clsOp) pos rest n nodes) :
    CleanMatch (ref .clsOp) pos rest n nodes := by
  refine CleanMatch.ref rfl h fun inner hinner => ?_
  exact cleanMatch_string rfl rfl rfl rfl rfl (excludes_of_mem (by decide)) hinner

/-! ## Elements -/

theorem cleanMatch_basicElement (h : ProperMatch (ref .basicElement) pos rest n nodes) :
    CleanMatch (ref .basicElement) pos rest n nodes := by
  refine CleanMatch.ref rfl h fun inner hinner => ?_
  let plain : List (Expr Opcode) := [ref .udtOp, ref .rnmOp, ref .trgOp, ref .tbsOp, ref .abgOp,
    ref .aenOp, ref .bkrOp]
  have hplain : isPlain (.alt plain) = true := rfl
  have hproper : ProperMatch (.alt (plain ++ [ref .tlsOp, ref .clsOp])) pos rest n inner := hinner
  show CleanMatch (.alt (plain ++ [ref .tlsOp, ref .clsOp, ref .prosVal])) pos rest n inner
  rcases matches_alt_append_iff.1 hproper with hhit | ⟨hmiss, hstring⟩
  · exact matches_alt_append_iff.2 (Or.inl (CleanMatch.of_plain hplain hhit))
  · refine matches_alt_append_iff.2 (Or.inr ⟨CleanFail.of_plain hplain hmiss, ?_⟩)
    simp only [matches_alt_cons_iff, not_matches_alt_nil, and_false, or_false] at hstring ⊢
    rcases hstring with htls | ⟨-, hcls⟩
    · exact Or.inl (cleanMatch_tlsOp htls)
    · exact Or.inr ⟨cleanFail_of_proper (excludes_of_mem (by decide)) hcls,
        Or.inl (cleanMatch_clsOp hcls)⟩

/-! ## What follows -/

/-- Behind any white space stands one of `bytes`. -/
def Follows (bytes : List UInt8) (pos : Nat) (rest : List UInt8) : Prop :=
  ∃ m nodes byte, CleanMatch (ref .owsp) pos rest m nodes ∧ (rest.drop m).head? = some byte ∧
    byte ∈ bytes

/-- What can stand behind the alternatives of a rule, a group or an option. -/
def closers : List UInt8 :=
  [41, 93, 13, 10]

theorem Follows.cons {byte : UInt8} {bytes : List UInt8} (h : Follows bytes pos rest) :
    Follows (byte :: bytes) pos rest := by
  obtain ⟨m, nodes, b, howsp, hhead, hb⟩ := h
  exact ⟨m, nodes, b, howsp, hhead, List.mem_cons_of_mem _ hb⟩

/-- A symbol stands behind some white space, and begins with one of `bytes` only. -/
theorem follows_of_proper {s : Symbol} {bytes : List UInt8} {m : Nat} {nodes' : List Node}
    (hbytes : ∀ byte, (s.isProperlyQuiet byte || byte.any fun b => bytes.contains b) = true)
    (howsp : ProperMatch (ref .owsp) pos rest m nodes')
    (h : ProperMatch (ref s) (pos + m) (rest.drop m) n nodes) : Follows bytes pos rest := by
  have hbyte := hbytes (rest.drop m).head?
  rw [not_properlyQuiet h, Bool.false_or] at hbyte
  obtain ⟨b, hb, hmem⟩ := (Option.any_eq_true _ _).1 hbyte
  exact ⟨m, nodes', b, .of_plain rfl howsp, hb, by simpa using hmem⟩

/-- White space that has to be there is all white space that is there. -/
theorem owsp_of_catOp (h : CleanMatch (ref .catOp) pos rest n nodes) :
    ∃ nodes', CleanMatch (ref .owsp) pos rest n nodes' := by
  obtain ⟨-, -, inner, h, -⟩ := (matches_rule_iff (scheme_body .catOp)).1 h
  obtain ⟨-, -, inner, h, -⟩ := (matches_rule_iff (scheme_body .wsp)).1 h
  have hmany : CleanMatch (many (ref .space)) pos rest n inner := by
    refine matches_many_iff.2 ?_
    exact Or.inr (matches_oneOrMore_iff.1 h)
  have hclean : ∀ {phase offset length}, Clean ⟨Symbol.owsp.index, phase, offset, length⟩ := by
    intro phase offset length t ht
    cases (Symbol.ofIndex?_index .owsp).symm.trans ht
    exact isAlarm_of_isPlain rfl _
  exact ⟨_, (matches_rule_iff (scheme_body .owsp)).2 ⟨hclean, hclean, inner, hmany, rfl⟩⟩

/-! ## Alternatives -/

/-- The claim that proper matches of alternatives are clean, for texts shorter than `length`. -/
def AlternationsClean (length : Nat) : Prop :=
  ∀ pos n rest nodes, rest.length < length → ProperMatch (ref .alternation) pos rest n nodes →
    Follows closers (pos + n) (rest.drop n) → CleanMatch (ref .alternation) pos rest n nodes

theorem AlternationsClean.drop (h : AlternationsClean rest.length) (m : Nat) :
    AlternationsClean (rest.drop m).length := by
  intro pos n rest' nodes hlength
  rw [List.length_drop] at hlength
  exact h pos n rest' nodes (by omega)

/-- A group or an option, when the alternatives in it are clean. -/
theorem cleanMatch_bracketed {opening closing : Symbol} {failure : Expr Opcode}
    (hopening : opening.isPlain = true) (hclosing : closing.isClosing = true)
    (hnonempty : opening.canBeEmpty = false)
    (hproper : ∀ {pos rest n nodes}, ProperMatch (ref closing) pos rest n nodes →
      Follows closers pos rest)
    (hclean : AlternationsClean rest.length)
    (h : ProperMatch (.cat [ref opening, ref .alternation, .alt [ref closing]]) pos rest n nodes) :
    CleanMatch (.cat [ref opening, ref .alternation, .alt [ref closing, failure]]) pos rest n
      nodes := by
  refine CleanMatch.cat h fun n₁ nodes₁ n₂ nodes₂ h₁ h₂ _ => ⟨?_, ?_⟩
  · exact .of_plain (among_index.trans hopening) h₁
  refine CleanMatch.cat h₂ fun n₂ nodes₂ n₃ nodes₃ h₂ h₃ _ => ?_
  have hclose := matches_cat_singleton_iff.1 h₃
  simp only [matches_alt_cons_iff, not_matches_alt_nil, and_false, or_false] at hclose
  have hpos := pos_of_properMatch (isNullable_ref.trans hnonempty) h₁
  have hle := h₁.le_length
  refine ⟨hclean _ _ _ _ ?_ h₂ (hproper hclose), ?_⟩
  · rw [List.length_drop]
    omega
  · refine CleanMatch.cat_singleton h₃ fun _ => ?_
    simp only [matches_alt_cons_iff]
    exact Or.inl (cleanMatch_closing hclosing hclose)

/-- The symbol that closes a group or an option is white space and a bracket. -/
theorem follows_of_closing {s : Symbol} {c : Char} (byte : UInt8)
    (hbody : s.properBody = .cat [ref .owsp, chars [c]]) (hc : c.val = byte.toUInt32)
    (hbyte : byte ∈ closers) (h : ProperMatch (ref s) pos rest n nodes) :
    Follows closers pos rest := by
  obtain ⟨-, -, inner, hinner, rfl⟩ := (matches_rule_iff (properScheme_body s)).1 h
  rw [hbody] at hinner
  obtain ⟨m, nodes', _, _, howsp, hbracket, -, -⟩ := matches_cat_cons_iff.1 hinner
  have hbracket := matches_cat_singleton_iff.1 hbracket
  refine ⟨m, nodes', byte, .of_plain rfl howsp, ?_, hbyte⟩
  have hresult := (hbracket.leafResult? (by simp)).1
  simp only [leafResult?, literalResult, List.map_cons, List.map_nil, hc] at hresult
  cases hrest : rest.drop m with
  | nil => simp [hrest, beginsWith] at hresult
  | cons b bs =>
    rw [hrest] at hresult
    simp only [beginsWith, id_eq, Bool.and_true, beq_iff_eq, UInt8.toUInt32_inj] at hresult
    split at hresult
    · simp [*]
    · simp at hresult

theorem cleanMatch_group (hclean : AlternationsClean rest.length)
    (h : ProperMatch (ref .group) pos rest n nodes) : CleanMatch (ref .group) pos rest n nodes := by
  refine CleanMatch.ref rfl h fun inner hinner => ?_
  exact cleanMatch_bracketed rfl rfl rfl (follows_of_closing 41 rfl rfl (by decide)) hclean hinner

theorem cleanMatch_option (hclean : AlternationsClean rest.length)
    (h : ProperMatch (ref .option) pos rest n nodes) :
    CleanMatch (ref .option) pos rest n nodes := by
  refine CleanMatch.ref rfl h fun inner hinner => ?_
  exact cleanMatch_bracketed rfl rfl rfl (follows_of_closing 93 rfl rfl (by decide)) hclean hinner

theorem cleanMatch_repetition (hclean : AlternationsClean rest.length)
    (h : ProperMatch (ref .repetition) pos rest n nodes) :
    CleanMatch (ref .repetition) pos rest n nodes := by
  refine CleanMatch.ref rfl h fun inner hinner => ?_
  refine CleanMatch.cat hinner fun n₁ nodes₁ n₂ nodes₂ h₁ h₂ _ => ⟨.of_plain rfl h₁, ?_⟩
  refine CleanMatch.cat_singleton h₂ fun h₂ => ?_
  have hclean := hclean.drop n₁
  have h₂ : ProperMatch (.alt [ref .group, ref .option, ref .basicElement]) _ _ _ _ := h₂
  simp only [matches_alt_cons_iff, not_matches_alt_nil, and_false, or_false] at h₂
  simp only [matches_alt_cons_iff]
  rcases h₂ with hgroup | ⟨-, hoption | ⟨-, hbasic⟩⟩
  · exact Or.inl (cleanMatch_group hclean hgroup)
  · exact Or.inr ⟨cleanFail_of_proper (excludes_of_mem (by decide)) hoption,
      Or.inl (cleanMatch_option hclean hoption)⟩
  · exact Or.inr ⟨cleanFail_of_proper (excludes_of_mem (by decide)) hbasic,
      Or.inr ⟨cleanFail_of_proper (excludes_of_mem (by decide)) hbasic,
        Or.inl (cleanMatch_basicElement hbasic)⟩⟩

theorem repetition_isQuiet :
    ∀ byte ∈ 47 :: closers, Symbol.repetition.isQuiet (some byte) = true := by
  decide

theorem altOp_isQuiet : ∀ byte ∈ closers, Symbol.altOp.isQuiet (some byte) = true := by
  decide

theorem altOp_isProperlyQuiet (byte : Option UInt8) :
    (Symbol.altOp.isProperlyQuiet byte || byte.any fun b => (47 :: closers).contains b) = true := by
  revert byte
  exact forall_byte (by decide) (by decide +kernel)

theorem lineEnd_isProperlyQuiet (byte : Option UInt8) :
    (Symbol.lineEnd.isProperlyQuiet byte || byte.any fun b => closers.contains b) = true := by
  revert byte
  exact forall_byte (by decide) (by decide +kernel)

/-- The elements of a concatenation behind the first. -/
theorem cleanMatch_moreElements (hclean : AlternationsClean rest.length)
    (h : ProperMatch (many (.cat [ref .catOp, ref .repetition])) pos rest n nodes)
    (hfollows : Follows (47 :: closers) (pos + n) (rest.drop n)) :
    CleanMatch (many (.cat [ref .catOp, ref .repetition])) pos rest n nodes := by
  induction h using Matches.many_induction with
  | done hfail =>
    refine .many_done (fails_cat_cons_iff.2 ?_)
    rcases fails_cat_cons_iff.1 hfail with hwsp | ⟨w, nodes', hwsp, -⟩
    · exact Or.inl (CleanFail.of_plain rfl hwsp)
    · -- Stray characters behind the white space would match as an element.
      have hwsp := CleanMatch.of_plain rfl hwsp
      obtain ⟨m, _, byte, howsp, hhead, hbyte⟩ := hfollows
      obtain ⟨_, howsp'⟩ := owsp_of_catOp hwsp
      cases (howsp.unique howsp').1
      refine Or.inr ⟨w, nodes', hwsp, fails_cat_cons_iff.2 (Or.inl (cleanFail_of_quiet ?_))⟩
      rw [List.drop_zero] at hhead
      rw [hhead]
      exact repetition_isQuiet byte hbyte
  | empty hempty => exact absurd (pos_of_properMatch rfl hempty) (by simp)
  | next hfirst _ ih =>
    refine .many_next ?_ (ih (hclean.drop _) ?_)
    · refine CleanMatch.cat hfirst fun n₁ nodes₁ n₂ nodes₂ h₁ h₂ _ => ⟨.of_plain rfl h₁, ?_⟩
      exact CleanMatch.cat_singleton h₂ (cleanMatch_repetition (hclean.drop _))
    · rwa [List.drop_drop, Nat.add_assoc]

theorem cleanMatch_concatenation (hclean : AlternationsClean rest.length)
    (h : ProperMatch (ref .concatenation) pos rest n nodes)
    (hfollows : Follows (47 :: closers) (pos + n) (rest.drop n)) :
    CleanMatch (ref .concatenation) pos rest n nodes := by
  refine CleanMatch.ref rfl h fun inner hinner => ?_
  refine CleanMatch.cat hinner fun n₁ nodes₁ n₂ nodes₂ h₁ h₂ hn => ?_
  refine ⟨cleanMatch_repetition hclean h₁, CleanMatch.cat_singleton h₂ fun h₂ => ?_⟩
  refine cleanMatch_moreElements (hclean.drop _) h₂ ?_
  rwa [List.drop_drop, Nat.add_assoc, ← hn]

/-- The alternatives behind the first begin with a slash, if there are any. -/
theorem follows_moreAlternatives
    (h : ProperMatch (many (.cat [ref .owsp, ref .altOp, ref .concatenation])) pos rest n nodes)
    (hfollows : Follows closers (pos + n) (rest.drop n)) : Follows (47 :: closers) pos rest := by
  rcases matches_many_iff.1 h with ⟨rfl, rfl, -⟩ | ⟨rfl, hempty⟩ |
    ⟨m, nodes₁, n₂, nodes₂, hfirst, -, -, -⟩
  · exact hfollows.cons
  · exact absurd (pos_of_properMatch rfl hempty) (by simp)
  · obtain ⟨_, _, _, _, howsp, hrest, -, -⟩ := matches_cat_cons_iff.1 hfirst
    obtain ⟨_, _, _, _, haltOp, -, -, -⟩ := matches_cat_cons_iff.1 hrest
    exact follows_of_proper altOp_isProperlyQuiet howsp haltOp

/-- The alternatives behind the first. -/
theorem cleanMatch_moreAlternatives (hclean : AlternationsClean rest.length)
    (h : ProperMatch (many (.cat [ref .owsp, ref .altOp, ref .concatenation])) pos rest n nodes)
    (hfollows : Follows closers (pos + n) (rest.drop n)) :
    CleanMatch (many (.cat [ref .owsp, ref .altOp, ref .concatenation])) pos rest n nodes := by
  induction h using Matches.many_induction with
  | done =>
    obtain ⟨w, nodes', byte, howsp, hhead, hbyte⟩ := hfollows
    refine .many_done (fails_cat_cons_iff.2 (Or.inr ⟨w, nodes', howsp, ?_⟩))
    refine fails_cat_cons_iff.2 (Or.inl (cleanFail_of_quiet ?_))
    rw [List.drop_zero] at hhead
    rw [hhead]
    exact altOp_isQuiet byte hbyte
  | empty hempty => exact absurd (pos_of_properMatch rfl hempty) (by simp)
  | @next pos rest m _ n _ hfirst hmore ih =>
    have hfollows : Follows closers (pos + (m + 1) + n) ((rest.drop (m + 1)).drop n) := by
      rwa [List.drop_drop, Nat.add_assoc]
    refine .many_next ?_ (ih (hclean.drop _) hfollows)
    refine CleanMatch.cat hfirst fun n₁ _ n₂ _ h₁ h₂ hn => ⟨.of_plain rfl h₁, ?_⟩
    refine CleanMatch.cat h₂ fun n₂ _ n₃ _ h₂ h₃ hn' => ⟨.of_plain rfl h₂, ?_⟩
    refine CleanMatch.cat_singleton h₃ fun h₃ => ?_
    refine cleanMatch_concatenation ((hclean.drop _).drop _) h₃ ?_
    rw [List.drop_drop, List.drop_drop, Nat.add_assoc, Nat.add_assoc, ← hn', ← hn]
    exact follows_moreAlternatives hmore hfollows

theorem cleanMatch_alternation (h : ProperMatch (ref .alternation) pos rest n nodes)
    (hfollows : Follows closers (pos + n) (rest.drop n)) :
    CleanMatch (ref .alternation) pos rest n nodes := by
  suffices hall : ∀ length, AlternationsClean length from
    hall (rest.length + 1) pos n rest nodes (Nat.lt_succ_self _) h hfollows
  intro length
  induction length with
  | zero => exact fun _ _ _ _ hlt => absurd hlt (Nat.not_lt_zero _)
  | succ length ih =>
    intro pos n rest nodes hlt h hfollows
    have hclean : AlternationsClean rest.length := fun pos n rest' nodes hlt' =>
      ih pos n rest' nodes (by omega)
    refine CleanMatch.ref rfl h fun inner hinner => ?_
    refine CleanMatch.cat hinner fun n₁ nodes₁ n₂ nodes₂ h₁ h₂ hn => ?_
    have h₂ := matches_cat_singleton_iff.1 h₂
    have hfollows : Follows closers (pos + n₁ + n₂) ((rest.drop n₁).drop n₂) := by
      rwa [List.drop_drop, Nat.add_assoc, ← hn]
    refine ⟨cleanMatch_concatenation hclean h₁ (follows_moreAlternatives h₂ hfollows), ?_⟩
    exact matches_cat_singleton_iff.2 (cleanMatch_moreAlternatives (hclean.drop _) h₂ hfollows)

/-! ## Lines -/

theorem cleanMatch_ruleLookup (h : ProperMatch (ref .ruleLookup) pos rest n nodes) :
    CleanMatch (ref .ruleLookup) pos rest n nodes := by
  refine CleanMatch.ref rfl h fun inner hinner => ?_
  refine CleanMatch.cat hinner fun n₁ _ n₂ _ h₁ h₂ _ => ⟨?_, ?_⟩
  · refine CleanMatch.ref rfl h₁ fun inner hinner => ?_
    have hinner : ProperMatch (.alt [ref .ruleName]) _ _ _ _ := hinner
    simp only [matches_alt_cons_iff, not_matches_alt_nil, and_false, or_false] at hinner
    exact matches_alt_cons_iff.2 (Or.inl (CleanMatch.of_plain rfl hinner))
  · refine CleanMatch.cat h₂ fun n₂ _ n₃ _ h₂ h₃ _ => ⟨.of_plain rfl h₂, ?_⟩
    refine CleanMatch.cat_singleton h₃ fun h₃ => ?_
    refine CleanMatch.ref rfl h₃ fun inner hinner => ?_
    have hinner : ProperMatch (.alt [ref .definedAs]) _ _ _ _ := hinner
    simp only [matches_alt_cons_iff, not_matches_alt_nil, and_false, or_false] at hinner
    exact matches_alt_cons_iff.2 (Or.inl (CleanMatch.of_plain rfl hinner))

theorem cleanMatch_rule (h : ProperMatch (ref .rule) pos rest n nodes) :
    CleanMatch (ref .rule) pos rest n nodes := by
  refine CleanMatch.ref rfl h fun inner hinner => ?_
  refine CleanMatch.cat hinner fun n₁ _ n₂ _ h₁ h₂ _ => ⟨cleanMatch_ruleLookup h₁, ?_⟩
  refine CleanMatch.cat h₂ fun n₂ _ n₃ _ h₂ h₃ _ => ⟨.of_plain rfl h₂, ?_⟩
  refine CleanMatch.cat h₃ fun n₃ _ n₄ _ h₃ h₄ _ => ?_
  have hend : ProperMatch (.alt [.cat [ref .owsp, ref .lineEnd]]) _ _ _ _ :=
    matches_cat_singleton_iff.1 h₄
  simp only [matches_alt_cons_iff, not_matches_alt_nil, and_false, or_false] at hend
  refine ⟨cleanMatch_alternation h₃ ?_, CleanMatch.cat_singleton h₄ fun _ => ?_⟩
  · obtain ⟨_, _, _, _, howsp, hlineEnd, -, -⟩ := matches_cat_cons_iff.1 hend
    exact follows_of_proper lineEnd_isProperlyQuiet howsp (matches_cat_singleton_iff.1 hlineEnd)
  · exact matches_alt_cons_iff.2 (Or.inl (CleanMatch.of_plain rfl hend))

/-- The lines of a file, when they go to its end. -/
theorem cleanMatch_lines
    (h : ProperMatch (many (.alt [ref .blankLine, ref .rule])) pos rest n nodes)
    (hn : n = rest.length) :
    CleanMatch (many (.alt [ref .blankLine, ref .rule, ref .ruleError])) pos rest n nodes := by
  induction h using Matches.many_induction with
  | done =>
    cases List.eq_nil_of_length_eq_zero hn.symm
    refine .many_done ?_
    simp only [fails_alt_cons_iff]
    exact ⟨cleanFail_of_quiet (by decide), cleanFail_of_quiet (by decide),
      cleanFail_of_quiet (by decide), fails_alt_nil⟩
  | empty hempty => exact absurd (pos_of_properMatch rfl hempty) (by simp)
  | next hfirst _ ih =>
    refine .many_next ?_ (ih ?_)
    · simp only [matches_alt_cons_iff, not_matches_alt_nil, and_false, or_false] at hfirst ⊢
      rcases hfirst with hblank | ⟨hblank, hrule⟩
      · exact Or.inl (CleanMatch.of_plain rfl hblank)
      · exact Or.inr ⟨CleanFail.of_plain rfl hblank, Or.inl (cleanMatch_rule hrule)⟩
    · rw [List.length_drop]
      omega

/-- A text that matches as a whole without error alternatives matches without alarm. -/
theorem cleanMatch_file (h : ProperMatch (ref .file) pos rest rest.length nodes) :
    CleanMatch (ref .file) pos rest rest.length nodes :=
  CleanMatch.ref rfl h fun _ hinner => cleanMatch_lines hinner rfl

/-! ## Recognition -/

/-- The run behind a recognition without flaws matches the whole text, raises no alarm and finds a
rule. -/
theorem run_of_flawless {source : Source} {strict : Bool} {recognition : Recognition}
    (hrecognize : recognize source strict = .ok recognition) (hflaws : recognition.flaws = []) :
    ∃ nodes events,
      Run scheme (ref .file) 0 source.bytes.toList (some source.bytes.size) nodes events ∧
      (∀ event ∈ events, Clean event) ∧ source.bytes.size ≠ 0 ∧
      (∃ event ∈ events, FindsRule event) ∧
      recognition.records = (Node.recordsAll 0 nodes).toArray := by
  obtain ⟨result, nodes, events, hrun, heq⟩ := recognize_eq source strict
  rw [hrecognize] at heq
  cases heq
  obtain ⟨hnotes, hunread⟩ := List.append_eq_nil_iff.1 hflaws
  rw [Array.toList_eq_nil_iff] at hnotes
  have hresult : result = some source.bytes.size := by
    by_contra hne
    simp [hne] at hunread
  subst hresult
  obtain ⟨hclean, hne, hrule⟩ := clean_of_flawless hrun hnotes
  exact ⟨nodes, events, hrun, hclean, hne, hrule, rfl⟩

/-- A text without flaws is not empty, matches as a whole without error alternatives, and has a
rule. -/
theorem proper_of_flawless {source : Source} {strict : Bool} {recognition : Recognition}
    (hrecognize : recognize source strict = .ok recognition) (hflaws : recognition.flaws = []) :
    source.bytes.size ≠ 0 ∧ ∃ nodes events,
      Run properScheme (ref .file) 0 source.bytes.toList (some source.bytes.size) nodes events ∧
      (∃ event ∈ events, FindsRule event) ∧
      recognition.records = (Node.recordsAll 0 nodes).toArray := by
  obtain ⟨nodes, events, hrun, hclean, hne, ⟨event, hevent, hrule⟩, hrecords⟩ :=
    run_of_flawless hrecognize hflaws
  obtain ⟨events', hproper, hkeeps⟩ := proper_of_clean hrun rfl hclean
  exact ⟨hne, nodes, events', hproper, ⟨event, hkeeps.rules event hevent hrule, hrule⟩, hrecords⟩

/-- A text that matches as a whole without error alternatives, and has a rule, has no flaws. -/
theorem flawless_of_proper {source : Source} {nodes : List Node} {events : List Event}
    (h : Run properScheme (ref .file) 0 source.bytes.toList (some source.bytes.size) nodes events)
    (hrule : ∃ event ∈ events, FindsRule event) (hne : source.bytes.size ≠ 0) :
    ∃ ruleCount, recognize source false = .ok ⟨[], ruleCount, (Node.recordsAll 0 nodes).toArray⟩ := by
  have hproper : ProperMatch (ref .file) 0 source.bytes.toList source.bytes.toList.length nodes :=
    ⟨events, by rwa [Array.length_toList], fun _ _ => trivial⟩
  obtain ⟨events', hrun, hclean⟩ := cleanMatch_file hproper
  rw [Array.length_toList] at hrun
  have hflaws : (events'.foldl watch.see { strict := false }).flaws = #[] := by
    refine flawless_of_clean hrun hclean hne ?_
    obtain ⟨events'', hrun'', hkeeps⟩ := proper_of_clean hrun rfl hclean
    obtain ⟨-, -, rfl⟩ := h.unique hrun''
    obtain ⟨event, hevent, hfinds⟩ := hrule
    exact ⟨event, hkeeps.subset event hevent, hfinds⟩
  obtain ⟨result, nodes', events'', hrun', heq⟩ := recognize_eq source false
  obtain ⟨rfl, rfl, rfl⟩ := hrun.unique hrun'
  exact ⟨_, by simpa [hflaws] using heq⟩

/-- Recognition objects to a text exactly if the metagrammar without error alternatives does not
match all of it, or matches it without any rule. -/
theorem recognize_accepts_iff (bytes : Array UInt8) :
    ∃ recognition, recognize (.ofBytes bytes) false = .ok recognition ∧
      (recognition.diagnostics (.ofBytes bytes) = [] ↔
        bytes ≠ #[] ∧ ∃ found,
          Engine.trace properRules [] [Symbol.rule.index] Symbol.file.index bytes = .ok found ∧
          found.isComplete bytes = true ∧
          ∃ event ∈ found.observed, event.rule = Symbol.rule.index ∧ event.phase = .matched) := by
  obtain ⟨_, _, _, -, heq⟩ := recognize_eq (.ofBytes bytes) false
  refine ⟨_, heq, ?_⟩
  have hvalid : ∀ s : Symbol, s.properBody.isValid = true :=
    fun s => (isSound_iff.1 (isSound_properBody s)).1
  obtain ⟨result, nodes, events, hrun, htrace⟩ :=
    (descends_schemeOf isSound_properBody _).trace_realizes
      (depicts_schemeOf hvalid (Watch.log [] [Symbol.rule.index])) (schemeOf_body _ _ .file) bytes
      (by simp) (by simp only [Array.size_map]; decide)
  -- The trace records nothing, recognition records phrases: the events are the same.
  obtain ⟨nodes', hproper⟩ :
      ∃ nodes', Run properScheme (ref .file) 0 bytes.toList result nodes' events :=
    hrun.reschedule rfl
  have hobserved : ∀ event, event ∈ (events.filter fun event =>
      [Symbol.rule.index].contains event.rule).toArray ↔
        event ∈ events ∧ event.rule = Symbol.rule.index := by
    simp
  rw [Recognition.diagnostics, List.map_eq_nil_iff]
  constructor
  · intro hflaws
    obtain ⟨hne, _, events', hrun', ⟨event, hevent, hfinds⟩, -⟩ := proper_of_flawless heq hflaws
    obtain ⟨rfl, -, rfl⟩ := hproper.unique hrun'
    refine ⟨fun h => hne (by simp [Source.ofBytes, h]), _, htrace, ?_, event, ?_, hfinds⟩
    · simp [Match.isComplete, Source.ofBytes]
    · exact (hobserved event).2 ⟨hevent, hfinds.1⟩
  · rintro ⟨hne, found, hfound, hcomplete, event, hevent, hfinds⟩
    have hfound := htrace.symm.trans hfound
    cases hfound
    rw [Match.isComplete, beq_iff_eq] at hcomplete
    subst hcomplete
    have hsize : (Source.ofBytes bytes).bytes.size ≠ 0 := by
      simpa [Source.ofBytes] using hne
    obtain ⟨count, hrecognize⟩ :=
      flawless_of_proper hproper ⟨event, ((hobserved event).1 hevent).1, hfinds⟩ hsize
    have hflawless := heq.symm.trans hrecognize
    exact congrArg Recognition.flaws (Except.ok.inj hflawless)

end Abnf.Metagrammar
