import Abnf.Proofs.Engine.Evaluation

/-!
# Matches are derivations

The phrases that an opcode of a table derives, said without the engine: a choice derives what one
of its operands does, a sequence and a repetition what their parts derive in a row, and look-ahead
and anchors the empty phrase. What the engine matches is derived. It does not match everything that
is derived: the first alternative that matches is taken, and a repetition takes all it can.

* `Derives`: the phrases that an opcode derives.
* `count_lt_of_repeated`: the number of iterations of an opcode fits in 32 bits.
* `matched_derives`: the bytes that an opcode or a rule matches are derived from it.
-/

namespace Abnf

/-! ## Derivations -/

/-- `Derives rules rule op phrase`: opcode `op` of the rule derives the phrase. -/
inductive Derives (rules : Array Rule) : (rule op : Nat) → List UInt8 → Prop where
  | alt {rule op children child phrase} (hop : opcodeAt? rules rule op = some (.alt children))
      (hmem : child ∈ children) (h : Derives rules rule child phrase) : Derives rules rule op phrase
  | cat {rule op} {parts : List (Nat × List UInt8)}
      (hop : opcodeAt? rules rule op = some (.cat (parts.map Prod.fst)))
      (h : ∀ part ∈ parts, Derives rules rule part.1 part.2) :
      Derives rules rule op (parts.flatMap Prod.snd)
  | rep {rule op min max} {phrases : List (List UInt8)}
      (hop : opcodeAt? rules rule op = some (.rep min max))
      (h : ∀ phrase ∈ phrases, Derives rules rule (op + 1) phrase)
      (hmin : min.toNat ≤ phrases.length) (hmax : ∀ m ∈ max, phrases.length ≤ m.toNat) :
      Derives rules rule op phrases.flatten
  | rnm {rule op target phrase} (hop : opcodeAt? rules rule op = some (.rnm target))
      (h : Derives rules target 0 phrase) : Derives rules rule op phrase
  | empty {rule op opcode} (hop : opcodeAt? rules rule op = some opcode)
      (h : opcode ∈ [.and, .not, .abg, .aen]) : Derives rules rule op []
  | tbs {rule op phrase} (hop : opcodeAt? rules rule op = some (.tbs (phrase.map UInt8.toUInt32))) :
      Derives rules rule op phrase
  | tls {rule op phrase}
      (hop : opcodeAt? rules rule op =
        some (.tls (phrase.map fun byte => (Engine.lowerByte byte).toUInt32))) :
      Derives rules rule op phrase
  | trg {rule op min max} {byte : UInt8} (hop : opcodeAt? rules rule op = some (.trg min max))
      (hmin : min ≤ byte.toUInt32) (hmax : byte.toUInt32 ≤ max) : Derives rules rule op [byte]

/-- Only rules of the table derive anything. -/
theorem Derives.exists_rule {rules : Array Rule} {r op : Nat} {phrase : List UInt8}
    (h : Derives rules r op phrase) : ∃ rule, rules[r]? = some rule := by
  obtain ⟨opcode, hop⟩ : ∃ opcode, opcodeAt? rules r op = some opcode := by
    cases h <;> exact ⟨_, ‹_›⟩
  obtain ⟨rule, hrule, -⟩ := Option.bind_eq_some_iff.1 hop
  exact ⟨rule, hrule⟩

namespace Engine

variable {σ : Type} {rules : Array Rule} {watch : Watch σ} {input : Array UInt8}

/-! ## Phrases of tasks -/

/-- What it means that a task has matched a phrase: an opcode and a rule derive it, and what is left
of an operator is derived by the operands that it is made of. -/
def Task.Yields (rules : Array Rule) (phrase : List UInt8) : Task → Prop
  | .opcode r op => Derives rules r op phrase
  | .rule r => Derives rules r 0 phrase
  | .choice r children => ∃ child ∈ children, Derives rules r child phrase
  | .sequence r children =>
    ∃ parts : List (Nat × List UInt8), parts.map Prod.fst = children ∧
      (∀ part ∈ parts, Derives rules r part.1 part.2) ∧ phrase = parts.flatMap Prod.snd
  | .iterations r op min max count =>
    ∃ phrases : List (List UInt8), (∀ part ∈ phrases, Derives rules r op part) ∧
      min.toNat ≤ count + phrases.length ∧ (∀ m ∈ max, phrases.length ≤ m.toNat - count) ∧
      phrase = phrases.flatten

theorem derives_of_terminalResult? {rule op pos n : Nat} {opcode : Opcode}
    (hop : opcodeAt? rules rule op = some opcode)
    (h : terminalResult? input pos opcode = some (some n)) :
    Derives rules rule op (phraseAt input pos n) := by
  cases opcode with
  | abg | aen =>
    rw [terminalResult?, Option.some.injEq] at h
    split at h
    · cases h
      exact .empty hop (by decide)
    · cases h
  | tbs =>
    obtain ⟨-, rfl⟩ := literal_eq_some (Option.some.inj h)
    exact .tbs hop
  | tls =>
    obtain ⟨-, rfl⟩ := literal_eq_some (Option.some.inj h)
    exact .tls hop
  | trg =>
    obtain ⟨-, byte, hbyte, hmin, hmax⟩ := inRange_eq_some (Option.some.inj h)
    rw [hbyte]
    exact .trg hop hmin hmax
  | _ => cases h

/-- The end of a repetition yields what its last iterations do. -/
theorem Task.yields_enough (phrases : List (List UInt8)) {rule op count pos n : Nat} {min : UInt32}
    {max : Option UInt32} (h : ∀ part ∈ phrases, Derives rules rule op part)
    (hmax : ∀ m ∈ max, phrases.length ≤ m.toNat - count) (hflat : phrases.flatten = [])
    (henough : enough min (count + phrases.length) = some n) :
    (Task.iterations rule op min max count).Yields rules (phraseAt input pos n) := by
  obtain ⟨hmin, rfl⟩ := enough_eq_some henough
  exact ⟨phrases, h, hmin, hmax, hflat.symm⟩

/-! ## Evaluations -/

/-- What a task matches is within the input and is derived. -/
theorem Evaluates.yields {task : Task} {pos n : Nat} {state after : State σ} {result : Option Nat}
    (h : Evaluates rules watch input task pos state result after) (hresult : result = some n) :
    n ≤ input.size - pos ∧ task.Yields rules (phraseAt input pos n) := by
  -- By induction on the evaluation; what a look-ahead finds is no part of what it matches.
  induction h generalizing n with
  | terminal hop h =>
    subst hresult
    exact ⟨terminalResult?_length h, derives_of_terminalResult? hop h⟩
  | alt hop _ ih =>
    obtain ⟨hlength, child, hmem, hchild⟩ := ih hresult
    exact ⟨hlength, Derives.alt hop hmem hchild⟩
  | cat hop _ ih =>
    obtain ⟨hlength, parts, rfl, hparts, hphrase⟩ := ih hresult
    rw [hphrase]
    exact ⟨hlength, Derives.cat hop hparts⟩
  | rep hop _ ih =>
    obtain ⟨hlength, phrases, hphrases, hmin, hmax, hphrase⟩ := ih hresult
    rw [Nat.zero_add] at hmin
    rw [hphrase]
    exact ⟨hlength, Derives.rep hop hphrases hmin hmax⟩
  | rnm hop _ ih =>
    obtain ⟨hlength, hrule⟩ := ih hresult
    exact ⟨hlength, Derives.rnm hop hrule⟩
  | and hop =>
    obtain ⟨_, -, rfl⟩ := Option.map_eq_some_iff.1 hresult
    exact ⟨Nat.zero_le _, Derives.empty hop (by decide)⟩
  | not hop =>
    split at hresult
    · cases hresult
    · cases hresult
      exact ⟨Nat.zero_le _, Derives.empty hop (by decide)⟩
  | rule _ _ ih => exact ih hresult
  | choiceNil => cases hresult
  | choiceHit _ ih =>
    obtain ⟨hlength, hchild⟩ := ih hresult
    exact ⟨hlength, _, List.mem_cons_self, hchild⟩
  | choiceMiss _ _ _ ih =>
    obtain ⟨hlength, child, hmem, hchild⟩ := ih hresult
    exact ⟨hlength, child, List.mem_cons_of_mem _ hmem, hchild⟩
  | sequenceNil =>
    cases hresult
    exact ⟨Nat.zero_le _, [], rfl, by simp, rfl⟩
  | sequenceMiss => cases hresult
  | @sequenceNext _ child _ pos _ first _ _ _ _ _ ih₁ ih₂ =>
    obtain ⟨more, rfl, rfl⟩ := Option.map_eq_some_iff.1 hresult
    obtain ⟨hfirst, hchild⟩ := ih₁ rfl
    obtain ⟨hrest, parts, rfl, hparts, hphrase⟩ := ih₂ rfl
    refine ⟨by omega, (child, phraseAt input pos first) :: parts, rfl,
      List.forall_mem_cons.2 ⟨hchild, hparts⟩, ?_⟩
    rw [phraseAt_add, hphrase, List.flatMap_cons]
  | iterationsDone | iterationsMiss =>
    obtain ⟨-, rfl⟩ := enough_eq_some hresult
    exact ⟨Nat.zero_le _, Task.yields_enough [] (by simp) (by simp) rfl hresult⟩
  | iterationsEmpty hmore _ ih =>
    obtain ⟨-, rfl⟩ := enough_eq_some hresult
    -- An iteration that matches nothing is the last one, but it counts.
    refine ⟨Nat.zero_le _, Task.yields_enough [[]] ?_ ?_ rfl hresult⟩
    · intro part hpart
      obtain rfl := List.mem_singleton.1 hpart
      exact (ih rfl).2
    · intro m hm
      exact Nat.sub_pos_of_lt (hmore m hm)
  | @iterationsNext _ _ _ _ pos _ first _ _ _ _ hmore _ _ ih₁ ih₂ =>
    obtain ⟨more, rfl, rfl⟩ := Option.map_eq_some_iff.1 hresult
    obtain ⟨hfirst, hchild⟩ := ih₁ rfl
    obtain ⟨hrest, phrases, hphrases, hmin, hmax, hphrase⟩ := ih₂ rfl
    refine ⟨by omega, phraseAt input pos (first + 1) :: phrases,
      List.forall_mem_cons.2 ⟨hchild, hphrases⟩, ?_, fun m hm => ?_, ?_⟩
    · rw [List.length_cons]
      omega
    · have hlast := hmax m hm
      have hfirst := hmore m hm
      rw [List.length_cons]
      omega
    · rw [phraseAt_add, hphrase, List.flatten_cons]

/-- The bytes that an opcode or a rule matches are within the input and are derived from it. -/
theorem matched_derives (depth rule pos n : Nat) (state after : State σ) :
    (∀ op, evaluate rules watch input depth rule op pos state = .ok (some n, after) →
      n ≤ input.size - pos ∧ Derives rules rule op (phraseAt input pos n)) ∧
      (enterRule watch rule pos (evaluate rules watch input depth rule 0 pos) state =
          .ok (some n, after) →
        n ≤ input.size - pos ∧ Derives rules rule 0 (phraseAt input pos n)) :=
  ⟨fun _ hok => (evaluates_of_evaluate hok).yields rfl,
    fun hok => (evaluates_of_enterRule hok).yields rfl⟩

/-! ## Counts -/

/-- A loop counts one iteration for each byte at most, and one more that matches nothing. -/
theorem count_le_of_repeated {body : Nat → State σ → Except Fault (Outcome σ)}
    {max : Option UInt32} {size pos budget count length count' length' : Nat} {state after : State σ}
    (hbody : ∀ {pos state n after}, body pos state = .ok (some n, after) → n ≤ size - pos)
    (hok : repeated body max pos budget count length state = .ok (count', length', after)) :
    count' ≤ count + (size - (pos + length)) + 1 := by
  induction budget generalizing count length state with
  | zero => cases hok
  | succ budget ih =>
    rw [repeated] at hok
    split at hok
    · obtain ⟨⟨found, next⟩, hfirst, hok⟩ := exists_of_bind_eq_ok hok
      rcases found with _ | _ | more
      · cases hok
        omega
      · cases hok
        omega
      · have hmore := hbody hfirst
        have hrest := ih hok
        omega
    · cases hok
      omega

/-- The number of iterations of an opcode fits in 32 bits. -/
theorem count_lt_of_repeated {max : Option UInt32} {depth r op pos budget count length : Nat}
    {state after : State σ} (hsize : input.size + 1 < UInt32.size)
    (hok : repeated (evaluate rules watch input depth r op) max pos budget 0 0 state =
      .ok (count, length, after)) : count < UInt32.size := by
  have hcount := count_le_of_repeated (fun hok => ((evaluates_of_evaluate hok).yields rfl).1) hok
  omega

/-- `s = 1*2("a" s / %d48-57)`. -/
def nestedDigits : Array Rule :=
  #[⟨"s", 0, #[.rep 1 (some 2), .alt [2, 5], .cat [3, 4], .tls [97], .rnm 0, .trg 48 57]⟩]

/-- The bytes `A1A2` are matched by one iteration that goes two levels deep. -/
theorem matched_derives_nested :
    ∃ after, enterRule (.log [] []) 0 1
        (evaluate nestedDigits (.log [] []) #[32, 65, 49, 65, 50, 32] 12 0 0 1) ⟨#[], #[]⟩ =
        .ok (some 4, after) ∧
      Derives nestedDigits 0 0 [65, 49, 65, 50] := by
  have hok : (enterRule (.log [] []) 0 1
      (evaluate nestedDigits (.log [] []) #[32, 65, 49, 65, 50, 32] 12 0 0 1)
      ⟨#[], #[]⟩).toOption.map Prod.fst = some (some 4) := by
    decide +kernel
  obtain ⟨⟨result, after⟩, hok, rfl⟩ := Option.map_eq_some_iff.1 hok
  have hok := eq_ok_of_toOption hok
  exact ⟨after, hok, ((matched_derives 12 0 1 4 _ after).2 hok).2⟩

end Engine

end Abnf
