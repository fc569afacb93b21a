import Abnf.Proofs.Listing.Reading

/-!
# Lines of listings

A listing is made of lines. The comments in it spell out names, and the summary at its head is a
comment, so a listing is read line by line only as long as no name goes on in the next line.

* `OneLine`: a text that stays on one line, such as the text of an opcode or a line of a summary.
* `terminated_opcode`, `terminated_rule`: the lines of opcodes and rules are read as these.
* `read_text`: the listing of a grammar is read as what the grammar consists of.
-/

namespace Abnf.Listing

open Text
open scoped Decisions

/-! ## Texts on one line -/

/-- A text that stays on one line. -/
def OneLine (text : String) : Prop :=
  '\n' ∉ text.toList

instance (text : String) : Decidable (OneLine text) :=
  inferInstanceAs (Decidable (_ ∉ _))

@[simp] theorem oneLine_append {text text' : String} :
    OneLine (text ++ text') ↔ OneLine text ∧ OneLine text' := by
  simp [OneLine, not_or]

@[simp] theorem oneLine_repr (n : Nat) : OneLine n.repr := by
  intro h
  have hdigits : '\n' ∈ Nat.toDigits 10 n := by simpa using h
  exact absurd (Nat.isDigit_of_mem_toDigits (by decide) (by decide) hdigits) (by decide)

@[simp] theorem oneLine_word (n : UInt32) : OneLine (toString n) :=
  oneLine_repr n.toNat

theorem oneLine_intercalate {separator : String} (hseparator : OneLine separator)
    {texts : List String} (h : ∀ text ∈ texts, OneLine text) :
    OneLine (separator.intercalate texts) := by
  rw [OneLine, String.toList_intercalate]
  induction texts with
  | nil => simp
  | cons text texts ih =>
    obtain ⟨htext, htexts⟩ := List.forall_mem_cons.1 h
    cases texts with
    | nil => simpa [OneLine] using htext
    | cons next texts =>
      have hrest := ih htexts
      simp only [List.map_cons] at hrest ⊢
      simp only [List.intercalate_cons_cons, List.mem_append, not_or]
      exact ⟨⟨htext, hseparator⟩, hrest⟩

@[simp] theorem oneLine_commaList (numbers : List Nat) : OneLine (Opcode.commaList numbers) :=
  oneLine_intercalate (by decide) fun text htext => by
    obtain ⟨n, -, rfl⟩ := List.mem_map.1 htext
    exact oneLine_repr n

@[simp] theorem toString_string (text : String) : toString text = text :=
  rfl

theorem oneLine_mnemonic (op : Opcode) : OneLine op.mnemonic := by
  cases op <;> (simp only [Opcode.mnemonic]; decide)

/-- The text of an opcode stays on one line. -/
theorem oneLine_opcode (op : Opcode) : OneLine op.text := by
  cases op with
  | udt index empty => cases empty <;> simp +decide [Opcode.text]
  | bkr index toUdt caseInsensitive =>
    cases toUdt <;> cases caseInsensitive <;> simp +decide [Opcode.text]
  | rep min max => cases max <;> simp +decide [Opcode.text]
  | _ => simp +decide [Opcode.text, oneLine_mnemonic]

/-- A line of a summary stays on one line. -/
theorem oneLine_line {label : String} (h : OneLine label) (n : Nat) :
    OneLine (Summary.line label n) := by
  have hmargin : OneLine (String.ofList (List.replicate (10 - label.length) ' ')) := by
    simp [OneLine, List.mem_replicate]
  simp +decide [Summary.line, hmargin, h]

theorem oneLine_characterLine (summary : Summary) : OneLine summary.characterLine := by
  unfold Summary.characterLine
  cases summary.characters with
  | none =>
    simp only
    split
    · decide
    · decide
  | some bounds =>
    have hbounds : OneLine s!"characters = [{bounds.1} - {bounds.2}]" := by simp +decide
    simp only
    split
    · exact oneLine_append.2 ⟨hbounds, by decide⟩
    · exact hbounds

theorem oneLine_summary (grammar : Grammar) :
    ∀ line ∈ (Summary.ofGrammar grammar).lines, OneLine line := by
  have horder : ∀ name ∈ Summary.order, OneLine name := by decide
  intro line hline
  simp only [Summary.lines, List.mem_append, List.mem_cons, List.mem_map, List.not_mem_nil,
    or_false] at hline
  rcases hline with ((rfl | rfl | rfl) | ⟨⟨name, n⟩, hkind, rfl⟩) | rfl
  · exact oneLine_line (by decide) _
  · exact oneLine_line (by decide) _
  · exact oneLine_line (by decide) _
  · obtain ⟨found, hfound, heq⟩ := List.mem_map.1 hkind
    cases heq
    exact oneLine_line (horder _ hfound) _
  · exact oneLine_characterLine _

/-- The comment behind an opcode stays on one line if names do. -/
theorem oneLine_comment {grammar : Grammar} (hrules : ∀ rule ∈ grammar.rules, OneLine rule.name)
    (hudts : ∀ udt ∈ grammar.udts, OneLine udt.name) {op : Opcode} {text : String}
    (h : comment grammar op = .ok text) : OneLine text := by
  cases op with
  | rnm index =>
    obtain ⟨rule, hrule, htext⟩ := exists_of_bind_eq_ok h
    cases htext
    simp +decide [hrules rule (Array.mem_of_getElem? (fetch_eq_ok.1 hrule))]
  | udt index empty =>
    obtain ⟨udt, hudt, htext⟩ := exists_of_bind_eq_ok h
    cases htext
    simp +decide [hudts udt (Array.mem_of_getElem? (fetch_eq_ok.1 hudt))]
  | bkr index toUdt caseInsensitive =>
    have hname : ∃ name, OneLine name ∧
        text = "BKR(\\" ++ (if caseInsensitive then "%i" else "%s") ++ name ++ ")" := by
      cases toUdt with
      | true =>
        obtain ⟨name, hname, htext⟩ := exists_of_bind_eq_ok h
        obtain ⟨udt, hudt, rfl⟩ := exists_of_map_eq_ok hname
        cases htext
        exact ⟨_, hudts udt (Array.mem_of_getElem? (fetch_eq_ok.1 hudt)), rfl⟩
      | false =>
        obtain ⟨name, hname, htext⟩ := exists_of_bind_eq_ok h
        obtain ⟨rule, hrule, rfl⟩ := exists_of_map_eq_ok hname
        cases htext
        exact ⟨_, hrules rule (Array.mem_of_getElem? (fetch_eq_ok.1 hrule)), rfl⟩
    obtain ⟨name, hname, rfl⟩ := hname
    cases caseInsensitive <;> simp +decide [hname]
  | _ =>
    cases h
    exact oneLine_opcode _

/-! ## Opcodes and rules -/

/-- Lines with a line feed behind each of them. -/
def lineText (lines : List String) : List Char :=
  lines.flatMap fun line => line.toList ++ ['\n']

@[simp] theorem lineText_append (lines lines' : List String) :
    lineText (lines ++ lines') = lineText lines ++ lineText lines' :=
  List.flatMap_append

theorem lineText_flatten (lists : List (List String)) :
    lineText lists.flatten = (lists.map lineText).flatten := by
  induction lists with
  | nil => rfl
  | cons lines lists ih => rw [List.flatten_cons, lineText_append, ih]; rfl

theorem lineText_map {α : Type} (as : List α) (line : α → String) :
    lineText (as.map line) = (as.map fun a => (line a).toList ++ ['\n']).flatten := by
  rw [lineText, List.flatMap_map, List.flatMap_def]

/-- Lines of comments are no tokens. -/
theorem closed_comments {lines : List String} (h : ∀ line ∈ lines, OneLine line) :
    Closed (lineText (lines.map ("//" ++ ·))) [] := by
  induction lines with
  | nil => exact Closed.nil
  | cons line lines ih =>
    obtain ⟨hline, hlines⟩ := List.forall_mem_cons.1 h
    have hcomments := (closed_comment hline).append (ih hlines)
    simpa [lineText] using hcomments

variable {grammar : Grammar}

/-- The line of an opcode is read as the opcode. -/
theorem terminated_opcode (hrules : ∀ rule ∈ grammar.rules, OneLine rule.name)
    (hudts : ∀ udt ∈ grammar.udts, OneLine udt.name) {op : Opcode} {index : Nat} {line : String}
    (h : opcodeLine grammar op index = .ok line) :
    Terminated opcode (line.toList ++ ['\n']) op := by
  obtain ⟨text, htext, heq⟩ := exists_of_bind_eq_ok h
  cases heq
  have hcomment : OneLine (s!" {index}: " ++ text) := by
    have hline := oneLine_comment hrules hudts htext
    simp +decide [hline]
  have hopcode := (reads_opcode op).skip (by decide : Closed "                ".toList [])
  have hcomma : Closed ", ".toList [.mark ','] := by decide
  have hterminated := hopcode.terminated (.append (by decide) _)
    (hcomma.append (closed_comment hcomment))
  simpa [List.append_assoc] using hterminated

/-- The lines of a rule are read as the rule. -/
theorem terminated_rule (hrules : ∀ rule ∈ grammar.rules, OneLine rule.name)
    (hudts : ∀ udt ∈ grammar.udts, OneLine udt.name) {found : Rule} {lines : List String}
    (h : ruleLines grammar found = .ok lines) : Terminated rule (lineText lines) found := by
  obtain ⟨opcodes, hopcodes, heq⟩ := exists_of_bind_eq_ok h
  cases heq
  have hitems : List.Forall₂ (Terminated opcode) (opcodes.map fun line => line.toList ++ ['\n'])
      found.opcodes.toList := by
    have hlines := (mapM_eq_ok_iff.1 hopcodes).flip
    rw [← List.zipIdx_map_fst 0 found.opcodes.toList, List.forall₂_map_left_iff,
      List.forall₂_map_right_iff]
    exact hlines.imp fun line entry h => terminated_opcode hrules hudts h
  -- From behind: the closing, the opcodes, the index and the name, each with what follows it.
  have hclosing : Reads (do expect ",)"; return (⟨found.name, found.index, found.opcodes⟩ : Rule))
      ",\n        )".toList found := .ended (by decide) fun _ => rfl
  have hlist := reads_terminated (fun _ => rfl) (by decide) hitems
    (by decide : Closed "            ]".toList [.mark ']'])
  have hopcodes : Reads (do
      let opcodes ← items opcode ']'
      expect ",)"
      return (⟨found.name, found.index, opcodes.toArray⟩ : Rule)) _ found :=
    hlist.bind (by decide) hclosing
  have hindex : Reads (do
      let index ← number
      expect ", vec!["
      let opcodes ← items opcode ']'
      expect ",)"
      return (⟨found.name, index, opcodes.toArray⟩ : Rule))
      (_ ++ (",\n            vec![\n".toList ++ _)) found :=
    (reads_number found.index).bind (.append (by decide) _) (.after (by decide) hopcodes)
  have hrule : Reads rule ("        Rule::new(\n            ".toList ++
      (_ ++ (",\n            ".toList ++ _))) found :=
    .after (by decide) ((reads_literal found.name).bind (.append (by decide) _)
      (.after (by decide) hindex))
  have hterminated := hrule.terminated (by decide) (by decide : Closed ",\n".toList [.mark ','])
  simpa [lineText, List.append_assoc, List.flatMap_def] using hterminated

/-! ## User-defined terminals -/

theorem terminated_udt (found : Udt) : Terminated udt ((udtLine found).toList ++ ['\n']) found := by
  have hempty : Reads (do
      let empty ← boolean
      expect ")"
      return (⟨found.name, found.index, empty⟩ : Udt)) _ found :=
    (reads_boolean found.empty).bind (by decide) (.ended (by decide : Says ")".toList ")")
      fun _ => rfl)
  have hindex : Reads (do
      let index ← number
      expect ","
      let empty ← boolean
      expect ")"
      return (⟨found.name, index, empty⟩ : Udt)) (_ ++ (", ".toList ++ _)) found :=
    (reads_number found.index).bind (.append (by decide) _) (.after (by decide) hempty)
  have hudt : Reads udt ("        Udt::new(".toList ++ (_ ++ (", ".toList ++ _))) found :=
    .after (by decide) ((reads_literal found.name).bind (.append (by decide) _)
      (.after (by decide) hindex))
  have htext : (udtLine found).toList ++ ['\n'] = "        Udt::new(".toList ++
      ((quoted found.name).toList ++ (", ".toList ++ ((toString found.index).toList ++
        (", ".toList ++ ((truth found.empty).toList ++ ")".toList))))) ++ ",\n".toList := by
    have hend : "),".toList ++ ['\n'] = ")".toList ++ ",\n".toList := by decide
    unfold udtLine
    simp only [String.toList_append, List.append_assoc, hend]
    simp only [toString_string]
  rw [htext]
  exact hudt.terminated (by decide) (by decide)

/-- The lines of the user-defined terminals are read as these. -/
theorem reads_udts (found : List Udt) : Reads udts (lineText (udtLines found)) found := by
  cases found with
  | nil =>
    have hvec : Reads udts ("Vec".toList ++ "::new()\n".toList) [] :=
      (reads_word (by decide) (by decide)).bind (by decide) (.ended (by decide) fun _ => rfl)
    have hlines := hvec.skip (by decide : Closed "    ".toList [])
    simpa [lineText, udtLines] using hlines
  | cons first rest =>
    have hitems : List.Forall₂ (Terminated udt)
        ((first :: rest).map fun udt => (udtLine udt).toList ++ ['\n']) (first :: rest) := by
      rw [List.forall₂_map_left_iff, List.forall₂_same]
      exact fun udt _ => terminated_udt udt
    have hlist := reads_terminated (fun _ => rfl) (by decide) hitems
      (by decide : Closed "    ]\n".toList [.mark ']'])
    have hvec : Reads udts ("vec".toList ++ ("![\n".toList ++ _)) (first :: rest) :=
      (reads_word (by decide) (by decide)).bind (.append (by decide) _) (.after (by decide) hlist)
    have hlines := hvec.skip (by decide : Closed "    ".toList [])
    simpa [lineText, udtLines, List.append_assoc, List.flatMap_def, Function.comp_def] using hlines

/-! ## Modules -/

theorem terminated_name (name : String) :
    Terminated literal (("    " ++ quoted name ++ ",").toList ++ ['\n']) name := by
  have hliteral := (reads_literal name).skip (by decide : Closed "    ".toList [])
  have hterminated := hliteral.terminated (by decide) (by decide : Closed ",\n".toList [.mark ','])
  simpa using hterminated

/-- What the listing of a grammar says of it. -/
def Contents.ofGrammar (grammar : Grammar) : Contents :=
  ⟨grammar.callbackNames, grammar.rules, grammar.udts, grammar.source⟩

/-- The summary at the head of a listing is a comment. -/
theorem closed_header (grammar : Grammar) :
    Closed (lineText (["// Generated by sabnf 0.1.0.", "//", "// SUMMARY"] ++
      (Summary.ofGrammar grammar).lines.map ("// " ++ ·))) [] := by
  have hlines : ["// Generated by sabnf 0.1.0.", "//", "// SUMMARY"] ++
      (Summary.ofGrammar grammar).lines.map ("// " ++ ·) =
        ([" Generated by sabnf 0.1.0.", "", " SUMMARY"] ++
          (Summary.ofGrammar grammar).lines.map (" " ++ ·)).map ("//" ++ ·) := by
    simp only [List.map_append, List.map_map, Function.comp_def, ← String.append_assoc]
    rfl
  rw [hlines]
  refine closed_comments (List.forall_mem_append.2 ⟨by decide, List.forall_mem_map.2 ?_⟩)
  exact fun line hline => oneLine_append.2 ⟨by decide, oneLine_summary grammar line hline⟩

/-! ### The parts behind the header

Each part is read together with the parts behind it, from the last one on. -/

theorem reads_source (found : Contents) : Reads (do
      let source ← literal
      expect ";"
      return (⟨found.callbackNames, found.rules, found.udts, source⟩ : Contents))
    ((quoted found.source).toList ++ ";\n".toList) found :=
  (reads_literal found.source).bind (by decide)
    (.ended (by decide : Says ";\n".toList ";") fun _ => rfl)

/-- The user-defined terminals, and the source behind them. -/
theorem reads_fromUdts (found : Contents) : Reads (do
      let udts ← udts
      expect "\x7d pub const SOURCE: &str ="
      let source ← literal
      expect ";"
      return (⟨found.callbackNames, found.rules, udts.toArray, source⟩ : Contents))
    (lineText (udtLines found.udts.toList) ++
      lineText ["\x7d", "", "/// The grammar these tables were generated from.",
        "pub const SOURCE: &str = " ++ quoted found.source ++ ";"]) found := by
  have hbefore : Says (lineText ["\x7d", "",
      "/// The grammar these tables were generated from."] ++ "pub const SOURCE: &str = ".toList)
      "\x7d pub const SOURCE: &str =" := by decide +kernel
  -- The line that ends with the source begins in front of it.
  have htext : lineText ["\x7d", "", "/// The grammar these tables were generated from.",
      "pub const SOURCE: &str = " ++ quoted found.source ++ ";"] =
        (lineText ["\x7d", "", "/// The grammar these tables were generated from."] ++
          "pub const SOURCE: &str = ".toList) ++
            ((quoted found.source).toList ++ ";\n".toList) := by
    simp [lineText]
  rw [htext]
  exact (reads_udts found.udts.toList).bind (.append (by decide) _)
    (.after hbefore (reads_source found))

/-- The rules, and what is behind them. -/
theorem reads_fromRules (found : Contents) {lists : List (List String)}
    (h : List.Forall₂ (Terminated rule) (lists.map lineText) found.rules.toList) : Reads (do
      let rules ← items rule ']'
      expect "\x7d pub fn udts() -> Vec<Udt> \x7b"
      let udts ← udts
      expect "\x7d pub const SOURCE: &str ="
      let source ← literal
      expect ";"
      return (⟨found.callbackNames, rules.toArray, udts.toArray, source⟩ : Contents))
    (lineText (lists.flatten ++ ["    ]", "\x7d", "", "pub fn udts() -> Vec<Udt> \x7b"]) ++
      (lineText (udtLines found.udts.toList) ++
        lineText ["\x7d", "", "/// The grammar these tables were generated from.",
          "pub const SOURCE: &str = " ++ quoted found.source ++ ";"])) found := by
  have hitems := reads_terminated (fun _ => rfl) (by decide) h
    (by decide : Closed (lineText ["    ]"]) [.mark ']'])
  have hbefore : Says (lineText ["\x7d", "", "pub fn udts() -> Vec<Udt> \x7b"])
      "\x7d pub fn udts() -> Vec<Udt> \x7b" := by decide +kernel
  have htext : lineText (lists.flatten ++ ["    ]", "\x7d", "", "pub fn udts() -> Vec<Udt> \x7b"]) =
      ((lists.map lineText).flatten ++ lineText ["    ]"]) ++
        lineText ["\x7d", "", "pub fn udts() -> Vec<Udt> \x7b"] := by
    rw [lineText_append, lineText_flatten, List.append_assoc, ← lineText_append]
    rfl
  rw [htext, List.append_assoc]
  exact hitems.bind (.append (by decide) _) (.after hbefore (reads_fromUdts found))

/-- The lines of a listing are read as what the grammar consists of. -/
theorem reads_contents (hrules : ∀ rule ∈ grammar.rules, OneLine rule.name)
    (hnames : ∀ udt ∈ grammar.udts, OneLine udt.name) {lines : List String}
    (h : Listing.lines grammar = .ok lines) :
    Reads contents (lineText lines) (Contents.ofGrammar grammar) := by
  obtain ⟨lists, hlists, heq⟩ := exists_of_bind_eq_ok h
  cases heq
  have hruleLists : List.Forall₂ (Terminated rule) (lists.map lineText) grammar.rules.toList := by
    rw [List.forall₂_map_left_iff]
    exact (mapM_eq_ok_iff.1 hlists).flip.imp fun list rule h => terminated_rule hrules hnames h
  have hnameLists : List.Forall₂ (Terminated literal)
      (grammar.callbackNames.map fun name => ("    " ++ quoted name ++ ",").toList ++ ['\n'])
      grammar.callbackNames := by
    rw [List.forall₂_map_left_iff, List.forall₂_same]
    exact fun name _ => terminated_name name
  have hitems := reads_terminated (fun _ => rfl) (by decide) hnameLists
    (by decide : Closed "]".toList [.mark ']'])
  have hbeforeRules : Says (lineText [";", "", "pub fn rules() -> Vec<Rule> \x7b", "    vec!["])
      "; pub fn rules() -> Vec<Rule> \x7b vec![" := by decide +kernel
  have hbeforeNames : Says (lineText ["", "use sabnf::\x7bOpcode, Rule, Udt\x7d;", "",
      "/// Lowercased rule and UDT names, sorted.", "pub const CALLBACK_NAMES: &[&str] = &["])
      "use sabnf::\x7bOpcode, Rule, Udt\x7d; pub const CALLBACK_NAMES: &[&str] = &[" := by
    decide +kernel
  have hcontents : Reads contents (_ ++ (_ ++ (_ ++ _))) (Contents.ofGrammar grammar) :=
    .after hbeforeNames (hitems.bind (.append (by decide) _)
      (.after hbeforeRules (reads_fromRules (Contents.ofGrammar grammar) hruleLists)))
  -- The line behind the names begins with the bracket that ends their list.
  have hbracket : lineText ["];", "", "pub fn rules() -> Vec<Rule> \x7b", "    vec!["] =
      "]".toList ++ lineText [";", "", "pub fn rules() -> Vec<Rule> \x7b", "    vec!["] := by
    decide +kernel
  have htext := hcontents.skip (closed_header grammar)
  simp only [lineText_append, lineText_map, hbracket, List.append_assoc] at htext ⊢
  exact htext

/-- The listing of a grammar is read as what the grammar consists of, if no name goes on in the next
line. -/
theorem read_text (hrules : ∀ rule ∈ grammar.rules, OneLine rule.name)
    (hudts : ∀ udt ∈ grammar.udts, OneLine udt.name) {text : String}
    (h : grammar.listing = .ok text) : read text = some (Contents.ofGrammar grammar) := by
  obtain ⟨lines, hlines, heq⟩ := exists_of_bind_eq_ok h
  cases heq
  have htext : (String.join (lines.map (· ++ "\n"))).toList = lineText lines := by
    simp [lineText, List.flatMap_map]
  obtain ⟨tokens, hspells, hrun⟩ := reads_contents hrules hudts hlines
  rw [← htext] at hspells
  have hrun := hrun []
  rw [List.append_nil] at hrun
  simp [read, hspells.tokens?_eq, hrun]

end Abnf.Listing
