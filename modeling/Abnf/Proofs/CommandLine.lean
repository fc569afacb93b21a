import Abnf.CommandLine
import Abnf.Proofs.Files
import Abnf.Proofs.Listing.RoundTrip
import Abnf.Proofs.Nesting

/-!
# What a run of the command line changes

A run that ends with another exit code than zero changes nothing. One that ends with zero has read its
inputs and written one file, the listing of the grammar that the inputs form together; all other files
are as they were. The output may be one of the inputs, which is then gone.

* `CommandLine.Completes`: what a run that goes well has found.
* `CommandLine.execute_writes_output`: what any list of arguments does to a directory.
-/

namespace Abnf

/-- A listing begins with a comment. -/
theorem Grammar.head?_listing {grammar : Grammar} {text : String} (h : grammar.listing = .ok text) :
    text.toList.head? = some '/' := by
  obtain ⟨lines, hlines, heq⟩ := exists_of_bind_eq_ok h
  cases heq
  obtain ⟨rules, -, hlines⟩ := exists_of_bind_eq_ok hlines
  cases hlines
  simp

namespace CommandLine

/-! ## Arguments -/

/-- Arguments that ask for a run name an input. -/
theorem inputs_ne_nil {options found : Options} {arguments : List String}
    (h : readArguments options arguments = some (.run found)) : found.inputs ≠ [] := by
  fun_induction readArguments options arguments with
  | case1 | case3 => cases h
  | case2 options hinputs | case4 options hinputs =>
    cases h
    simpa using hinputs
  | case5 | case6 => cases h
  | case7 options rest ih =>
    obtain ⟨next, -, h⟩ := Option.bind_eq_some_iff.1 h
    exact ih next h
  | case8 options value rest ih | case9 options value rest ih =>
    obtain ⟨-, -, h⟩ := Option.bind_eq_some_iff.1 h
    obtain ⟨next, -, h⟩ := Option.bind_eq_some_iff.1 h
    exact ih next h
  | case10 options argument rest _ _ _ _ _ _ value _ ih =>
    obtain ⟨next, -, h⟩ := Option.bind_eq_some_iff.1 h
    exact ih next h
  | case11 options argument rest _ _ _ _ _ _ value _ _ ih =>
    obtain ⟨next, -, h⟩ := Option.bind_eq_some_iff.1 h
    exact ih next h
  | case12 options argument =>
    unfold shortRequest? at h
    split at h <;> cases h

/-- The path is the one that is given for the output, or else that of the first input with the
extension of source code in place of its own. -/
def IsOutput (options : Options) (path : String) : Prop :=
  match options.out with
  | some out => path = out
  | none => ∃ first ∈ options.inputs.head?, Path.Replaces "rs" first path

/-! ## Runs -/

/-- What a run that goes well has found: the texts in its inputs, the grammar that they form together,
the listing of the grammar and the name under which it is written. -/
structure Completes (directory : Directory) (options : Options) (texts : List String)
    (grammar : Grammar) (listing name : String) : Prop where
  holds : List.Forall₂ directory.Holds options.inputs texts
  compiles : compile options.strict texts = .ok (.ok grammar)
  lists : grammar.listing = .ok listing
  names : Directory.Names options.output name

section

variable {directory : Directory} {options : Options} {texts : List String} {grammar : Grammar}
  {listing name : String}

theorem build_eq_ok_iff {strict : Bool} : build strict texts = .ok (grammar, listing) ↔
    compile strict texts = .ok (.ok grammar) ∧ grammar.listing = .ok listing := by
  unfold build
  split
  · rename_i hcompile
    simp [hcompile]
  · rename_i hcompile
    simp [hcompile]
  · rename_i found hcompile
    cases hlisting : found.listing with
    | error fault =>
      refine ⟨nofun, ?_⟩
      rintro ⟨hfound, hlists⟩
      cases hcompile.symm.trans hfound
      cases hlisting.symm.trans hlists
    | ok text =>
      constructor
      · intro h
        cases h
        exact ⟨hcompile, hlisting⟩
      · rintro ⟨hfound, hlists⟩
        cases hcompile.symm.trans hfound
        cases hlisting.symm.trans hlists
        rfl

theorem exit_of_build_eq_error {strict : Bool} {report : Report}
    (h : build strict texts = .error report) : report.exit ≠ 0 := by
  unfold build at h
  split at h
  · cases h
    exact Nat.succ_ne_zero _
  · cases h
    exact Nat.succ_ne_zero _
  · split at h <;> cases h
    exact Nat.succ_ne_zero _

/-- A run on a directory, step by step. -/
theorem run_eq (directory : Directory) (options : Options) :
    run Directory.operations options directory =
      match (Directory.operations.readTexts options.inputs directory).1 with
      | .error (path, error) => (.ofFileError path error, directory)
      | .ok texts =>
        match build options.strict texts with
        | .error report => (report, directory)
        | .ok (grammar, listing) =>
          match directory.write options.output listing.toUTF8.data with
          | .error error => (.ofFileError options.output error, directory)
          | .ok after => (.ofSuccess options.output grammar.summary, after) := by
  have hreads : Directory.operations.readTexts options.inputs directory =
      ((Directory.operations.readTexts options.inputs directory).1, directory) :=
    Prod.ext rfl (Directory.readTexts_snd directory options.inputs)
  rw [run]
  simp only [bind, StateT.bind]
  rw [hreads]
  cases (Directory.operations.readTexts options.inputs directory).1 with
  | error failure => rfl
  | ok texts =>
    simp only
    cases build options.strict texts with
    | error report => rfl
    | ok found =>
      simp only [bind, StateT.bind, Files.writeText, Directory.operations]
      cases directory.write options.output found.2.toUTF8.data <;> rfl

theorem Completes.run_eq (h : Completes directory options texts grammar listing name) :
    run Directory.operations options directory =
      (.ofSuccess options.output grammar.summary, directory.put name listing.toUTF8.data) := by
  rw [CommandLine.run_eq, Directory.readTexts_eq_ok_iff.2 h.holds]
  simp only [build_eq_ok_iff.2 ⟨h.compiles, h.lists⟩,
    Directory.write_eq_ok_iff.2 ⟨name, h.names, rfl⟩]

/-- A run goes well, or it ends with another exit code than zero and changes nothing. -/
theorem completes_or_unchanged (directory : Directory) (options : Options) :
    (∃ texts grammar listing name, Completes directory options texts grammar listing name) ∨
      (run Directory.operations options directory).1.exit ≠ 0 ∧
        (run Directory.operations options directory).2 = directory := by
  rw [run_eq]
  cases hreads : (Directory.operations.readTexts options.inputs directory).1 with
  | error failure => exact .inr ⟨Nat.succ_ne_zero _, rfl⟩
  | ok texts =>
    simp only
    cases hbuild : build options.strict texts with
    | error report => exact .inr ⟨exit_of_build_eq_error hbuild, rfl⟩
    | ok found =>
      simp only
      cases hwrite : directory.write options.output found.2.toUTF8.data with
      | error error => exact .inr ⟨Nat.succ_ne_zero _, rfl⟩
      | ok after =>
        obtain ⟨name, hname, -⟩ := Directory.write_eq_ok_iff.1 hwrite
        obtain ⟨hcompiles, hlists⟩ := build_eq_ok_iff.1 hbuild
        exact .inl ⟨texts, found.1, found.2, name, Directory.readTexts_eq_ok_iff.1 hreads, hcompiles,
          hlists, hname⟩

/-- The default output is the first input with its extension replaced, if the first input is read and
the output is written. -/
theorem Completes.isOutput (h : Completes directory options texts grammar listing name)
    (hinputs : options.inputs ≠ []) : IsOutput options options.output := by
  obtain ⟨first, rest, heq⟩ := List.exists_cons_of_ne_nil hinputs
  unfold IsOutput
  split
  · rename_i out hout
    rw [Options.output, hout, Option.getD_some]
  · rename_i hout
    have houtput : options.output = Path.withExtension "rs" first := by
      rw [Options.output, hout, heq]
      rfl
    refine ⟨first, by simp [heq], ?_⟩
    have hholds := h.holds
    rw [heq] at hholds
    obtain ⟨text, _, hfirst, -, -⟩ := List.forall₂_cons_left_iff.1 hholds
    obtain ⟨_, hread, -⟩ := Directory.read_eq_ok_iff.1 hfirst
    obtain ⟨last, hlast, hne, -⟩ := hread.exists_behindLast
    obtain ⟨last', hlast', -, hdot, hdots⟩ := h.names.exists_behindLast
    rw [houtput] at hlast' ⊢
    refine Path.replaces_withExtension ?_ ?_ ?_
    · rw [hlast]
      exact fun hnil => hne (String.toList_inj.1 hnil)
    · rw [hlast']
      exact fun heq => hdot (String.toList_inj.1 heq)
    · rw [hlast']
      exact fun heq => hdots (String.toList_inj.1 heq)

/-- What a run that goes well leaves of the files. -/
theorem Completes.read_put (h : Completes directory options texts grammar listing name)
    {path : String} (hpath : path ∈ options.inputs) (contents : Array UInt8) :
    Directory.Names path name ∨
      (directory.put name contents).read path = directory.read path := by
  obtain ⟨text, -, hholds⟩ := exists_right_of_mem h.holds hpath
  obtain ⟨other, hother, -⟩ := Directory.read_eq_ok_iff.1 hholds
  by_cases heq : other = name
  · exact .inl (heq ▸ hother)
  · exact .inr (Directory.read_put_of_ne hother heq directory contents)

end

/-! ## Lists of arguments -/

/-- Only arguments that ask for a run lead to one. -/
theorem execute_eq (directory : Directory) (arguments : List String) :
    execute Directory.operations arguments directory =
      match readArguments {} arguments with
      | none => (.usage, directory)
      | some .help => (.help, directory)
      | some .version => (.version, directory)
      | some (.run options) => run Directory.operations options directory := by
  unfold execute
  cases readArguments {} arguments with
  | none => rfl
  | some request => cases request <;> rfl

/-- What a list of arguments does to the files of a directory. Nothing changes if the exit code is not
zero, or if the arguments do not ask for a run. A run ends with zero just if its inputs are texts that
form a grammar together and its output can be written. Then the output, which is the one that is given
or the first input with its extension replaced, has the listing of the grammar; all other files are as
they were, and so is every input that is not itself the output. -/
theorem execute_writes_output {directory after : Directory} {arguments : List String}
    {report : Report}
    (h : execute Directory.operations arguments directory = (report, after)) :
    (report.exit ≠ 0 → after = directory) ∧
    ((∀ options, readArguments {} arguments ≠ some (.run options)) → after = directory) ∧
    ∀ options, readArguments {} arguments = some (.run options) →
      (report.exit = 0 ↔
        ∃ texts grammar listing name, Completes directory options texts grammar listing name) ∧
      ∀ texts grammar listing name, Completes directory options texts grammar listing name →
        IsOutput options options.output ∧
          after.get? name = some listing.toUTF8.data ∧
          (∀ other ≠ name, after.get? other = directory.get? other) ∧
          ∀ path ∈ options.inputs,
            Directory.Names path name ∨ after.read path = directory.read path := by
  -- Usage, help and version leave the files alone, so only the last case has a run to follow.
  rw [execute_eq] at h
  split at h
  iterate 3
    · rename_i harguments
      cases h
      simp [harguments]
  · rename_i options harguments
    refine ⟨fun hexit => ?_, fun hnone => absurd harguments (hnone options), ?_⟩
    · rcases completes_or_unchanged directory options with ⟨_, _, _, _, hcompletes⟩ | ⟨-, hsame⟩
      · rw [hcompletes.run_eq] at h
        cases h
        exact absurd rfl hexit
      · rw [h] at hsame
        exact hsame
    · rintro options' hoptions
      cases harguments.symm.trans hoptions
      refine ⟨⟨fun hexit => ?_, ?_⟩, fun texts grammar listing name hcompletes => ?_⟩
      · rcases completes_or_unchanged directory options with hcompletes | ⟨hfailed, -⟩
        · exact hcompletes
        · rw [h] at hfailed
          exact absurd hexit hfailed
      · rintro ⟨_, _, _, _, hcompletes⟩
        rw [hcompletes.run_eq] at h
        cases h
        rfl
      · rw [hcompletes.run_eq] at h
        cases h
        exact ⟨hcompletes.isOutput (inputs_ne_nil harguments), Directory.get?_put _ _ _,
          fun other hother => Directory.get?_put_of_ne _ _ hother,
          fun path hpath => hcompletes.read_put hpath _⟩

theorem names_abnf : Directory.Names "a.abnf" "a.abnf" :=
  ⟨by decide +kernel, "", "a.abnf", by decide +kernel, by decide +kernel, by decide +kernel⟩

theorem names_rs : Directory.Names "a.rs" "a.rs" :=
  ⟨by decide +kernel, "", "a.rs", by decide +kernel, by decide +kernel, by decide +kernel⟩

/-- The first two rules of a grammar. -/
def firstRules : String :=
  "S = \"z\" (S \"b\" / S) / \"q\"\nT = \"p\" A / \"q\"\n"

/-- The last rule of the grammar. -/
def lastRule : String :=
  "A = \"a\" A \"b\" / T\n"

/-- The grammar in two files, of which the second one has the extension of source code. -/
def splitGrammar : Directory :=
  ⟨[("a.abnf", firstRules.toUTF8.data), ("a.rs", lastRule.toUTF8.data)]⟩

/-- The default output of a run on the two files is the second one. The listing takes its place, and
the first one is as it was. -/
theorem execute_writes_output_split :
    ∃ (report : Report) (after : Directory) (listing : String),
      execute Directory.operations ["--in", "a.abnf,a.rs"] splitGrammar = (report, after) ∧
      readArguments {} ["--in", "a.abnf,a.rs"] =
        some (.run { inputs := ["a.abnf", "a.rs"] }) ∧
      report.exit = 0 ∧ after.get? "a.rs" = some listing.toUTF8.data ∧
      after.read "a.abnf" = splitGrammar.read "a.abnf" := by
  have harguments : readArguments {} ["--in", "a.abnf,a.rs"] =
      some (.run { inputs := ["a.abnf", "a.rs"] }) := by
    decide +kernel
  have hjoin : joinSources "\n" "" [firstRules, lastRule] = scatteredText := by decide +kernel
  obtain ⟨grammar, hcompile, -⟩ := exists_compile_scattered
  have hcompiles : compile false [firstRules, lastRule] = .ok (.ok grammar) :=
    (congrArg (compileText false) hjoin).trans hcompile
  obtain ⟨listing, hlisting⟩ := (checked_of_compile hcompile).exists_listing
  have houtput : ({ inputs := ["a.abnf", "a.rs"] } : Options).output = "a.rs" := by
    decide +kernel
  have hcompletes : Completes splitGrammar { inputs := ["a.abnf", "a.rs"] } [firstRules, lastRule]
      grammar listing "a.rs" := by
    refine ⟨.cons ?_ (.cons ?_ .nil), hcompiles, hlisting, houtput ▸ names_rs⟩
    · exact Directory.read_eq_ok_iff.2 ⟨_, names_abnf, rfl⟩
    · exact Directory.read_eq_ok_iff.2 ⟨_, names_rs, rfl⟩
  have hexecute := execute_eq splitGrammar ["--in", "a.abnf,a.rs"]
  rw [harguments] at hexecute
  have hrun := hexecute.trans hcompletes.run_eq
  obtain ⟨hexit, hwrites⟩ := (execute_writes_output hrun).2.2 _ harguments
  obtain ⟨-, hwritten, -, hkept⟩ := hwrites _ _ _ _ hcompletes
  refine ⟨_, _, listing, hrun, harguments, hexit.2 ⟨_, _, _, _, hcompletes⟩, hwritten, ?_⟩
  refine (hkept "a.abnf" (by decide)).resolve_left fun hnames => ?_
  exact absurd (hnames.unique names_abnf) (by decide)

/-- A run without a given output takes the place of its only input, if that has the extension of
source code. -/
theorem execute_overwrites_input :
    ∃ (report : Report) (after : Directory),
      readArguments {} ["--in", "a.rs"] = some (.run { inputs := ["a.rs"] }) ∧
      execute Directory.operations ["--in", "a.rs"] ⟨[("a.rs", "A=\"\"\n".toUTF8.data)]⟩ =
        (report, after) ∧
      report.exit = 0 ∧ after.read "a.rs" ≠ .ok "A=\"\"\n".toUTF8.data := by
  have harguments : readArguments {} ["--in", "a.rs"] = some (.run { inputs := ["a.rs"] }) := by
    decide +kernel
  obtain ⟨listing, hlisting⟩ := (checked_of_compile compile_emptyPhrase).exists_listing
  have houtput : ({ inputs := ["a.rs"] } : Options).output = "a.rs" := by
    decide +kernel
  have hcompletes : Completes ⟨[("a.rs", "A=\"\"\n".toUTF8.data)]⟩ { inputs := ["a.rs"] }
      ["A=\"\"\n"] emptyPhrase listing "a.rs" :=
    ⟨.cons (Directory.read_eq_ok_iff.2 ⟨_, names_rs, rfl⟩) .nil, compile_emptyPhrase, hlisting,
      houtput ▸ names_rs⟩
  have hexecute := execute_eq ⟨[("a.rs", "A=\"\"\n".toUTF8.data)]⟩ ["--in", "a.rs"]
  rw [harguments] at hexecute
  refine ⟨_, _, harguments, hexecute.trans hcompletes.run_eq, rfl, fun hread => ?_⟩
  rw [Directory.read_put names_rs, Except.ok.injEq] at hread
  have hsame : listing = "A=\"\"\n" := String.toByteArray_inj.1 (ByteArray.ext hread)
  have hhead := Grammar.head?_listing hlisting
  rw [hsame] at hhead
  exact absurd hhead (by decide)

end CommandLine

end Abnf
