import Abnf.Compile
import Abnf.Files
import Abnf.Listing
import Abnf.Path

/-!
# Command line

`--in` names the grammar files, `--out` the file for the listing and `--strict` forbids the
extensions. The files are read in order and compiled together. The listing is the only file that
is written, and only if all went well.
-/

namespace Abnf.CommandLine

/-! ## Arguments -/

/-- What a run is asked for. -/
structure Options where
  inputs : List String := []
  strict : Bool := false
  out : Option String := none
  deriving Repr, DecidableEq

/-- What the program is asked for. -/
inductive Request where
  | run (options : Options)
  | help
  | version
  deriving Repr, DecidableEq

namespace Options

/-- Adds the inputs of a list separated by commas; none may be empty. -/
def addInputs (options : Options) (list : String) : Option Options :=
  let inputs := Text.split ',' list
  if inputs.any String.isEmpty then none
  else some { options with inputs := options.inputs ++ inputs }

/-- Sets the output, which can be done once and not to nothing. -/
def setOut (options : Options) (path : String) : Option Options :=
  if path.isEmpty || options.out.isSome then none else some { options with out := some path }

/-- Forbids the extensions, which can be done once. -/
def setStrict (options : Options) : Option Options :=
  if options.strict then none else some { options with strict := true }

/-- The file that the listing is written to: unless it is given, the first input with the
extension of source code. -/
def output (options : Options) : String :=
  options.out.getD (Path.withExtension "rs" (options.inputs.headD ""))

end Options

/-- What follows the given beginning of an argument. -/
def after? (beginning argument : String) : Option String :=
  if beginning.toList.isPrefixOf argument.toList then
    some (String.ofList (argument.toList.drop beginning.length))
  else
    none

/-- Whether an argument is not the name of a flag, so that it can be the value of one. -/
def isValue (argument : String) : Bool :=
  argument == "-" || (after? "-" argument).isNone

/-- The request that a group of one-letter flags stands for. Both flags end the reading of
arguments, so that what follows the first letter does not matter. -/
def shortRequest? (argument : String) : Option Request :=
  match argument.toList with
  | '-' :: 'h' :: _ => some .help
  | '-' :: 'V' :: _ => some .version
  | _ => none

/-- Reads arguments; nothing if they are not as they should be. -/
def readArguments (options : Options) : List String → Option Request
  | [] | ["--"] => if options.inputs.isEmpty then none else some (.run options)
  | "--help" :: _ => some .help
  | "--version" :: _ => some .version
  | "--strict" :: rest => do readArguments (← options.setStrict) rest
  | "--in" :: value :: rest => do
    guard (isValue value)
    readArguments (← options.addInputs value) rest
  | "--out" :: value :: rest => do
    guard (isValue value)
    readArguments (← options.setOut value) rest
  | argument :: rest =>
    match after? "--in=" argument, after? "--out=" argument with
    | some value, _ => do readArguments (← options.addInputs value) rest
    | none, some value => do readArguments (← options.setOut value) rest
    | none, none => shortRequest? argument

/-! ## Reports -/

/-- How a run ends, and what it prints. -/
structure Report where
  exit : Nat
  output : String
  errors : String
  deriving Repr, DecidableEq

namespace Report

/-- The lines of the help text. -/
def helpLines : List String :=
  ["Compile ABNF/SABNF grammars into Rust parser tables", "",
    "Usage: sabnf [OPTIONS] --in <INPUT>", "", "Options:",
    "      --in <INPUT>  Grammar files, concatenated in order",
    "      --strict      Accept only RFC 5234 ABNF",
    "      --out <OUT>   Output file. Defaults to the first input with an `.rs` extension",
    "  -h, --help        Print help",
    "  -V, --version     Print version"]

/-- The help text. -/
def help : Report :=
  ⟨0, String.join (helpLines.map (· ++ "\n")), ""⟩

/-- The name and the version of the program. -/
def version : Report :=
  ⟨0, "sabnf 0.1.0\n", ""⟩

/-- The arguments are not as they should be. -/
def usage : Report :=
  ⟨2, "", "Usage: sabnf [OPTIONS] --in <INPUT>\n"⟩

/-- A file cannot be read or written. -/
def ofFileError (path : String) (error : FileError) : Report :=
  ⟨1, "", path ++ ": " ++ error.message ++ "\n"⟩

/-- The stage that objected to a grammar. -/
def stage : CompileError → String
  | .characters _ => "GRAMMAR CHARACTER ERRORS"
  | .form _ => "GRAMMAR SYNTAX ERRORS"
  | .meaning _ => "GRAMMAR SEMANTIC ERRORS"
  | .rules _ => "GRAMMAR ATTRIBUTE ERRORS"

/-- The inputs are no grammar. -/
def ofCompileError (error : CompileError) : Report :=
  ⟨1, stage error ++ "\n" ++ error.message ++ "\n", ""⟩

/-- A table is not well formed. -/
def ofFault (fault : Fault) : Report :=
  ⟨101, "", fault.message ++ "\n"⟩

/-- The listing has been written. -/
def ofSuccess (path : String) (summary : Summary) : Report :=
  ⟨0, summary.text ++ "\nwrote " ++ path ++ "\n", ""⟩

end Report

/-! ## Runs -/

/-- The grammar of some texts and its listing, or the report that there is none. -/
def build (strict : Bool) (texts : List String) : Except Report (Grammar × String) :=
  match compile strict texts with
  | .error fault => .error (.ofFault fault)
  | .ok (.error error) => .error (.ofCompileError error)
  | .ok (.ok grammar) =>
    match grammar.listing with
    | .error fault => .error (.ofFault fault)
    | .ok listing => .ok (grammar, listing)

variable {m : Type → Type} [Monad m]

/-- Reads the inputs, compiles them and writes the listing. -/
def run (files : Files m) (options : Options) : m Report := do
  match ← files.readTexts options.inputs with
  | .error (path, error) => return .ofFileError path error
  | .ok texts =>
    match build options.strict texts with
    | .error report => return report
    | .ok (grammar, listing) =>
      match ← files.writeText options.output listing with
      | .error error => return .ofFileError options.output error
      | .ok () => return .ofSuccess options.output grammar.summary

/-- Does what the arguments ask for. -/
def execute (files : Files m) (arguments : List String) : m Report :=
  match readArguments {} arguments with
  | none => return .usage
  | some .help => return .help
  | some .version => return .version
  | some (.run options) => run files options

end Abnf.CommandLine
