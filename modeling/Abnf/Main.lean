import Abnf.CommandLine

/-!
# Program

The command line on the files of the system.
-/

namespace Abnf

/-- The cause that an error number of the system stands for. Some operations report the number
with its sign changed. -/
def FileError.ofNumber (number : UInt32) (details : String) : FileError :=
  match min number.toNat (-number).toNat with
  | 2 => .missing
  | 20 => .notDirectory
  | 21 => .isDirectory
  | 36 => .nameTooLong
  | n => .other s!"{details} (os error {n})"

/-- The cause of a failed operation on a file. -/
def FileError.ofError : IO.Error → FileError
  | .noFileOrDirectory .. => .missing
  | .inappropriateType _ number details | .invalidArgument _ number details
  | .permissionDenied _ number details | .resourceExhausted _ number details =>
    .ofNumber number details
  | error => .other (toString error)

/-- The outcome of an operation on a file. -/
def Files.attempt {α : Type} (action : IO α) : IO (Except FileError α) := do
  match ← action.toBaseIO with
  | .ok a => return .ok a
  | .error error => return .error (.ofError error)

/-- The files of the system. -/
def Files.system : Files IO where
  read path := attempt do return (← IO.FS.readBinFile path).data
  write path contents := attempt (IO.FS.writeBinFile path ⟨contents⟩)

end Abnf

/-- Runs the command line. -/
def main (arguments : List String) : IO UInt32 := do
  let report ← Abnf.CommandLine.execute Abnf.Files.system arguments
  IO.print report.output
  IO.eprint report.errors
  return report.exit.toUInt32
