import Abnf.Cache
import Abnf.Compile
import Abnf.Files

/-!
# Grammars in files

Compiling a grammar from a file, and keeping compiled grammars in cache files.
-/

namespace Abnf

/-- Why a grammar cannot be had from a cache file. -/
inductive CacheFileError where
  | file (error : FileError)
  | contents (error : Cache.LoadError)
  deriving Repr, DecidableEq

/-- The message of a failed load from a file. -/
def CacheFileError.message : CacheFileError → String
  | file error => "I/O error during deserialization: " ++ error.message
  | contents error => error.message

namespace Grammar

variable {m : Type → Type} [Monad m]

/-- Compiles the text of a file, which need not be strict. -/
def compileFile (files : Files m) (path : String) :
    m (Except FileError (Except Fault (Except CompileError Grammar))) := do
  return (← files.readText path).map fun text => compile false [text]

/-- Saves a grammar to a cache file. -/
def saveTo (grammar : Grammar) (files : Files m) (path : String) : m (Except FileError Unit) :=
  files.write path grammar.toBytes.toArray

/-- Loads a grammar from a cache file. -/
def loadFrom (files : Files m) (path : String) : m (Except CacheFileError Grammar) := do
  match ← files.read path with
  | .error error => return .error (.file error)
  | .ok bytes => return (ofBytes bytes.toList).mapError .contents

end Grammar

end Abnf
