import Abnf.Text.Split

/-!
# Files

Reading and writing files, as operations that can be given by the system or by a directory that
is a plain value, and what can go wrong with them.
-/

namespace Abnf

/-- Why a file cannot be read or written. -/
inductive FileError where
  | missing
  | notDirectory
  | isDirectory
  | nameTooLong
  /-- The bytes of the file are not UTF-8. -/
  | notText
  | other (message : String)
  deriving Repr, DecidableEq

/-- The message of a file error. -/
def FileError.message : FileError → String
  | missing => "No such file or directory (os error 2)"
  | notDirectory => "Not a directory (os error 20)"
  | isDirectory => "Is a directory (os error 21)"
  | nameTooLong => "File name too long (os error 36)"
  | notText => "stream did not contain valid UTF-8"
  | other message => message

/-! ## Operations -/

/-- How files are read and written. -/
structure Files (m : Type → Type) where
  read : String → m (Except FileError (Array UInt8))
  write : String → Array UInt8 → m (Except FileError Unit)

namespace Files

variable {m : Type → Type} [Monad m]

/-- The text that some bytes are in UTF-8. -/
def textOf (bytes : Array UInt8) : Except FileError String :=
  match String.fromUTF8? ⟨bytes⟩ with
  | some text => .ok text
  | none => .error .notText

/-- Reads a file as a text. -/
def readText (files : Files m) (path : String) : m (Except FileError String) := do
  return (← files.read path).bind textOf

/-- Writes a text to a file. -/
def writeText (files : Files m) (path text : String) : m (Except FileError Unit) :=
  files.write path text.toUTF8.data

/-- Reads files as texts, up to the first that fails; the error comes with its path. -/
def readTexts (files : Files m) : List String → m (Except (String × FileError) (List String))
  | [] => return .ok []
  | path :: paths => do
    match ← files.readText path with
    | .error error => return .error (path, error)
    | .ok text => return (← readTexts files paths).map (text :: ·)

end Files

/-! ## Directories -/

/-- A directory that holds files only, and what is known of the files around it. A file in the
directory goes by its name, one outside by the path that leads there. -/
structure Directory where
  files : List (String × Array UInt8)
  deriving Repr, DecidableEq

namespace Directory

/-- The contents of a file. -/
def get? (directory : Directory) (name : String) : Option (Array UInt8) :=
  directory.files.lookup name

/-- Replaces the contents of a file, or adds the file. -/
def put (directory : Directory) (name : String) (contents : Array UInt8) : Directory where
  files := directory.files.filter (fun file => file.1 != name) ++ [(name, contents)]

/-- The files in the directory itself, in ascending order of their names. -/
def listing (directory : Directory) : List (String × Array UInt8) :=
  (directory.files.filter fun file => !file.1.toList.contains '/').mergeSort
    fun a b => !decide (b.1 < a.1)

/-! ## Following paths -/

/-- Where a path leads, seen from the directory. Every place is reached through a base: nothing
for the directory itself, and otherwise the way to another directory, slash included. -/
inductive Place where
  /-- To a directory. -/
  | directory
  /-- To a name in a directory. -/
  | name (base name : String)
  /-- On behind a name, as if that were a directory. -/
  | behind (base name : String) (rest : List String)
  deriving Repr, DecidableEq

/-- The base of the directory around the one with the given base; the root is its own. -/
def baseAround (base : String) : String :=
  if base == "/" then base else base ++ "../"

/-- Follows the parts of a path from the directory with the given base. -/
def follow (base : String) : List String → Place
  | [] => .directory
  | "" :: rest | "." :: rest => follow base rest
  | ".." :: rest => follow (baseAround base) rest
  | [name] => .name base name
  | name :: rest => .behind base name rest

/-- Follows a path. One that begins with a slash starts from the root. -/
def locate (path : String) : Place :=
  follow (if path.toList.head? = some '/' then "/" else "") (Text.split '/' path)

/-- The objection to a path as a whole: it is empty, or it has 4096 bytes or more. -/
def pathError? (path : String) : Option FileError :=
  if path.isEmpty then some .missing
  else if 4096 ≤ path.utf8ByteSize then some .nameTooLong
  else none

/-- The objection to a name: it has more than 255 bytes. -/
def nameError? (name : String) : Option FileError :=
  if 255 < name.utf8ByteSize then some .nameTooLong else none

/-- Why a path cannot go on behind a name: it is too long, the name of a file, or no name. -/
def obstacle (directory : Directory) (base name : String) : FileError :=
  (nameError? name).getD
    (if (directory.get? (base ++ name)).isSome then .notDirectory else .missing)

/-- The name under which a file that is to be read goes. -/
def nameToRead (directory : Directory) (path : String) : Except FileError String :=
  match pathError? path, locate path with
  | some error, _ => .error error
  | none, .directory => .error .isDirectory
  | none, .name base name =>
    match nameError? name with
    | some error => .error error
    | none => .ok (base ++ name)
  | none, .behind base name _ => .error (directory.obstacle base name)

/-- The name under which a file that is to be written goes. A path that ends in a slash can only
be that of a directory. -/
def nameToWrite (directory : Directory) (path : String) : Except FileError String :=
  match pathError? path, locate path with
  | none, .behind base name rest =>
    .error (if rest.all String.isEmpty then .isDirectory else directory.obstacle base name)
  | _, _ => directory.nameToRead path

/-- Reads a file. -/
def read (directory : Directory) (path : String) : Except FileError (Array UInt8) := do
  match directory.get? (← directory.nameToRead path) with
  | some contents => return contents
  | none => throw .missing

/-- Writes a file. -/
def write (directory : Directory) (path : String) (contents : Array UInt8) :
    Except FileError Directory := do
  return directory.put (← directory.nameToWrite path) contents

/-- The operations on a directory that is at hand as a value. -/
def operations : Files (StateM Directory) where
  read path := fun directory => (directory.read path, directory)
  write path contents := fun directory =>
    match directory.write path contents with
    | .ok directory => (.ok (), directory)
    | .error error => (.error error, directory)

end Directory

end Abnf
