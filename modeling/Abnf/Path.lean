/-!
# Paths

File names and their extensions. A path is a text in which slashes separate the names of
directories and, last, of a file.
-/

namespace Abnf.Path

/-- What stands behind the last occurrence of a character: the whole text if there is none. -/
def behindLast (mark : Char) (path : List Char) : List Char :=
  (path.reverse.takeWhile (· != mark)).reverse

/-- What stands before what is behind the last occurrence of a character, that character
included. -/
def upToLast (mark : Char) (path : List Char) : List Char :=
  (path.reverse.dropWhile (· != mark)).reverse

/-- A file name without its extension, which is the last dot and what follows it. A dot that
begins the name does not begin an extension. -/
def stem (name : List Char) : List Char :=
  match (upToLast '.' name).dropLast with
  | [] => name
  | c :: cs => c :: cs

/-- The path with the extension of its file name replaced, or added if it has none. Where only a
dot would stand before the extension, the extension is taken away and none is added, because what
is left then names a directory. -/
def withExtension (extension path : String) : String :=
  let parent := upToLast '/' path.toList
  let name := behindLast '/' path.toList
  if stem name = ['.'] then
    String.ofList (parent ++ upToLast '.' name)
  else
    String.ofList (parent ++ stem name) ++ "." ++ extension

end Abnf.Path
