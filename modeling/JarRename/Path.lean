import JarRename.Text.Cut

/-!
# Paths

A path names parts with slashes between them. Empty parts and parts `.` count for nothing, but a
walk along the path takes a step for a part `.`, and that step needs a folder to stand in.
-/
namespace JarRename.Path

open Text

def isAbsolute (path : String) : Bool := path.toList.head? == some '/'

/-- The steps that a walk along the path takes. -/
def steps (path : String) : List (List Char) :=
  (splitOn '/' path.toList).filter fun part => !part.isEmpty

/-- Whether a part counts. -/
def counts (part : List Char) : Bool := !part.isEmpty && part != ['.']

/-- The parts that count. -/
def parts (path : String) : List (List Char) := (splitOn '/' path.toList).filter counts

/-- The name of the file or folder at the end of a path. -/
def fileName? (path : String) : Option (List Char) :=
  match (parts path).getLast? with
  | none => none
  | some name => if name = ['.', '.'] then none else some name

/-- What follows the last point of the file name. A point at the beginning of a name does not
count. -/
def extension? (path : String) : Option (List Char) := do
  let (before, after) ← cutLast? '.' (← fileName? path)
  if before.isEmpty then none else some after

/-- Whether a path says of itself that it leads to a folder. -/
def endsInSlash (path : String) : Bool := path.toList.getLast? == some '/'

/-- The path to the folder around a file: what stands before the last part that counts. The folder
in which the program runs is `.`, which is also what is around a path without such a part. -/
def parent (path : String) : String :=
  let skip := List.dropWhile fun part => !counts part
  match skip (splitOn '/' path.toList).reverse with
  | [] => "."
  | _ :: around =>
    match skip around with
    | [] => if isAbsolute path then "/" else "."
    | folders => String.ofList (['/'].intercalate folders.reverse)

end JarRename.Path
