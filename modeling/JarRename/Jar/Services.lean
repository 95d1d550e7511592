import JarRename.Jar.SourceName

/-!
# Service files

A service file is named for an interface and lists its providers, one on a line. Renaming keeps
comments, blanks and line ends.
-/
namespace JarRename.Jar.Services

open Text

def folder : List Char := "META-INF/services/".toList

/-- Whether an entry is a service file: it lies directly in the folder of services. -/
def isServiceFile (path : String) : Bool :=
  match dropPrefix? folder path.toList with
  | none => false
  | some interface => !interface.isEmpty && !interface.contains '/'

/-- The new path of a service file whose interface gets a new name. -/
def renamePath? (set : MappingSet) (path : String) : Option String := do
  let interface ← dropPrefix? folder path.toList
  return String.ofList (folder ++ (← set.mapSourceName? interface))

/-- A line with its provider renamed: the text before the first `#`, less the blanks around it. -/
def renameLine (set : MappingSet) (line : List Char) : List Char :=
  let code := line.takeWhile (· != '#')
  match set.mapSourceName? (trim code) with
  | none => line
  | some mapped =>
    code.takeWhile isBlank ++ mapped ++ (code.reverse.takeWhile isBlank).reverse ++
      line.dropWhile (· != '#')

def renameProviders (set : MappingSet) (text : List Char) : List Char :=
  ['\n'].intercalate ((splitOn '\n' text).map (renameLine set))

end JarRename.Jar.Services
