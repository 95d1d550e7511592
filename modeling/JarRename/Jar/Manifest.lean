import JarRename.Jar.SourceName

/-!
# Manifests

A manifest consists of sections with blank lines between them, a section of headers, and a header
of a line `name: value` with the lines that continue it. `stripDigests` takes the digests of a
signature out of all sections but the first; `renameMainClass` gives the main class its new name.
Both give back the very text where there is nothing to change.
-/
namespace JarRename.Jar

open Text

abbrev Line := List Char

/-- A header with the lines that continue it, each of which begins with a space. -/
structure Header where
  first : Line
  more : List Line
  deriving DecidableEq, Repr, Inhabited

abbrev Section := List Header

def lower (cs : List Char) : List Char := cs.map Char.toLower

/-- Whether two texts are equal but for the case of ASCII letters. -/
def sameLetters (a b : List Char) : Bool := lower a == lower b

/-- Whether an entry is the manifest. -/
def isManifest (path : String) : Bool := sameLetters path.toList "META-INF/MANIFEST.MF".toList

/-- Whether an entry belongs to a signature: a signature file or block, or a file `SIG-…`, directly
in the folder of the manifest. -/
def isSignatureFile (path : String) : Bool :=
  match dropPrefix? "META-INF/".toList (path.toList.map Char.toUpper) with
  | none => false
  | some file =>
    !file.contains '/' &&
      ((dropPrefix? "SIG-".toList file).isSome ||
        [".SF", ".RSA", ".DSA", ".EC"].any fun ending =>
          ((dropSuffix? ending.toList file).map (!·.isEmpty)).getD false)

namespace Header

def lines (header : Header) : List Line := header.first :: header.more

/-- The name of a header, which never goes on in the next line. -/
def name (header : Header) : List Char :=
  trim ((cut? ':' header.first).elim header.first (·.1))

/-- The value of a header with all its lines joined. -/
def value (header : Header) : List Char :=
  trim ((cut? ':' header.first).elim [] (·.2) ++
    header.more.flatMap fun line => (dropPrefix? [' '] line).getD line)

def isName (header : Header) : Bool := sameLetters header.name "Name".toList

def isMainClass (header : Header) : Bool := sameLetters header.name "Main-Class".toList

def isDigest (header : Header) : Bool :=
  let name := lower header.name
  (dropSuffix? "-digest".toList name).isSome || hasPart "-digest-manifest".toList name

end Header

namespace Manifest

/-- The lines of a text without their ends. -/
def linesOf (text : List Char) : List Line :=
  (splitOn '\n' text).map fun line => (dropSuffix? ['\r'] line).getD line

def isContinuation (line : Line) : Bool := line.head? == some ' '

/-- The lines at the beginning that continue a header before them, and the headers after them. -/
def gather (lines : List Line) : List Line × List Header :=
  lines.foldr (fun line (pending, headers) =>
    if isContinuation line then (line :: pending, headers)
    else ([], ⟨line, pending⟩ :: headers)) ([], [])

/-- The headers of a section. Its first line is never a continuation. -/
def headersOf : List Line → Section
  | [] => []
  | first :: rest =>
    let (pending, headers) := gather rest
    ⟨first, pending⟩ :: headers

def sectionsOf (text : List Char) : List Section :=
  ((splitWhere List.isEmpty (linesOf text)).filter (!·.isEmpty)).map headersOf

/-- How a text ends its lines. -/
def lineEnd (text : List Char) : List Char :=
  if hasPart ['\r', '\n'] text then ['\r', '\n'] else ['\n']

/-- The text of sections, with a blank line after each. -/
def render (ending : List Char) (sections : List Section) : List Char :=
  sections.flatMap fun headers =>
    (headers.flatMap Header.lines).flatMap (· ++ ending) ++ ending

/-- A section without its digests, or nothing if it had digests and only names are left. -/
def stripSection (headers : Section) : Option Section :=
  let kept := headers.filter (!·.isDigest)
  if kept.length = headers.length ∨ kept.any (!·.isName) then some kept else none

def stripDigests (text : List Char) : List Char :=
  match sectionsOf text with
  | [] => text
  | main :: rest =>
    if rest.any fun headers => headers.any Header.isDigest then
      render (lineEnd text) (main :: rest.filterMap stripSection)
    else text

/-- The most bytes of a line, its end not counted. -/
def maxLineLength : Nat := 72

/-- Cuts a header into lines that are short enough, of which all but the first begin with a space.
Every line holds a character, so the fuel bounds their number. -/
def wrap : (fuel room : Nat) → List Char → List Line
  | 0, _, cs => [cs]
  | fuel + 1, room, cs =>
    match splitBytes room [] cs with
    | (line, []) => [line]
    | (line, rest) => line :: (wrap fuel (maxLineLength - 1) rest).modifyHead (' ' :: ·)

/-- The header of a main class. -/
def mainClassHeader (value : List Char) : Header :=
  let header := "Main-Class: ".toList ++ value
  match wrap header.length maxLineLength header with
  | [] => ⟨header, []⟩
  | first :: more => ⟨first, more⟩

/-- Puts the new main class into the first header that names one; nothing if there is none or if
it keeps its name. -/
def renameInSection? (set : MappingSet) : Section → Option Section
  | [] => none
  | header :: rest =>
    if header.isMainClass then
      (set.mapSourceName? header.value).map fun mapped => mainClassHeader mapped :: rest
    else (renameInSection? set rest).map (header :: ·)

def renameMainClass (set : MappingSet) (text : List Char) : List Char :=
  match sectionsOf text with
  | [] => text
  | main :: rest =>
    match renameInSection? set main with
    | none => text
    | some main => render (lineEnd text) (main :: rest)

end Manifest

end JarRename.Jar
