import JarRename.FileFault
import JarRename.Mapping.Csrg
import JarRename.Mapping.Proguard
import JarRename.Mapping.Srg
import JarRename.Mapping.Tsrg
import JarRename.Path

/-!
# Formats of mapping files

Reading adds to a mapping set, so that several files can be read into one. A line that cannot be
understood ends the reading; the lines before it stay read.
-/
namespace JarRename

inductive MappingFormat where
  | srg | csrg | tsrg | proguard
  deriving DecidableEq, Repr, Inhabited

inductive MappingError where
  /-- A line is no UTF-8. -/
  | notText
  | unreadable (fault : FileFault)
  | unknownFormat (name : String)
  | badLine (number : Nat) (content : String) (cause : Mapping.LineError)
  deriving DecidableEq, Repr, Inhabited

namespace MappingError

/-- The text of the failed transfer of bytes behind an error, where there is one. -/
def source? : MappingError → Option String
  | notText => some "stream did not contain valid UTF-8"
  | unreadable fault => some fault.message
  | _ => none

def message (e : MappingError) : String :=
  match e with
  | notText | unreadable _ => "I/O error: " ++ e.source?.getD ""
  | unknownFormat name => s!"unknown mapping format '{name}'"
  | badLine number content cause => s!"line {number}: {cause.message} (in '{content}')"

end MappingError

namespace Mapping.LineReader

/-- Reads a line. One that holds nothing leaves everything as it is. -/
def readLine (reader : LineReader) (text : String) : Reading Unit :=
  match Line.ofText? text with
  | none => return
  | some line => reader line

/-- Reads lines, of which the first has the given number. Returns what has been read also where
that fails. -/
def readLines (reader : LineReader) (number : Nat) (progress : Progress) :
    List (Option String) → Except MappingError Unit × MappingSet
  | [] => (.ok (), progress.set)
  | none :: _ => (.error .notText, progress.set)
  | some text :: rest =>
    match (reader.readLine text).outcome progress with
    | (.error e, progress) => (.error (.badLine number text e), progress.set)
    | (.ok (), progress) => readLines reader (number + 1) progress rest

/-- Reads a text into a mapping set. -/
def readText (reader : LineReader) (text : String) (set : MappingSet) :
    Except MappingError Unit × MappingSet :=
  reader.readLines 1 ⟨none, set⟩ ((Text.linesOf text).map some)

end Mapping.LineReader

namespace MappingFormat

def all : List MappingFormat := [srg, csrg, tsrg, proguard]

def name : MappingFormat → String
  | srg => "srg"
  | csrg => "csrg"
  | tsrg => "tsrg"
  | proguard => "proguard"

/-- The format of this name, whatever the case of its letters. -/
def ofName? (text : String) : Option MappingFormat :=
  all.find? fun format => format.name.toList == text.toList.map Char.toLower

def ofName (text : String) : Except MappingError MappingFormat :=
  match ofName? text with
  | some format => .ok format
  | none => .error (.unknownFormat text)

/-- The format that the extension of a file name stands for. -/
def ofPath? (path : String) : Option MappingFormat := do
  match String.ofList ((← Path.extension? path).map Char.toLower) with
  | "srg" => some srg
  | "csrg" => some csrg
  | "tsrg" => some tsrg
  | "txt" | "map" | "pro" => some proguard
  | _ => none

/-- The given format, or else the one that the path stands for. -/
def choose (given : Option MappingFormat) (path : String) : Except MappingError MappingFormat :=
  match given.or (ofPath? path) with
  | some format => .ok format
  | none => .error (.unknownFormat (String.ofList ((Path.extension? path).getD [])))

/-- The reader of a format; the records of ProGuard lines are those that `cut` gives. -/
def lineReaderWith (cut : List Char → Option Mapping.Proguard.Record) :
    MappingFormat → Mapping.LineReader
  | srg => Mapping.Srg.read
  | csrg => Mapping.Csrg.read
  | tsrg => Mapping.Tsrg.read
  | proguard => Mapping.Proguard.readWith cut

def lineReader : MappingFormat → Mapping.LineReader := lineReaderWith Mapping.Proguard.record?

/-- Reads a text into a mapping set. -/
def readText (format : MappingFormat) (text : String) (set : MappingSet) :
    Except MappingError Unit × MappingSet :=
  format.lineReader.readText text set

/-- Reads the bytes of a file into a mapping set. -/
def readBytes (format : MappingFormat) (bytes : Bytes) (set : MappingSet) :
    Except MappingError Unit × MappingSet :=
  format.lineReader.readLines 1 ⟨none, set⟩ (Text.fileLines bytes)

end MappingFormat

end JarRename
