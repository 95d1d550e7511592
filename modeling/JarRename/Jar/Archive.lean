import JarRename.FileFault
import JarRename.Jar.Manifest
import JarRename.Jar.Services
import JarRename.Jar.Settings
import JarRename.Mapping.Format
import JarRename.Renaming.Class
import JarRename.Text.Lines

/-!
# Archives

Renames every class of an archive. Class entries move to the path of their new name; the manifest
and the service files, which name classes too, follow. All other entries are copied, but for the
files of a signature, which the settings may leave out.

The archive is read twice: once for the class index, and then batch by batch for renaming. The
classes of a batch are divided among threads, which does not show in the result.
-/
namespace JarRename.Jar

open Text

/-- Whether a path can be that of a folder. -/
def isFolderPath (path : String) : Bool :=
  match path.toList.getLast? with
  | some c => c == '/' || c == '\\'
  | none => false

/-- An entry of an archive; `mode` holds its access rights. It is the archive that tells whether an
entry is a folder. -/
structure Entry where
  path : String
  isFolder : Bool
  data : Bytes
  mode : UInt16
  compression : Compression
  /-- The path of a folder does not have to be changed to be written as one. -/
  folder_path : isFolder = true → isFolderPath path = true
  deriving DecidableEq, Repr

/-- Why a file is no archive. -/
inductive ArchiveFault where
  | tooShort
  | noDirectory
  | unreadable (fault : FileFault)
  deriving DecidableEq, Repr, Inhabited

def ArchiveFault.message : ArchiveFault → String
  | tooShort => "invalid Zip archive: Invalid zip header"
  | noDirectory => "invalid Zip archive: Could not find central directory end"
  | unreadable fault => fault.message

inductive JarError where
  | badEntry (cause : EntryError)
  | badMappings (cause : MappingError)
  /-- A class on a cycle of supertypes. -/
  | cyclicHierarchy (name : BinaryName)
  | file (path : String) (fault : FileFault)
  | archive (fault : ArchiveFault)
  /-- The number of threads is too large to divide classes among them. -/
  | tooManyThreads
  deriving DecidableEq, Repr, Inhabited

namespace JarError

/-- The text of the error behind an error, where there is one. -/
def source? : JarError → Option String
  | badEntry cause => some cause.cause.message
  | badMappings cause => some cause.message
  | file _ fault => some fault.message
  | archive fault => some fault.message
  | cyclicHierarchy _ | tooManyThreads => none

def message : JarError → String
  | badEntry cause => s!"malformed class entry '{cause.path}': {cause.cause.message}"
  | badMappings cause => s!"invalid mappings: {cause.message}"
  | cyclicHierarchy name => s!"class hierarchy of '{name.text}' is cyclic"
  | file path fault => s!"{path}: {fault.message}"
  | archive fault => s!"archive error: {fault.message}"
  | tooManyThreads => "too many threads"

end JarError

inductive EntryKind where
  | folder | classFile | manifest | signature | service | other
  deriving DecidableEq, Repr, Inhabited

namespace Entry

/-- An entry that is no folder. -/
def file (path : String) (data : Bytes) (mode : UInt16) (compression : Compression) : Entry :=
  ⟨path, false, data, mode, compression, by simp⟩

instance : Inhabited Entry := ⟨file "" [] 0 .stored⟩

/-- The entry as a folder that holds nothing. -/
def emptied (entry : Entry) : Entry := { entry with data := [], compression := .stored }

/-- The access rights of a new entry that is given none. -/
def defaultMode (path : String) : UInt16 := if isFolderPath path then 0o755 else 0o644

/-- A new entry, which is a folder if its path can be that of one. Of its mode only the access
rights count, and a folder has no data. -/
def create (path : String) (data : Bytes) (mode : Option UInt16) : Entry :=
  let mode := (mode.getD (defaultMode path)) &&& 0o777
  if h : isFolderPath path then ⟨path, true, [], mode, .stored, fun _ => h⟩
  else file path data mode .deflated

def isClassPath (path : String) : Bool := (dropSuffix? ".class".toList path.toList).isSome

/-- The kind of an entry; of several kinds that its path has, the first one here counts. -/
def kind (entry : Entry) : EntryKind :=
  if entry.isFolder then .folder
  else if isClassPath entry.path then .classFile
  else if isManifest entry.path then .manifest
  else if isSignatureFile entry.path then .signature
  else if Services.isServiceFile entry.path then .service
  else .other

def versionsFolder : List Char := "META-INF/versions/".toList

/-- The folder `META-INF/versions/…/` at the beginning of a path, for a class that is meant for a
later version of the platform. -/
def versionFolder (path : String) : List Char :=
  match (dropPrefix? versionsFolder path.toList).bind (cut? '/') with
  | some (version, _) => versionsFolder ++ version ++ ['/']
  | none => []

/-- The path of a class in the same version of the platform. -/
def classPath (path className : String) : String :=
  String.ofList (versionFolder path ++ className.toList ++ ".class".toList)

end Entry

/-- An entry with the path and the data that it is written with. -/
structure Renamed where
  source : Entry
  path : String
  data : Bytes
  deriving DecidableEq, Repr, Inhabited

namespace Renamed

/-- An entry before anything is renamed. -/
def ofEntry (entry : Entry) : Renamed := ⟨entry, entry.path, entry.data⟩

/-- Renames a class entry. -/
def renameClass (r : Remapper) (entry : Entry) : Except EntryError Renamed :=
  match r.renameBytes entry.data with
  | .ok (name, data) => .ok ⟨entry, Entry.classPath entry.path name, data⟩
  | .error cause => .error ⟨entry.path, cause⟩

end Renamed

/-- The most that a machine word holds. -/
def maxWord : Nat := 0xFFFFFFFFFFFFFFFF

/-- The number of classes for each of `threads` threads, rounded up. It is calculated in machine
words, which the sum on the way can exceed. -/
def chunkSize? (classes threads : Nat) : Option Nat :=
  if maxWord < classes + (threads - 1) then none
  else some ((classes + (threads - 1)) / threads)

/-- Cuts a list into parts of `size` elements; the last part may be shorter. -/
def chunks {α : Type} (size : Nat) (xs : List α) : List (List α) :=
  if _h : xs = [] ∨ size = 0 then []
  else xs.take size :: chunks size (xs.drop size)
termination_by xs.length
decreasing_by
  have : 0 < xs.length := List.length_pos_iff.2 fun e => _h (.inl e)
  simp only [List.length_drop]
  omega

/-- What every thread gives for its part, up to its first error. -/
def runParts {α β ε : Type} (work : α → Except ε β) (parts : List (List α)) :
    List (Except ε (List β)) :=
  parts.map fun part => part.mapM work

/-- The results of all threads; of several errors, that of the first thread. -/
def joinParts {β ε : Type} (results : List (Except ε (List β))) : Except ε (List β) :=
  (results.mapM id).map List.flatten

/-- Renames class entries, on one thread or divided among several. -/
def renameClasses (r : Remapper) (threads : Nat) (classes : List Entry) :
    Except JarError (List Renamed) :=
  let work := Renamed.renameClass r
  if threads ≤ 1 ∨ classes.length ≤ 1 then (classes.mapM work).mapError .badEntry
  else match chunkSize? classes.length threads with
    | none => .error .tooManyThreads
    | some size => (joinParts (runParts work (chunks size classes))).mapError .badEntry

/-- Puts the renamed classes back among the other entries of a batch. -/
def merge : List Entry → List Renamed → List Renamed
  | [], _ => []
  | entry :: entries, classes =>
    if entry.kind = .classFile then
      match classes with
      | renamed :: classes => renamed :: merge entries classes
      | [] => merge entries []
    else Renamed.ofEntry entry :: merge entries classes

def renameBatch (r : Remapper) (threads : Nat) (batch : List Entry) :
    Except JarError (List Renamed) := do
  return merge batch (← renameClasses r threads (batch.filter (·.kind = .classFile)))

/-- Counts of what happened to the entries of an archive. -/
structure Summary where
  entries : Nat
  classes : Nat
  /-- Classes that are written under a new path. -/
  moved : Nat
  /-- Entries of a signature that are left out. -/
  dropped : Nat
  deriving DecidableEq, Repr, Inhabited

/-- Changes the text of an entry; what is no UTF-8 stays as it is. -/
def onText (change : List Char → List Char) (data : Bytes) : Bytes :=
  match decodeUtf8? data with
  | some text => encodeUtf8 (String.ofList (change text.toList))
  | none => data

def renameManifest (set : MappingSet) (policy : SignaturePolicy) (text : List Char) : List Char :=
  let text := Manifest.renameMainClass set text
  match policy with
  | .strip => Manifest.stripDigests text
  | .keep => text

/-- What is written for an entry, which may be nothing. The data of a folder is never read. -/
def output? (set : MappingSet) (settings : Settings) (renamed : Renamed) : Option Entry :=
  let source := renamed.source
  let write (path : String) (data : Bytes) : Entry :=
    .file path data source.mode settings.compression
  match source.kind with
  | .folder => some source.emptied
  | .signature =>
    match settings.signaturePolicy with
    | .strip => none
    | .keep => some (write source.path source.data)
  | .manifest =>
    some (write source.path (onText (renameManifest set settings.signaturePolicy) source.data))
  | .service =>
    some (write ((Services.renamePath? set source.path).getD source.path)
      (onText (Services.renameProviders set) source.data))
  | .classFile | .other => some (write renamed.path renamed.data)

/-- Counts an entry and what is written for it. -/
def Summary.add (summary : Summary) (renamed : Renamed) (output : Option Entry) : Summary :=
  let isClass := renamed.source.kind = .classFile
  { entries := summary.entries + 1
    classes := summary.classes + if isClass then 1 else 0
    moved := summary.moved + if isClass ∧ renamed.path ≠ renamed.source.path then 1 else 0
    dropped := summary.dropped + if output.isNone then 1 else 0 }

/-- Writes entries in order. `emit` takes an entry to be written; it may fail, and what has been
written is returned also then. -/
def writeAll {σ : Type} (set : MappingSet) (settings : Settings)
    (emit : σ → Entry → Except JarError Unit × σ) (summary : Summary) (written : σ) :
    List Renamed → Except JarError Summary × σ
  | [] => (.ok summary, written)
  | renamed :: rest =>
    let output := output? set settings renamed
    let summary := summary.add renamed output
    match output with
    | none => writeAll set settings emit summary written rest
    | some entry =>
      match emit written entry with
      | (.error e, written) => (.error e, written)
      | (.ok _, written) => writeAll set settings emit summary written rest

/-- What reading the entries of an archive gives, one after the other. -/
abbrev Reads := List (Except JarError Entry)

/-- Reads of an archive in memory, which cannot fail. -/
def Reads.ofEntries (entries : List Entry) : Reads := entries.map .ok

/-- The entries that are read, or the first failure. -/
def Reads.entries (reads : Reads) : Except JarError (List Entry) := reads.mapM id

/-- Renames and writes one batch after the other. A batch is read whole before anything in it is
renamed. -/
def writeBatches {σ : Type} (r : Remapper) (settings : Settings)
    (emit : σ → Entry → Except JarError Unit × σ) (summary : Summary) (written : σ) :
    List Reads → Except JarError Summary × σ
  | [] => (.ok summary, written)
  | batch :: rest =>
    match batch.entries >>= renameBatch r settings.parallelism with
    | .error e => (.error e, written)
    | .ok batch =>
      match writeAll r.mappings settings emit summary written batch with
      | (.error e, written) => (.error e, written)
      | (.ok summary, written) => writeBatches r settings emit summary written rest

/-- An index without cycles. Of several classes on cycles, the order decides which one is named. -/
def refuseCycle (order : ClassOrder) (index : ClassIndex) : Except JarError ClassIndex :=
  match index.findCycleFrom? (order.names index) with
  | some name => throw (.cyclicHierarchy name)
  | none => return index

/-- The index of the classes of an archive, which must have no cycles. -/
def indexOf (order : ClassOrder) (entries : List Entry) : Except JarError ClassIndex := do
  let classes := entries.filter (·.kind = .classFile)
  let index ← (ClassIndex.build (classes.map fun entry => (entry.path, entry.data))).mapError
    .badEntry
  refuseCycle order index

/-- Adds an entry to an index, if it is a class. -/
def addEntry (index : ClassIndex) (entry : Entry) : Except JarError ClassIndex :=
  if entry.kind = .classFile then
    match ClassSummary.ofBytes entry.data with
    | .ok summary => .ok (index.insert summary)
    | .error cause => .error (.badEntry ⟨entry.path, cause⟩)
  else .ok index

/-- The index of the classes of an archive as it is read. -/
def indexReads (order : ClassOrder) (reads : Reads) : Except JarError ClassIndex :=
  reads.foldlM (fun index read => read >>= addEntry index) .empty >>= refuseCycle order

/-- Renames an archive and hands what is to be written to `emit`. The archive is read twice: the
first reads are for the index, the second for renaming. -/
def renameArchiveWith {σ : Type} (order : ClassOrder) (set : MappingSet) (settings : Settings)
    (first second : Reads) (emit : σ → Entry → Except JarError Unit × σ) (written : σ) :
    Except JarError Summary × σ :=
  match indexReads order first with
  | .error e => (.error e, written)
  | .ok index =>
    writeBatches ⟨index, set⟩ settings emit ⟨0, 0, 0, 0⟩ written
      (chunks (max settings.batchSize 1) second)

/-- Renames an archive in memory. -/
def renameArchive (set : MappingSet) (settings : Settings) (entries : List Entry)
    (order : ClassOrder := .ofTable) : Except JarError (Summary × List Entry) :=
  let reads := Reads.ofEntries entries
  match renameArchiveWith order set settings reads reads
      (fun (written : List Entry) entry => (.ok (), entry :: written)) [] with
  | (.error e, _) => .error e
  | (.ok summary, written) => .ok (summary, written.reverse)

end JarRename.Jar
