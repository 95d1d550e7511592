import JarRename.Jar.Disk

/-!
# Archives on disk

`renameFile` renames an archive that is stored on a disk. The result is first written to a
temporary file beside the output, which takes the place of the output only when all of it has been
written. Where anything fails the temporary file is removed, and the disk is as it was before.
-/
namespace JarRename.Jar

/-- The two times that an archive is read: for the index of its classes, and for rewriting them. -/
inductive Pass where
  | indexing | rewriting
  deriving DecidableEq, Repr

/-- What storage may refuse for reasons that do not follow from what is stored. Entries that are
read are told by their positions. -/
inductive Operation where
  | openArchive
  /-- The list of the entries of an archive. -/
  | readDirectory
  /-- The head of an entry that is read. -/
  | openEntry (pass : Pass) (position : Nat)
  | readData (pass : Pass) (position : Nat)
  /-- The head of an entry that is written, with its path. -/
  | startEntry (path : String)
  | writeData (path : String)
  | finish
  | rename
  deriving DecidableEq, Repr

/-- A disk, the operations that the storage refuses, and how it makes temporary files. -/
structure Storage where
  disk : Disk
  refuses : Operation → Option FileFault
  temporary : TemporaryFiles

/-- Whether the data of an entry of this kind is read. -/
def Pass.needsData : Pass → EntryKind → Bool
  | indexing, kind => kind == .classFile
  | rewriting, kind => kind != .folder

namespace Storage

/-- Storage that refuses nothing. -/
def reliable (disk : Disk) : Storage := ⟨disk, fun _ => none, .longNames⟩

/-- Reads the entry at a position. -/
def readEntry (refuses : Operation → Option FileFault) (pass : Pass) (position : Nat)
    (entry : Entry) : Except JarError Entry :=
  match refuses (.openEntry pass position) with
  | some fault => .error (.archive (.unreadable fault))
  | none =>
    if pass.needsData entry.kind then
      match refuses (.readData pass position) with
      | some fault => .error (.file entry.path fault)
      | none => .ok entry
    else .ok entry

def readEntries (refuses : Operation → Option FileFault) (pass : Pass) (entries : List Entry) :
    Reads := entries.mapIdx (readEntry refuses pass)

/-- Writes an entry to the archive at a place. A folder has no data to be written. -/
def emit (refuses : Operation → Option FileFault) (place : Place) (disk : Disk) (entry : Entry) :
    Except JarError Unit × Disk :=
  match refuses (.startEntry entry.path) with
  | some fault => (.error (.archive (.unreadable fault)), disk)
  | none =>
    match if entry.kind = .folder then none else refuses (.writeData entry.path) with
    | some fault => (.error (.file entry.path fault), disk)
    | none => (.ok (), disk.append place entry)

/-- Finishes the temporary file and puts it in the place of the output. -/
def persist (refuses : Operation → Option FileFault) (place : Place) (output : String)
    (disk : Disk) : Except JarError Disk :=
  match refuses .finish, refuses .rename with
  | some fault, _ => .error (.archive (.unreadable fault))
  | none, some fault => .error (.file output fault)
  | none, none => (disk.rename place output).mapError (.file output)

/-- The entries at a path, which are not read yet. -/
def openArchive (storage : Storage) (path : String) : Except JarError (List Entry) :=
  match storage.refuses .openArchive, storage.refuses .readDirectory with
  | some fault, _ => .error (.file path fault)
  | none, refusal => do
    let node ← (storage.disk.openAt path).mapError (.file path)
    match refusal with
    | some fault => throw (.archive (.unreadable fault))
    | none => node.entries.mapError .archive

/-- The place of a temporary file beside an output, and the disk with an empty archive there. -/
def createTemporary (storage : Storage) (output : String) : Except JarError (Place × Disk) := do
  let folder := Path.parent output
  let place ← (storage.temporary.place storage.disk folder).mapError (.file folder)
  return (place, storage.disk.put place (.archive []))

/-- Renames the archive at `input` and writes the result to `output`. -/
def renameFile (storage : Storage) (input output : String) (set : MappingSet) (settings : Settings)
    (order : ClassOrder := .ofTable) : Except JarError Summary × Disk :=
  match openArchive storage input, createTemporary storage output with
  | .error e, _ => (.error e, storage.disk)
  | .ok _, .error e => (.error e, storage.disk)
  | .ok entries, .ok (place, disk) =>
    match renameArchiveWith order set settings (readEntries storage.refuses .indexing entries)
        (readEntries storage.refuses .rewriting entries) (emit storage.refuses place) disk with
    | (.error e, disk) => (.error e, disk.remove place)
    | (.ok summary, disk) =>
      match persist storage.refuses place output disk with
      | .error e => (.error e, disk.remove place)
      | .ok disk => (.ok summary, disk)

/-- Reads a mapping file into a new set. Without a given format, the path tells it. -/
def readMappings (disk : Disk) (path : String) (given : Option MappingFormat) :
    Except MappingError MappingSet := do
  let format ← MappingFormat.choose given path
  let node ← (disk.openAt path).mapError .unreadable
  match format.readBytes (← node.mappingBytes) MappingSet.empty with
  | (.error e, _) => throw e
  | (.ok _, set) => return set

end Storage

end JarRename.Jar
