import JarRename.CommandLine

/-!
# The program

The program works on archives that are unpacked into folders. What its arguments name is read into
a `Disk`, `CommandLine.run` does the work, and the archive that has changed is written back.
-/
open JarRename Jar

namespace JarRename.Unpacked

def usage : String :=
  "Rename classes, fields and methods inside an unpacked archive\n\n" ++
  "Usage: jar-rename [OPTIONS] <INPUT> <OUTPUT> <MAPPINGS>\n\n" ++
  "      --format <FORMAT>   srg, csrg, tsrg or proguard; by default told by the extension\n" ++
  "      --reverse           Rename from new names back to old ones\n" ++
  "      --keep-signatures   Copy signature files and digests\n" ++
  "      --threads <N>       Number of threads that rename classes\n" ++
  "      --batch-size <N>    Number of entries in memory at a time\n" ++
  "      --store             Do not compress entries\n" ++
  "  -h, --help              Print this text\n" ++
  "  -V, --version           Print this text"

/-- The entries of a folder in the order of their names; `above` is the path to the folder. -/
partial def entriesBelow (folder above : String) : IO (List Entry) := do
  let found ← (← IO.FS.realPath folder).readDir
  let items := found.toList.mergeSort fun a b => !(b.fileName < a.fileName)
  let entries ← items.mapM fun item => do
    let path := above ++ item.fileName
    if ← item.path.isDir then
      let nested ← entriesBelow item.path.toString (path ++ "/")
      return Entry.create (path ++ "/") [] none :: nested
    else
      return [Entry.create path (← IO.FS.readBinFile item.path).toList none]
  return entries.flatten

def isFolder (path : String) : IO Bool := do
  match ← (IO.FS.realPath path).toBaseIO with
  | .ok found => found.isDir
  | .error _ => return false

/-- The file or folder at a path. -/
def nodeAt? (path : String) : IO (Option Node) := do
  if ← isFolder path then return some .folder
  match ← (IO.FS.readBinFile path).toBaseIO with
  | .ok data => return some (.file data.toList)
  | .error _ => return none

/-- The file or archive at a path. -/
def archiveAt? (path : String) : IO (Option Node) := do
  if ← isFolder path then return some (.archive (← entriesBelow path ""))
  else nodeAt? path

/-- The path of the first `count` steps of a path. -/
def beginning (path : String) (count : Nat) : String :=
  let steps := String.ofList (['/'].intercalate ((Path.steps path).take count))
  if Path.isAbsolute path then "/" ++ steps else "./" ++ steps

/-- Puts on a disk what a walk along a path passes, and at its end what was found there. -/
def keep (disk : Disk) (path : String) (found : Option Node) : IO Disk := do
  let steps := Path.steps path
  let put (disk : Disk) (count : Nat) : Option Node → Disk
    | none => disk
    | some node => disk.store ((steps.take count).foldl Place.step (disk.origin path)) node
  let passed ← (List.range steps.length).foldlM (fun disk count => do
    return put disk count (← nodeAt? (beginning path count))) disk
  return put passed steps.length found

/-- The part of the file system that the arguments name. What stands at the output makes way for it
whatever it holds. -/
def readDisk (input output mappings : String) : IO Disk := do
  let folder := Path.parent output
  let disk : Disk := ⟨Path.parts (← IO.currentDir).toString, []⟩
  let disk ← keep disk folder (← nodeAt? folder)
  let disk ← keep disk output ((← nodeAt? output).map fun _ => .file [])
  let disk ← keep disk mappings (← nodeAt? mappings)
  keep disk input (← archiveAt? input)

def writeEntry (folder : String) (entry : Entry) : IO Unit := do
  if entry.isFolder then IO.FS.createDirAll (folder ++ "/" ++ entry.path)
  else
    IO.FS.createDirAll (folder ++ "/" ++ Path.parent entry.path)
    IO.FS.writeBinFile (folder ++ "/" ++ entry.path) ⟨entry.data.toArray⟩

/-- Writes an archive beside a path and then moves it there. -/
def writeArchive (path : String) (entries : List Entry) : IO Unit := do
  let written := path ++ ".tmp"
  IO.FS.createDirAll written
  try
    entries.forM (writeEntry written)
    if ← isFolder path then IO.FS.removeDirAll path
    else discard (IO.FS.removeFile path).toBaseIO
    IO.FS.rename written path
  catch e =>
    IO.FS.removeDirAll written
    throw e

def run (arguments : List String) : IO UInt32 := do
  match CommandLine.parse arguments with
  | .information =>
    IO.println usage
    return 0
  | .misuse =>
    IO.eprintln usage
    return 2
  | .run input output mappings _ =>
    let disk ← readDisk input output mappings
    let outcome := CommandLine.run (.reliable disk) 1 arguments
    for (_, entries) in outcome.disk.archivesSince disk do
      writeArchive output entries
    IO.eprint outcome.errorText
    return outcome.exitCode.toUInt32

end JarRename.Unpacked

def main (arguments : List String) : IO UInt32 := JarRename.Unpacked.run arguments
