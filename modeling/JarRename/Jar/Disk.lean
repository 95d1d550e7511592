import JarRename.Jar.Archive

/-!
# Disks

A disk holds folders, files and archives at places. A path leads to a place step by step. Each step
needs a folder to stand in, also a step `.` and a step `..`, so that a path through something that
is no folder, or is not there, leads nowhere.
-/
namespace JarRename.Jar

/-- A place on a disk: the names from the root down to it. -/
abbrev Place := List (List Char)

/-- Where one step of a walk leads. Above the root there is only the root. -/
def Place.step (place : Place) (name : List Char) : Place :=
  if name = ['.'] then place
  else if name = ['.', '.'] then place.dropLast
  else place ++ [name]

inductive Node where
  | folder
  | file (data : Bytes)
  | archive (entries : List Entry)
  deriving DecidableEq, Repr, Inhabited

/-- The bytes of an archive without entries: the record that ends the list of them. -/
def emptyArchive : Bytes := [0x50, 0x4b, 5, 6] ++ List.replicate 18 0

namespace Node

/-- The entries of an archive. -/
def entries : Node → Except ArchiveFault (List Entry)
  | archive entries => .ok entries
  | folder => .error (.unreadable .isFolder)
  | file data =>
    if data = emptyArchive then .ok []
    else .error (if data.length < emptyArchive.length then .tooShort else .noDirectory)

/-- The bytes of a file that is to hold mappings. An archive with entries is no text. -/
def mappingBytes : Node → Except MappingError Bytes
  | archive [] => .ok emptyArchive
  | archive _ => .error .notText
  | folder => .error (.unreadable .isFolder)
  | file data => .ok data

end Node

/-- What a disk holds. The program runs in the folder `here`, where relative paths begin; this
folder and the folders around it are there without being listed. -/
structure Disk where
  here : Place
  nodes : List (Place × Node)
  deriving DecidableEq, Repr, Inhabited

namespace Disk

def node? (disk : Disk) (place : Place) : Option Node :=
  if place.isPrefixOf disk.here then some .folder else disk.nodes.lookup place

def remove (disk : Disk) (place : Place) : Disk :=
  { disk with nodes := disk.nodes.filter (·.1 != place) }

def put (disk : Disk) (place : Place) (node : Node) : Disk :=
  { disk with nodes := (disk.remove place).nodes ++ [(place, node)] }

/-- Puts a node at a place, and folders around it where there is nothing. -/
def store (disk : Disk) (place : Place) (node : Node) : Disk :=
  let around := (List.range place.length).map place.take
  let addFolder (disk : Disk) (folder : Place) : Disk :=
    if (disk.node? folder).isNone then disk.put folder .folder else disk
  (around.foldl addFolder disk).put place node

/-- The way down from the folder `here` to a place below it. -/
def fromHere? (disk : Disk) (place : Place) : Option Place :=
  if disk.here.isPrefixOf place then some (place.drop disk.here.length) else none

/-- The archives that are not in `before`, or not with these entries. -/
def archivesSince (disk before : Disk) : List (Place × List Entry) :=
  disk.nodes.filterMap fun (place, node) =>
    match node with
    | .archive entries =>
      if ((before.node? place).bind (·.entries.toOption)) = some entries then none
      else some (place, entries)
    | _ => none

/-- The most bytes that the name of a file or folder may have. -/
def nameLimit : Nat := 255

/-- The most bytes that a path may have. -/
def pathLimit : Nat := 4095

/-- Refuses paths that no walk begins with. -/
def checkPath (path : String) (zeroFault : FileFault) : Except FileFault Unit :=
  if path.toList.contains '\x00' then .error zeroFault
  else if path.isEmpty then .error .notFound
  else if pathLimit < path.utf8ByteSize then .error .nameTooLong
  else .ok ()

def checkFolder (disk : Disk) (place : Place) : Except FileFault Unit :=
  match disk.node? place with
  | some .folder => .ok ()
  | some _ => .error .notFolder
  | none => .error .notFound

/-- One step of a walk, which needs a folder to stand in. What it leads to need not exist. -/
def step (disk : Disk) (place : Place) (name : List Char) : Except FileFault Place := do
  disk.checkFolder place
  if nameLimit < (String.ofList name).utf8ByteSize then throw .nameTooLong
  return place.step name

/-- Where a path begins. -/
def origin (disk : Disk) (path : String) : Place := if Path.isAbsolute path then [] else disk.here

/-- The place that a path leads to, whether or not there is anything. -/
def locate (disk : Disk) (path : String) : Except FileFault Place := do
  checkPath path .zeroCharacter
  (Path.steps path).foldlM disk.step (disk.origin path)

/-- What stands at a path. -/
def openAt (disk : Disk) (path : String) : Except FileFault Node := do
  match disk.node? (← disk.locate path) with
  | none => throw .notFound
  | some .folder => return .folder
  | some node => if Path.endsInSlash path then throw .notFolder else return node

/-- The place that a file may be moved to, as far as the path tells. It has to be named by the last
step of the path. -/
def destination (disk : Disk) (path : String) : Except FileFault Place := do
  checkPath path .invalidPath
  let steps := Path.steps path
  let folder ← steps.dropLast.foldlM disk.step (disk.origin path)
  disk.checkFolder folder
  match steps.getLast? with
  | none | some ['.'] | some ['.', '.'] => throw .busy
  | some name =>
    let place ← disk.step folder name
    if Path.endsInSlash path then throw .notFolder else return place

/-- Adds an entry at the end of an archive. -/
def append (disk : Disk) (place : Place) (entry : Entry) : Disk :=
  match disk.node? place with
  | some (.archive entries) => disk.put place (.archive (entries ++ [entry]))
  | _ => disk

/-- Moves a file to a path; a file that is there makes way, a folder does not. -/
def rename (disk : Disk) (source : Place) (path : String) : Except FileFault Disk := do
  let target ← disk.destination path
  match disk.node? target, disk.node? source with
  | some .folder, _ => throw .isFolder
  | _, some node => return (disk.remove source).put target node
  | _, none => throw .notFound

/-- Nothing is stored at the place, and the program does not run in it. -/
structure Fresh (disk : Disk) (place : Place) : Prop where
  not_around : place.isPrefixOf disk.here = false
  not_stored : ∀ stored ∈ disk.nodes, stored.1 ≠ place

/-- A name that nothing on the disk has: it is longer than all others. -/
def freshName (disk : Disk) : List Char :=
  let names := disk.here ++ disk.nodes.flatMap (·.1)
  ".tmp".toList ++ List.replicate ((names.map List.length).foldl max 0) '0'

theorem le_foldl_max {lengths : List Nat} {start n : Nat} (h : n ≤ start ∨ n ∈ lengths) :
    n ≤ lengths.foldl max start := by
  induction lengths generalizing start with
  | nil => simpa using h
  | cons length lengths ih =>
    refine ih ?_
    obtain hle | hm := h
    · exact .inl (Nat.le_trans hle (Nat.le_max_left _ _))
    · obtain rfl | hm := List.mem_cons.1 hm
      · exact .inl (Nat.le_max_right _ _)
      · exact .inr hm

theorem freshName_notMem (disk : Disk) :
    disk.freshName ∉ disk.here ++ disk.nodes.flatMap (·.1) := by
  intro hm
  have hle : disk.freshName.length ≤
      ((disk.here ++ disk.nodes.flatMap (·.1)).map List.length).foldl max 0 :=
    le_foldl_max (.inr (List.mem_map_of_mem hm))
  rw [freshName, List.length_append, List.length_replicate] at hle
  have hpositive : 0 < ".tmp".toList.length := by decide
  omega

theorem fresh_append_freshName (disk : Disk) (folder : Place) :
    disk.Fresh (folder ++ [disk.freshName]) := by
  have hnew := disk.freshName_notMem
  constructor
  · rw [Bool.eq_false_iff]
    intro hprefix
    have hsub := (List.isPrefixOf_iff_prefix.1 hprefix).subset
    exact hnew (List.mem_append_left _ (hsub (by simp)))
  · intro stored hs hplace
    have hm : disk.freshName ∈ stored.1 := by simp [hplace]
    exact hnew (List.mem_append_right _ (List.mem_flatMap.2 ⟨stored, hs, hm⟩))

/-- The full path of a new file in a folder. -/
def newPath (disk : Disk) (folder : String) : String :=
  let above := if Path.isAbsolute folder then [] else '/' :: ['/'].intercalate disk.here ++ ['/']
  let slash := if Path.endsInSlash folder then [] else ['/']
  String.ofList (above ++ folder.toList ++ slash ++ disk.freshName)

/-- The place of a new file in a folder. -/
def newPlace (disk : Disk) (folder : String) : Except FileFault Place :=
  match disk.openAt folder, disk.locate folder with
  | .ok .folder, .ok around => .ok (around ++ [disk.freshName])
  | .error fault, _ | _, .error fault => .error (.atPath fault (disk.newPath folder))
  | .ok _, .ok _ => .error (.atPath .notFolder (disk.newPath folder))

theorem fresh_newPlace {disk : Disk} {folder : String} {place : Place}
    (h : disk.newPlace folder = .ok place) : disk.Fresh place := by
  unfold newPlace at h
  split at h
  · rename_i around _ _
    cases h
    exact disk.fresh_append_freshName around
  all_goals cases h

end Disk

/-- How temporary files are made: where a new one is placed in a folder, or why there is none. -/
structure TemporaryFiles where
  place : Disk → (folder : String) → Except FileFault Place
  /-- A temporary file takes no place that is in use. -/
  fresh : ∀ {disk folder found}, place disk folder = .ok found → disk.Fresh found

/-- Temporary files with long names. -/
def TemporaryFiles.longNames : TemporaryFiles := ⟨Disk.newPlace, Disk.fresh_newPlace⟩

end JarRename.Jar
