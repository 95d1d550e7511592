import JarRename.Jar.Storage
import JarRename.Mapping.Inverse

/-!
# Command line

The program takes the paths of an archive, of the result and of a mapping file. Arguments are read
from left to right, and the first one that is wrong or asks for help decides.
-/
namespace JarRename.CommandLine

open Jar Text

structure Options where
  paths : List String
  format : Option MappingFormat
  reverse : Bool
  keepSignatures : Bool
  threads : Option Nat
  batchSize : Option Nat
  store : Bool
  deriving DecidableEq, Repr, Inhabited

/-- What the arguments ask for. -/
inductive Request where
  | run (input output mappings : String) (options : Options)
  /-- Help or the version. -/
  | information
  | misuse
  deriving DecidableEq, Repr, Inhabited

/-- An option that takes a value. -/
inductive Valued where
  | format | threads | batchSize
  deriving DecidableEq, Repr, Inhabited

def Valued.ofName? : String → Option Valued
  | "format" => some .format
  | "threads" => some .threads
  | "batch-size" => some .batchSize
  | _ => none

/-- A number of 64 bits in decimal digits, which may have a plus sign. -/
def word? (text : String) : Option Nat :=
  let digits := (dropPrefix? ['+'] text.toList).getD text.toList
  let n := digits.foldl (fun n c => n * 10 + (c.toNat - 48)) 0
  if digits.isEmpty || !digits.all Char.isDigit || maxWord < n then none else some n

/-- Gives an option its value, which it may get only once. -/
def setValue? (options : Options) (valued : Valued) (value : String) : Option Options :=
  match valued with
  | .format => do
    if options.format.isSome then none
    let format ← MappingFormat.all.find? (·.name == value)
    return { options with format := some format }
  | .threads => do
    if options.threads.isSome then none
    return { options with threads := some (← word? value) }
  | .batchSize => do
    if options.batchSize.isSome then none
    return { options with batchSize := some (← word? value) }

/-- Sets a flag, which may be set only once. -/
def setFlag? (options : Options) : String → Option Options
  | "reverse" => if options.reverse then none else some { options with reverse := true }
  | "keep-signatures" =>
    if options.keepSignatures then none else some { options with keepSignatures := true }
  | "store" => if options.store then none else some { options with store := true }
  | _ => none

/-- Adds a path, of which there are three. -/
def addPath? (options : Options) (path : String) : Option Options :=
  if path.isEmpty || 3 ≤ options.paths.length then none
  else some { options with paths := options.paths ++ [path] }

/-- What is left after the last argument. -/
def finish (options : Options) : Request :=
  match options.paths with
  | [input, output, mappings] => .run input output mappings options
  | _ => .misuse

/-- Reads arguments that are all paths. -/
def parsePaths (options : Options) : List String → Request
  | [] => finish options
  | path :: rest =>
    match addPath? options path with
    | some options => parsePaths options rest
    | none => .misuse

/-- What an argument is by its first characters. -/
inductive Shape where
  | path
  | short (flags : List Char)
  /-- An option by its name, with what follows an equals sign. -/
  | long (name : String) (value : Option String)
  | endOfOptions
  deriving DecidableEq, Repr

def shape (argument : String) : Shape :=
  match argument.toList with
  | ['-', '-'] => .endOfOptions
  | '-' :: '-' :: cs =>
    match cut? '=' cs with
    | some (name, value) => .long (String.ofList name) (some (String.ofList value))
    | none => .long (String.ofList cs) none
  | ['-'] => .path
  | '-' :: flags => .short flags
  | _ => .path

/-- Reads arguments; `waiting` is an option that still has to get its value. -/
def parseFrom (options : Options) (waiting : Option Valued) : List String → Request
  | [] => if waiting.isSome then .misuse else finish options
  | argument :: rest =>
    match shape argument, waiting with
    | .path, some valued =>
      match setValue? options valued argument with
      | some options => parseFrom options none rest
      | none => .misuse
    | _, some _ => .misuse
    | .path, none =>
      match addPath? options argument with
      | some options => parseFrom options none rest
      | none => .misuse
    | .endOfOptions, none => parsePaths options rest
    | .short flags, none =>
      match flags with
      | 'h' :: _ | 'V' :: _ => .information
      | _ => .misuse
    | .long name value, none =>
      match Valued.ofName? name, value with
      | some valued, none => parseFrom options (some valued) rest
      | some valued, some value =>
        match setValue? options valued value with
        | some options => parseFrom options none rest
        | none => .misuse
      | none, some _ => .misuse
      | none, none =>
        if name = "help" ∨ name = "version" then .information
        else match setFlag? options name with
          | some options => parseFrom options none rest
          | none => .misuse

def parse (arguments : List String) : Request :=
  parseFrom ⟨[], none, false, false, none, none, false⟩ none arguments

/-- The settings that options ask for, on a machine with this number of processors. -/
def settings (processors : Nat) (options : Options) : Settings :=
  let base := Settings.forProcessors processors
  let base := if options.keepSignatures then { base with signaturePolicy := .keep } else base
  let base := match options.threads with
    | some count => base.withParallelism count
    | none => base
  let base := match options.batchSize with
    | some count => base.withBatchSize count
    | none => base
  if options.store then { base with compression := .stored } else base

/-- How a run of the program ends. -/
structure Outcome where
  exitCode : UInt8
  errorText : String
  disk : Disk

/-- How a failure ends the program. Too many threads are a fault of their own, without a text. -/
def Outcome.ofError (disk : Disk) : JarError → Outcome
  | .tooManyThreads => ⟨101, "", disk⟩
  | e => ⟨1, s!"error: {e.message}\n", disk⟩

/-- Renames an archive with a mapping file or with its inverse. -/
def renameWith (storage : Storage) (processors : Nat) (input output mappings : String)
    (options : Options) : Except JarError Summary × Disk :=
  match Storage.readMappings storage.disk mappings options.format with
  | .error e => (.error (.badMappings e), storage.disk)
  | .ok set =>
    storage.renameFile input output (if options.reverse then set.inverse else set)
      (settings processors options)

/-- Runs the program. The texts of help and of misuse are left to the caller. -/
def run (storage : Storage) (processors : Nat) (arguments : List String) : Outcome :=
  match parse arguments with
  | .information => ⟨0, "", storage.disk⟩
  | .misuse => ⟨2, "", storage.disk⟩
  | .run input output mappings options =>
    match renameWith storage processors input output mappings options with
    | (.ok _, disk) => ⟨0, "", disk⟩
    | (.error e, disk) => .ofError disk e

end JarRename.CommandLine
