import JarRename.Mapping.Set
import JarRename.Text.Lines

/-!
# Lines of mapping files

A reader of a mapping format adds what a line says to a mapping set. Formats in which members stand
below their class also keep the class that is current. Comments begin with `#`, and blank lines do
not count.
-/
namespace JarRename.Mapping

open Text

/-- Why a line cannot be understood. -/
inductive LineError where
  | badName (cause : NameError)
  | memberExpected (text : String)
  | badFieldDescriptor (text : String) (cause : DescriptorError)
  | badMethodDescriptor (text : String) (cause : DescriptorError)
  | badSourceType (cause : DescriptorError)
  | wrongFields (kind : String)
  | unknownKind
  | twoToFourColumns (found : Nat)
  | classColumns
  | twoOrThreeColumns (found : Nat)
  | noClass
  | noRecord
  deriving DecidableEq, Repr, Inhabited

namespace LineError

def message : LineError → String
  | badName cause => cause.message
  | memberExpected text => s!"'{text}' is not of the form owner/name"
  | badFieldDescriptor text cause => s!"bad field descriptor '{text}': {cause.message}"
  | badMethodDescriptor text cause => s!"bad method descriptor '{text}': {cause.message}"
  | badSourceType cause => cause.message
  | wrongFields kind => s!"wrong number of fields for '{kind}' line"
  | unknownKind => "expected a PK:, CL:, FD:, or MD: line"
  | twoToFourColumns found => s!"expected 2 to 4 columns, found {found}"
  | classColumns => "expected a class line with 2 columns"
  | twoOrThreeColumns found => s!"expected 2 or 3 columns, found {found}"
  | noClass => "member line does not belong to a class"
  | noRecord => "invalid ProGuard line: line is not a valid proguard record"

end LineError

/-- A line without its comment and without the blanks at its end. -/
structure Line where
  text : List Char
  deriving DecidableEq, Repr, Inhabited

namespace Line

/-- The line that a text holds, if it holds more than blanks and a comment. -/
def ofText? (text : String) : Option Line :=
  match trimEnd (text.toList.takeWhile (· != '#')) with
  | [] => none
  | cs => some ⟨cs⟩

def isIndented (line : Line) : Bool := (line.text.head?.map isBlank).getD false

def columns (line : Line) : List String := (words line.text).map String.ofList

end Line

/-- How far a file has been read: the class that members belong to, and the mappings. -/
structure Progress where
  current : Option BinaryName
  set : MappingSet

/-- A step of reading. What it has changed before it fails stays changed. -/
abbrev Reading := ExceptT LineError (StateM Progress)

namespace Reading

/-- What a step gives, and how far reading is after it. -/
def outcome {α : Type} (reading : Reading α) (progress : Progress) : Except LineError α × Progress :=
  StateT.run (ExceptT.run reading) progress

def insertClass (name mapped : BinaryName) : Reading Unit :=
  modify fun progress => { progress with set := progress.set.insertClass name mapped }

def insertField (key : FieldKey) (mapped : UnqualifiedName) : Reading Unit :=
  modify fun progress => { progress with set := progress.set.insertField key mapped }

def insertMethod (key : MethodKey) (mapped : UnqualifiedName) : Reading Unit :=
  modify fun progress => { progress with set := progress.set.insertMethod key mapped }

/-- The members that follow belong to this class, if there is one. -/
def enter (current : Option BinaryName) : Reading Unit :=
  modify fun progress => { progress with current := current }

/-- The class to which a member line belongs. -/
def owner : Reading BinaryName := do
  match (← get).current with
  | some name => return name
  | none => throw .noClass

end Reading

/-- Reads a line. -/
abbrev LineReader := Line → Reading Unit

def binaryName (text : String) : Except LineError BinaryName :=
  (BinaryName.ofString text).mapError .badName

def unqualifiedName (text : String) : Except LineError UnqualifiedName :=
  (UnqualifiedName.ofString text).mapError .badName

def fieldDescriptor (text : String) : Except LineError String :=
  match FieldType.parse text with
  | .ok _ => .ok text
  | .error e => .error (.badFieldDescriptor text e)

def methodDescriptor (text : String) : Except LineError String :=
  match MethodType.parse text with
  | .ok _ => .ok text
  | .error e => .error (.badMethodDescriptor text e)

/-- Packages stand in several formats and name no class. -/
def isPackage (name : String) : Bool := name.toList.getLast? == some '/'

end JarRename.Mapping
