import Std.Data.HashMap
import JarRename.ClassFile

/-!
# Class index

What renaming has to know about every class of an archive: its supertypes and the members that it
declares. Of two definitions of one class, the first one counts.
-/
namespace JarRename

/-- Name and descriptor of a field or method. -/
structure MemberKey where
  name : UnqualifiedName
  descriptor : String
  deriving DecidableEq, Hashable, Repr

namespace MemberKey

def ofTexts (name descriptor : String) : Except ClassError MemberKey :=
  match UnqualifiedName.ofString name with
  | .ok name => .ok ⟨name, descriptor⟩
  | .error e => .error (.badName e)

end MemberKey

inductive MemberKind where
  | field | method
  deriving DecidableEq, Hashable, Repr, Inhabited

/-- A class as the index knows it. -/
structure ClassSummary where
  name : BinaryName
  flags : AccessFlags
  superClass : Option BinaryName
  interfaces : List BinaryName
  fields : Std.HashMap MemberKey AccessFlags
  methods : Std.HashMap MemberKey AccessFlags
  deriving Inhabited

namespace ClassSummary

/-- The direct supertypes: the superclass first, then the interfaces in their order. -/
def supertypes (summary : ClassSummary) : List BinaryName :=
  summary.superClass.toList ++ summary.interfaces

def declares (summary : ClassSummary) (kind : MemberKind) (member : MemberKey) : Bool :=
  match kind with
  | .field => summary.fields.contains member
  | .method => summary.methods.contains member

def nameOf (text : String) : Except ClassError BinaryName :=
  match BinaryName.ofString text with
  | .ok name => .ok name
  | .error e => .error (.badName e)

/-- The declared members with their flags; of two equal declarations the later one counts. -/
def membersOf (pool : ConstantPool) (members : List Member) :
    Except ClassError (Std.HashMap MemberKey AccessFlags) :=
  members.foldlM (fun table member => do
    let name ← pool.text member.name
    let key ← MemberKey.ofTexts name (← pool.text member.descriptor)
    return table.insert key member.flags) ∅

def ofClassFile (file : ClassFile) : Except ClassError ClassSummary := do
  let name ← nameOf (← file.name)
  let superClass ← (← file.superName).mapM nameOf
  let interfaces ← (← file.interfaceNames).mapM nameOf
  let fields ← membersOf file.pool file.fields
  let methods ← membersOf file.pool file.methods
  return ⟨name, file.flags, superClass, interfaces, fields, methods⟩

def ofBytes (bytes : Bytes) : Except ClassError ClassSummary := do
  ofClassFile (← ClassFile.parse bytes)

end ClassSummary

/-- An entry of an archive that is no class that can be renamed. -/
structure EntryError where
  path : String
  cause : ClassError
  deriving DecidableEq, Repr, Inhabited

structure ClassIndex where
  classes : Std.HashMap BinaryName ClassSummary
  deriving Inhabited

namespace ClassIndex

def empty : ClassIndex := ⟨∅⟩

def size (index : ClassIndex) : Nat := index.classes.size

def isEmpty (index : ClassIndex) : Bool := index.classes.isEmpty

def get? (index : ClassIndex) (name : BinaryName) : Option ClassSummary := index.classes[name]?

/-- The class with this name, which may be any text. -/
def find? (index : ClassIndex) (name : String) : Option ClassSummary := do
  index.get? (← BinaryName.ofString? name)

/-- The names of the classes, in no particular order. -/
def names (index : ClassIndex) : List BinaryName := index.classes.keys

/-- The classes, in no particular order. -/
def toList (index : ClassIndex) : List ClassSummary := index.classes.values

/-- Adds a class, unless there is one of its name. -/
def insert (index : ClassIndex) (summary : ClassSummary) : ClassIndex :=
  ⟨index.classes.insertIfNew summary.name summary⟩

def contains (index : ClassIndex) (name : BinaryName) : Bool := index.classes.contains name

/-- The index of class entries, given by path and bytes. The first bad entry is the error. -/
def build (entries : List (String × Bytes)) : Except EntryError ClassIndex :=
  entries.foldlM (fun index (path, bytes) =>
    match ClassSummary.ofBytes bytes with
    | .ok summary => .ok (index.insert summary)
    | .error cause => .error ⟨path, cause⟩) empty

end ClassIndex

end JarRename
