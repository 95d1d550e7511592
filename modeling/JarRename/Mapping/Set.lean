import JarRename.ClassError
import JarRename.Mapping.ClassTable

/-!
# Mapping sets

A mapping set gives new names to classes, fields and methods. Members are keyed by the class that
declares them. A field mapping without a descriptor applies to a field of any type.
-/
namespace JarRename

structure FieldKey where
  owner : BinaryName
  name : UnqualifiedName
  /-- Absent for a mapping that applies to every type. -/
  descriptor : Option String
  deriving DecidableEq, Hashable, Repr

structure MethodKey where
  owner : BinaryName
  name : UnqualifiedName
  descriptor : String
  deriving DecidableEq, Hashable, Repr

structure MappingSet where
  classes : ClassTable
  fields : Std.HashMap FieldKey UnqualifiedName
  methods : Std.HashMap MethodKey UnqualifiedName
  deriving Inhabited

namespace MappingSet

def empty : MappingSet := ⟨.empty, ∅, ∅⟩

def insertClass (set : MappingSet) (name mapped : BinaryName) : MappingSet :=
  { set with classes := set.classes.insert name mapped }

def insertField (set : MappingSet) (key : FieldKey) (mapped : UnqualifiedName) : MappingSet :=
  { set with fields := set.fields.insert key mapped }

def insertMethod (set : MappingSet) (key : MethodKey) (mapped : UnqualifiedName) : MappingSet :=
  { set with methods := set.methods.insert key mapped }

def classCount (set : MappingSet) : Nat := set.classes.size

def fieldCount (set : MappingSet) : Nat := set.fields.size

def methodCount (set : MappingSet) : Nat := set.methods.size

/-- The mapping of exactly this class. -/
def class? (set : MappingSet) (name : String) : Option BinaryName := set.classes.get? name

/-- The mapping of a field that `owner` declares; one for its type goes before one for all. -/
def field? (set : MappingSet) (owner name descriptor : String) : Option UnqualifiedName := do
  let owner ← BinaryName.ofString? owner
  let name ← UnqualifiedName.ofString? name
  (set.fields[FieldKey.mk owner name (some descriptor)]?).or
    set.fields[FieldKey.mk owner name none]?

/-- The mapping of a method that `owner` declares. -/
def method? (set : MappingSet) (owner name descriptor : String) : Option UnqualifiedName := do
  let owner ← BinaryName.ofString? owner
  let name ← UnqualifiedName.ofString? name
  set.methods[MethodKey.mk owner name descriptor]?

/-- The new name of a field that `owner` declares. -/
def mapField (set : MappingSet) (owner name descriptor : String) : String :=
  match set.field? owner name descriptor with
  | some mapped => mapped.text
  | none => name

/-- The new name of a method that `owner` declares. -/
def mapMethod (set : MappingSet) (owner name descriptor : String) : String :=
  match set.method? owner name descriptor with
  | some mapped => mapped.text
  | none => name

/-- The new name of a class. Without a mapping of its own, a nested class keeps its place below
the new name of the class around it. -/
def mapClass (set : MappingSet) (name : String) : String :=
  String.ofList (set.classes.mapName name.toList)

/-- The new name of a class with a valid name; what would be no name leaves the old one. -/
def mapBinaryName (set : MappingSet) (name : BinaryName) : BinaryName :=
  (BinaryName.ofString? (set.mapClass name.text)).getD name

/-- Replaces every class in a field descriptor. A text without an `L` mentions none. -/
def mapFieldDescriptor (set : MappingSet) (descriptor : String) : Except ClassError String :=
  if 'L' ∉ descriptor.toList then .ok descriptor
  else match FieldType.parse descriptor with
    | .ok type => .ok (type.map set.mapBinaryName).text
    | .error e => .error (.badTypeText (.descriptor descriptor e))

/-- Replaces every class in a method descriptor. A text without an `L` mentions none. -/
def mapMethodDescriptor (set : MappingSet) (descriptor : String) : Except ClassError String :=
  if 'L' ∉ descriptor.toList then .ok descriptor
  else match MethodType.parse descriptor with
    | .ok type => .ok (type.map set.mapBinaryName).text
    | .error e => .error (.badTypeText (.descriptor descriptor e))

end MappingSet

end JarRename
