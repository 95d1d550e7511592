import JarRename.Hierarchy.Ancestors
import JarRename.Mapping.Set

/-!
# Remappers

A remapper gives the new text of every kind of symbol in a class file. It joins a mapping set, in
which members stand under the class that declares them, with a class index, which finds that class
from the one through which a member is reached.
-/
namespace JarRename

structure Remapper where
  index : ClassIndex
  mappings : MappingSet
  deriving Inhabited

namespace Remapper

def mapClass (r : Remapper) (name : String) : String := r.mappings.mapClass name

def mapFieldDescriptor (r : Remapper) (descriptor : String) : Except ClassError String :=
  r.mappings.mapFieldDescriptor descriptor

def mapMethodDescriptor (r : Remapper) (descriptor : String) : Except ClassError String :=
  r.mappings.mapMethodDescriptor descriptor

/-- A field or a method descriptor, whichever it is. -/
def mapDescriptor (r : Remapper) (descriptor : String) : Except ClassError String :=
  if descriptor.toList.head? = some '(' then r.mapMethodDescriptor descriptor
  else r.mapFieldDescriptor descriptor

/-- The name of a class constant; an array type has a field descriptor instead. -/
def mapClassConstant (r : Remapper) (name : String) : Except ClassError String :=
  if name.toList.head? = some '[' then r.mapFieldDescriptor name else .ok (r.mapClass name)

/-- The class under which a member is looked up: the one that declares it, or else `owner`. -/
def declaringClass (r : Remapper) (owner : String) (kind : MemberKind) (member : MemberKey) :
    String :=
  match r.index.findOwner owner kind member with
  | some declaring => declaring.text
  | none => owner

/-- The new name of a field that is reached through `owner`. -/
def mapField (r : Remapper) (owner name descriptor : String) : Except ClassError String := do
  let field ← MemberKey.ofTexts name descriptor
  return r.mappings.mapField (r.declaringClass owner .field field) name descriptor

/-- The first mapping of a method in the supertypes of a class, those left out that declare it in
a way that cannot be overridden. -/
def inheritedMapping? (r : Remapper) (declaring : String) (method : MemberKey) :
    Option UnqualifiedName :=
  (r.index.ancestors declaring).findSome? fun ancestor =>
    if r.index.isInheritable ancestor.text method then
      r.mappings.method? ancestor.text method.name.text method.descriptor
    else none

/-- The new name of a method that is reached through `owner`. A method that can be overridden takes
its name from the supertypes of its class if that has no mapping for it. Initializers keep their
names. -/
def mapMethod (r : Remapper) (owner name descriptor : String) : Except ClassError String := do
  let method ← MemberKey.ofTexts name descriptor
  if method.name.isInitializer then return name
  let declaring := r.declaringClass owner .method method
  match r.mappings.method? declaring name descriptor with
  | some mapped => return mapped.text
  | none =>
    if r.index.isInheritable declaring method then
      match r.inheritedMapping? declaring method with
      | some mapped => return mapped.text
      | none => return name
    else return name

/-- A generic signature. A text without an `L` mentions no class. -/
def mapSignature (r : Remapper) (signature : String) : Except ClassError String :=
  if 'L' ∉ signature.toList then .ok signature
  else match Signature.rename (m := Id) r.mapClass signature with
    | .ok mapped => .ok mapped
    | .error e => .error (.badTypeText (.signature e))

end Remapper

end JarRename
