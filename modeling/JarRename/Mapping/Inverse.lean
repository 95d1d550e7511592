import JarRename.Mapping.Set

/-!
# The inverse of a mapping set

The inverse maps new names back to old ones. Owners and descriptors of members are given their new
names, so that the inverse is keyed by what a class file holds after renaming.
-/
namespace JarRename.MappingSet

/-- The new form of a descriptor; one that cannot be parsed stays as it is. -/
def inverseDescriptor (mapped : Except ClassError String) (descriptor : String) : String :=
  match mapped with
  | .ok mapped => mapped
  | .error _ => descriptor

/-- The key of a field after renaming; `mapped` is its new name. -/
def inverseFieldKey (set : MappingSet) (key : FieldKey) (mapped : UnqualifiedName) : FieldKey :=
  ⟨set.mapBinaryName key.owner, mapped,
    key.descriptor.map fun d => inverseDescriptor (set.mapFieldDescriptor d) d⟩

/-- The key of a method after renaming; `mapped` is its new name. -/
def inverseMethodKey (set : MappingSet) (key : MethodKey) (mapped : UnqualifiedName) : MethodKey :=
  ⟨set.mapBinaryName key.owner, mapped,
    inverseDescriptor (set.mapMethodDescriptor key.descriptor) key.descriptor⟩

/-- The inverse of the given entries, with names renamed by `set`. Of two entries with one
inverse key, the later one counts. -/
def inverseOf (set : MappingSet) (classes : List (BinaryName × BinaryName))
    (fields : List (FieldKey × UnqualifiedName)) (methods : List (MethodKey × UnqualifiedName)) :
    MappingSet :=
  let inverse := classes.foldl (fun inv (name, mapped) => inv.insertClass mapped name) empty
  let inverse := fields.foldl
    (fun inv (key, mapped) => inv.insertField (set.inverseFieldKey key mapped) key.name) inverse
  methods.foldl
    (fun inv (key, mapped) => inv.insertMethod (set.inverseMethodKey key mapped) key.name) inverse

def inverse (set : MappingSet) : MappingSet :=
  set.inverseOf set.classes.toList set.fields.toList set.methods.toList

end JarRename.MappingSet
