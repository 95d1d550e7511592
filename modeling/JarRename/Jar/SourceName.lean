import JarRename.Mapping.Set

/-!
# Class names with points

Manifests and service files write class names as source code does, with points for slashes.
-/
namespace JarRename.MappingSet

/-- The new name of a class written with points, or nothing if the class keeps its name. -/
def mapSourceName? (set : MappingSet) (name : List Char) : Option (List Char) :=
  let binary := Text.exchange '.' '/' name
  let mapped := set.classes.mapName binary
  if mapped = binary then none else some (Text.exchange '/' '.' mapped)

end JarRename.MappingSet
