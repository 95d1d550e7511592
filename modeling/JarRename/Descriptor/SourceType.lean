import JarRename.Descriptor.Parser

/-!
# Types as source code spells them

`int[]` or `java.lang.String` instead of `[I` or `Ljava/lang/String;`: the spelling of obfuscation
mapping files.
-/
namespace JarRename

open Text

namespace FieldType

/-- Takes every `[]` off the end of a type that is written last character first, with the blanks
before it. Returns the element type, first character first, and the number of dimensions. -/
def splitDims (dims : Nat) : (reversed : List Char) → List Char × Nat
  | ']' :: '[' :: before => splitDims (dims + 1) (before.dropWhile isBlank)
  | element => (element.reverse, dims)
termination_by reversed => reversed.length
decreasing_by
  have := (List.dropWhile_sublist isBlank (l := before)).length_le
  simp only [List.length_cons]
  omega

/-- Reads a type as source code spells it. -/
def ofSource (type : List Char) : Except DescriptorError (FieldType BinaryName) :=
  let (element, dims) := splitDims 0 (trim type).reverse
  match BaseType.ofKeyword? element with
  | some type => .ok (arrays dims (.base type))
  | none =>
    match BinaryName.ofString (String.ofList (exchange '.' '/' element)) with
    | .ok name => .ok (arrays dims (.object name))
    | .error e => .error (.badClassName e)

end FieldType

namespace MethodType

/-- Reads a result type and a list of parameter types with commas between them. Empty parameters
are skipped, and the parameters are read before the result. -/
def ofSource (result parameters : List Char) : Except DescriptorError (MethodType BinaryName) := do
  let parameters ← ((splitOn ',' parameters).map trim).filter (!·.isEmpty) |>.mapM FieldType.ofSource
  if trim result == "void".toList then
    return ⟨parameters, none⟩
  else
    return ⟨parameters, some (← FieldType.ofSource result)⟩

end MethodType

end JarRename
