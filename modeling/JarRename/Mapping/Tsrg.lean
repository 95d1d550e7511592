import JarRename.Mapping.Line

/-!
# Tiny SRG, version 1

Members are indented below their class:

```text
a/B net/example/Thing
    c count
    d (La/B;)V merge
```

A field may have a descriptor: `c I count`. A package line leaves no class current.
-/
namespace JarRename.Mapping.Tsrg

open Reading

/-- A line that is not indented. -/
def readClass : List String → Reading Unit
  | [name, mapped] =>
    if isPackage name then enter none
    else do
      let name ← binaryName name
      insertClass name (← binaryName mapped)
      enter (some name)
  | _ => throw .classColumns

/-- An indented line below `owner`. -/
def readMember (owner : BinaryName) : List String → Reading Unit
  | [name, mapped] => do
    let key : FieldKey := ⟨owner, ← unqualifiedName name, none⟩
    insertField key (← unqualifiedName mapped)
  | [name, descriptor, mapped] =>
    if descriptor.toList.head? == some '(' then do
      let key : MethodKey := ⟨owner, ← unqualifiedName name, ← methodDescriptor descriptor⟩
      insertMethod key (← unqualifiedName mapped)
    else do
      let key : FieldKey := ⟨owner, ← unqualifiedName name, some (← fieldDescriptor descriptor)⟩
      insertField key (← unqualifiedName mapped)
  | columns => throw (.twoOrThreeColumns columns.length)

def read : LineReader := fun line => do
  if line.isIndented then readMember (← owner) line.columns
  else readClass line.columns

end JarRename.Mapping.Tsrg
