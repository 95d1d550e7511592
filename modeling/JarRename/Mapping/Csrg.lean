import JarRename.Mapping.Line

/-!
# Compact SRG

The number of columns gives the kind of a line:

```text
a/ net/example/
a/B net/example/Thing
a/B c count
a/B d (La/B;)V merge
```
-/
namespace JarRename.Mapping.Csrg

open Reading

def readColumns : List String → Reading Unit
  | [name, mapped] =>
    if isPackage name then return
    else do insertClass (← binaryName name) (← binaryName mapped)
  | [owner, name, mapped] => do
    let key : FieldKey := ⟨← binaryName owner, ← unqualifiedName name, none⟩
    insertField key (← unqualifiedName mapped)
  | [owner, name, descriptor, mapped] => do
    let key : MethodKey :=
      ⟨← binaryName owner, ← unqualifiedName name, ← methodDescriptor descriptor⟩
    insertMethod key (← unqualifiedName mapped)
  | columns => throw (.twoToFourColumns columns.length)

def read : LineReader := fun line => readColumns line.columns

end JarRename.Mapping.Csrg
