import JarRename.Mapping.Line

/-!
# SRG

Every line begins with its kind:

```text
PK: a/ net/example/
CL: a/B net/example/Thing
FD: a/B/c net/example/Thing/count
MD: a/B/d (La/B;)V net/example/Thing/merge (Lnet/example/Thing;)V
```

Fields may have descriptors too: `FD: a/B/c I net/example/Thing/count I`.
-/
namespace JarRename.Mapping.Srg

open Reading

/-- Cuts `owner/name` at its last slash. -/
def splitMember (text : String) : Except LineError (BinaryName × UnqualifiedName) :=
  match Text.cutLast? '/' text.toList with
  | none => .error (.memberExpected text)
  | some (owner, name) => do
    return (← binaryName (String.ofList owner), ← unqualifiedName (String.ofList name))

def readColumns : List String → Reading Unit
  | ["PK:", _, _] => return
  | ["CL:", name, mapped] => do insertClass (← binaryName name) (← binaryName mapped)
  | ["FD:", member, mapped] => do
    let (owner, name) ← splitMember member
    let (_, mapped) ← splitMember mapped
    insertField ⟨owner, name, none⟩ mapped
  | ["FD:", member, descriptor, mapped, _] => do
    let (owner, name) ← splitMember member
    let (_, mapped) ← splitMember mapped
    insertField ⟨owner, name, some (← fieldDescriptor descriptor)⟩ mapped
  | ["MD:", member, descriptor, mapped, _] => do
    let (owner, name) ← splitMember member
    let (_, mapped) ← splitMember mapped
    insertMethod ⟨owner, name, ← methodDescriptor descriptor⟩ mapped
  | kind :: _ =>
    if kind ∈ ["PK:", "CL:", "FD:", "MD:"] then throw (.wrongFields kind) else throw .unknownKind
  | [] => throw .unknownKind

def read : LineReader := fun line => readColumns line.columns

end JarRename.Mapping.Srg
