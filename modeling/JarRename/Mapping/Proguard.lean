import JarRename.Descriptor.SourceType
import JarRename.Mapping.Line

/-!
# ProGuard mapping files

Types are written as source code writes them, and members are indented below their class:

```text
com.example.Thing -> a.b:
    int count -> a
    1:4:void merge(com.example.Thing,int[]) -> b
    5:5:void com.example.Other.helper():20:20 -> b
```

The names on the left are the old ones. A method with a class in front of its name was moved there
from that class; such lines are about line numbers only and map nothing.
-/
namespace JarRename.Mapping.Proguard

open Text Reading

inductive Record where
  | classRecord (name mapped : List Char)
  | fieldRecord (type name mapped : List Char)
  | methodRecord (type : List Char) (origin : Option (List Char))
      (name parameters mapped : List Char)
  /-- A line about the file, which maps nothing. -/
  | header
  deriving DecidableEq, Repr

def isReturn (c : Char) : Bool := c == '\r'

/-- White space within ASCII. -/
def isAsciiBlank (c : Char) : Bool := c == ' ' || c == '\t' || c == '\n' || c == '\x0c' || c == '\r'

/-- Takes what stands before the first character that satisfies `stop`; a carriage return may not
come first. -/
def upTo? (stop : Char → Bool) (cs : List Char) : Option (List Char × List Char) :=
  let rest := cs.dropWhile fun c => !(isReturn c || stop c)
  if (rest.head?.map isReturn).getD false then none
  else some (cs.takeWhile fun c => !(isReturn c || stop c), rest)

/-- The most that a line number can be. -/
def maxNumber : Nat := 0xFFFFFFFFFFFFFFFF

/-- Takes the digits off the front of a text, if they are a line number. -/
def number? (cs : List Char) : Option (Nat × List Char) :=
  let digits := cs.takeWhile Char.isDigit
  let n := digits.foldl (fun n c => n * 10 + (c.toNat - 48)) 0
  if digits.isEmpty || maxNumber < n then none else some (n, cs.dropWhile Char.isDigit)

/-- Takes `start:end:` off the front of a text that begins with a line number. -/
def dropRange? (cs : List Char) : Option (List Char) :=
  match number? cs with
  | none => some cs
  | some (_, rest) => do
    let (_, rest) ← number? (← dropPrefix? [':'] rest)
    dropPrefix? [':'] rest

/-- Takes a colon and a number off the front of a text that begins with a colon; tells whether it
did. -/
def dropNumber? (cs : List Char) : Option (Bool × List Char) :=
  match dropPrefix? [':'] cs with
  | none => some (false, cs)
  | some rest => do
    let (_, rest) ← number? rest
    return (true, rest)

/-- Takes up to two line numbers off the front of a text. -/
def dropNumbers? (cs : List Char) : Option (List Char) := do
  let (found, rest) ← dropNumber? cs
  if found then return (← dropNumber? rest).2 else return rest

/-- The rest of a record, which holds the new name and no carriage return but at its end. -/
def mapped? (cs : List Char) : Option (List Char) := do
  let rest ← dropPrefix? " -> ".toList cs
  if (rest.dropWhile (!isReturn ·)).all isReturn then some (rest.takeWhile (!isReturn ·)) else none

def classRecord? (cs : List Char) : Option Record := do
  let (name, rest) ← upTo? (· == ' ') cs
  let (mapped, rest) ← upTo? (· == ':') (← dropPrefix? " -> ".toList rest)
  let rest ← dropPrefix? [':'] rest
  if rest.all isReturn then some (.classRecord name mapped) else none

def memberRecord? (cs : List Char) : Option Record := do
  let (type, rest) ← upTo? (· == ' ') (← dropRange? cs)
  let (name, rest) ← upTo? (fun c => c == ' ' || c == '(') (← dropPrefix? [' '] rest)
  match dropPrefix? ['('] rest with
  | none => return .fieldRecord type name (← mapped? rest)
  | some rest =>
    let (parameters, rest) ← upTo? (· == ')') rest
    let mapped ← mapped? (← dropNumbers? (← dropPrefix? [')'] rest))
    match cutLast? '.' name with
    | some (origin, name) => return .methodRecord type (some origin) name parameters mapped
    | none => return .methodRecord type none name parameters mapped

/-- The record of a line. -/
def record? (line : List Char) : Option Record :=
  let line := line.dropWhile isReturn
  if line.head? == some ' ' || line.head? == some '\t' then
    memberRecord? (line.dropWhile isAsciiBlank)
  else classRecord? line

def className (name : List Char) : Except LineError BinaryName :=
  binaryName (String.ofList (exchange '.' '/' (trim name)))

def interpret : Record → Reading Unit
  | .classRecord name mapped => do
    let name ← className name
    insertClass name (← className mapped)
    enter (some name)
  | .fieldRecord type name mapped => do
    let type ← (FieldType.ofSource type).mapError LineError.badSourceType
    let key : FieldKey := ⟨← owner, ← unqualifiedName (String.ofList name), some type.text⟩
    insertField key (← unqualifiedName (String.ofList (trim mapped)))
  | .methodRecord _ (some _) _ _ _ => return
  | .methodRecord type none name parameters mapped => do
    let type ← (MethodType.ofSource type parameters).mapError LineError.badSourceType
    let key : MethodKey := ⟨← owner, ← unqualifiedName (String.ofList name), type.text⟩
    insertMethod key (← unqualifiedName (String.ofList (trim mapped)))
  | .header => return

/-- Reads lines of which `cut` gives the records. -/
def readWith (cut : List Char → Option Record) : LineReader := fun line =>
  match cut line.text with
  | none => throw .noRecord
  | some record => interpret record

def read : LineReader := readWith record?

end JarRename.Mapping.Proguard
