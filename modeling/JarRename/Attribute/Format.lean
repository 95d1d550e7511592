import JarRename.Attribute

/-!
# Binary format of attributes

Each layout has a writer and a reader side by side. Writers check nothing: a length that is too
large for its word wraps. `decode` refuses a body that is not used up.
-/
namespace JarRename

/-- An index that zero stands for when it is absent. -/
def Bytes.optional : Option PoolIndex → Bytes
  | none => Bytes.u2 0
  | some index => Bytes.u2 index

namespace Reader

variable {ε : Type} [FormatError ε]

def optional : Reader ε (Option PoolIndex) := do
  let index ← u2
  return if index = 0 then none else some index

end Reader

namespace Attribute

def write (entry : Attribute) : Bytes :=
  Bytes.u2 entry.name ++ (Bytes.word 4 entry.info.length ++ entry.info)

def read {ε : Type} [FormatError ε] : Reader ε Attribute := do
  let name ← Reader.u2
  return ⟨name, ← Reader.take (← Reader.word 4)⟩

end Attribute

namespace ExceptionHandler

def write (handler : ExceptionHandler) : Bytes :=
  Bytes.u2 handler.start ++ Bytes.u2 handler.stop ++ Bytes.u2 handler.handler ++
    Bytes.u2 handler.catchType

def read : Reader AttributeError ExceptionHandler := do
  return ⟨← Reader.u2, ← Reader.u2, ← Reader.u2, ← Reader.u2⟩

end ExceptionHandler

namespace Code

def write (code : Code) : Bytes :=
  Bytes.u2 code.maxStack ++ Bytes.u2 code.maxLocals ++
    (Bytes.word 4 code.bytecode.length ++ code.bytecode) ++
    Bytes.counted 2 ExceptionHandler.write code.handlers ++
    Bytes.counted 2 Attribute.write code.attributes

def read : Reader AttributeError Code := do
  let maxStack ← Reader.u2
  let maxLocals ← Reader.u2
  let bytecode ← Reader.take (← Reader.word 4)
  let handlers ← Reader.counted 2 ExceptionHandler.read
  return ⟨maxStack, maxLocals, bytecode, handlers, ← Reader.counted 2 Attribute.read⟩

end Code

namespace InnerClass

def write (entry : InnerClass) : Bytes :=
  Bytes.u2 entry.inner ++ Bytes.optional entry.outer ++ Bytes.optional entry.simpleName ++
    Bytes.u2 entry.flags

def read : Reader AttributeError InnerClass := do
  return ⟨← Reader.u2, ← Reader.optional, ← Reader.optional, ← Reader.u2⟩

end InnerClass

namespace LocalVariable

def write (entry : LocalVariable) : Bytes :=
  Bytes.u2 entry.start ++ Bytes.u2 entry.length ++ Bytes.u2 entry.name ++ Bytes.u2 entry.type ++
    Bytes.u2 entry.slot

def read : Reader AttributeError LocalVariable := do
  return ⟨← Reader.u2, ← Reader.u2, ← Reader.u2, ← Reader.u2, ← Reader.u2⟩

end LocalVariable

namespace RecordComponent

def write (entry : RecordComponent) : Bytes :=
  Bytes.u2 entry.name ++ Bytes.u2 entry.descriptor ++
    Bytes.counted 2 Attribute.write entry.attributes

def read : Reader AttributeError RecordComponent := do
  return ⟨← Reader.u2, ← Reader.u2, ← Reader.counted 2 Attribute.read⟩

end RecordComponent

namespace ElementValue

/-- Tags of numbers, truth values, characters and strings. -/
def isConstTag (tag : UInt8) : Bool :=
  "BCDFIJSZs".toList.any fun c => c.toNat == tag.toNat

def enumTag : UInt8 := 101
def classTag : UInt8 := 99
def nestedTag : UInt8 := 64
def arrayTag : UInt8 := 91

/-- Writes a value in front of the bytes that follow it. Nested values are written once, however
deep they stand. -/
def writeBefore : ElementValue → (rest : Bytes) → Bytes
  | const tag value, rest => tag :: (Bytes.u2 value ++ rest)
  | enumConstant type name, rest => enumTag :: (Bytes.u2 type ++ (Bytes.u2 name ++ rest))
  | classLiteral descriptor, rest => classTag :: (Bytes.u2 descriptor ++ rest)
  | nested type elements, rest =>
    nestedTag :: (Bytes.u2 type ++ (Bytes.word 2 elements.length ++
      elements.attach.foldr
        (fun element rest => Bytes.u2 element.1.1 ++ element.1.2.writeBefore rest) rest))
  | array values, rest =>
    arrayTag :: (Bytes.word 2 values.length ++
      values.attach.foldr (fun value rest => value.1.writeBefore rest) rest)
termination_by value => value
decreasing_by
  · obtain ⟨⟨_, _⟩, mem⟩ := element
    have := List.sizeOf_lt_of_mem mem
    simp at this ⊢
    omega
  · have := List.sizeOf_lt_of_mem value.2
    simp
    omega

def write (value : ElementValue) : Bytes := value.writeBefore []

theorem foldr_append {α : Type} {items : List α} {put : α → Bytes → Bytes} {rest : Bytes}
    (h : ∀ item ∈ items, ∀ front, put item (front ++ rest) = put item front ++ rest)
    (front : Bytes) : items.foldr put (front ++ rest) = items.foldr put front ++ rest := by
  induction items with
  | nil => rfl
  | cons item items ih => simp_all

theorem writeBefore_append (value : ElementValue) (front rest : Bytes) :
    value.writeBefore (front ++ rest) = value.writeBefore front ++ rest := by
  fun_induction writeBefore value front with
  | case1 | case2 | case3 => simp [writeBefore]
  | case4 type elements front ih =>
    simp only [writeBefore, List.cons_append, List.append_assoc]
    congr 3
    exact foldr_append (fun element _ front => by simp [ih element]) front
  | case5 values front ih =>
    simp only [writeBefore, List.cons_append, List.append_assoc]
    congr 2
    exact foldr_append (fun value _ => ih value) front

theorem writeBefore_eq (value : ElementValue) (rest : Bytes) :
    value.writeBefore rest = value.write ++ rest := writeBefore_append value [] rest

theorem write_const (tag : UInt8) (value : PoolIndex) :
    (const tag value).write = tag :: Bytes.u2 value := by
  simp [write, writeBefore]

theorem write_enumConstant (type name : PoolIndex) :
    (enumConstant type name).write = enumTag :: (Bytes.u2 type ++ Bytes.u2 name) := by
  simp [write, writeBefore]

theorem write_classLiteral (descriptor : PoolIndex) :
    (classLiteral descriptor).write = classTag :: Bytes.u2 descriptor := by
  simp [write, writeBefore]

theorem write_nested (type : PoolIndex) (elements : List (PoolIndex × ElementValue)) :
    (nested type elements).write = nestedTag :: (Bytes.u2 type ++
      Bytes.counted 2 (fun element => Bytes.u2 element.1 ++ element.2.write) elements) := by
  simp only [write, writeBefore, Bytes.counted]
  congr 3
  rw [List.foldr_attach (f := fun (element : PoolIndex × ElementValue) (rest : Bytes) =>
    Bytes.u2 element.1 ++ element.2.writeBefore rest)]
  induction elements with
  | nil => rfl
  | cons element elements ih => simp [ih, writeBefore_eq element.2]

theorem write_array (values : List ElementValue) :
    (array values).write = arrayTag :: Bytes.counted 2 write values := by
  simp only [write, writeBefore, Bytes.counted]
  congr 2
  rw [List.foldr_attach (f := fun (value : ElementValue) (rest : Bytes) => value.writeBefore rest)]
  induction values with
  | nil => rfl
  | cons value values ih => simp [ih, writeBefore_eq value]

/-- The elements of an annotation, with `value` reading their values. -/
def readElements (value : Reader AttributeError ElementValue) :
    Reader AttributeError (List (PoolIndex × ElementValue)) :=
  Reader.counted 2 do return (← Reader.u2, ← value)

/-- Reads a value. Every level of nesting takes a byte, so the fuel bounds the depth. -/
def readNested : (fuel : Nat) → Reader AttributeError ElementValue
  | 0 => throw .unexpectedEnd
  | fuel + 1 => do
    let tag ← Reader.u1
    if isConstTag tag then return const tag (← Reader.u2)
    else if tag = enumTag then return enumConstant (← Reader.u2) (← Reader.u2)
    else if tag = classTag then return classLiteral (← Reader.u2)
    else if tag = nestedTag then
      return nested (← Reader.u2) (← readElements (readNested fuel))
    else if tag = arrayTag then return array (← Reader.counted 2 (readNested fuel))
    else throw (.unknownValueTag tag)

def read : Reader AttributeError ElementValue := fun bytes =>
  readNested (bytes.length + 1) bytes

end ElementValue

namespace AnnotationUse

def write (entry : AnnotationUse) : Bytes :=
  Bytes.u2 entry.type ++
    Bytes.counted 2 (fun element => Bytes.u2 element.1 ++ element.2.write) entry.elements

/-- Reads an annotation with values nested at most `fuel` deep. -/
def readNested (fuel : Nat) : Reader AttributeError AnnotationUse := do
  return ⟨← Reader.u2, ← ElementValue.readElements (ElementValue.readNested fuel)⟩

end AnnotationUse

namespace TypeAnnotationUse

/-- How long the description of a target is. -/
inductive TargetForm where
  | fixed (length : Nat)
  /-- A list of ranges of six bytes each. -/
  | ranges

def targetForm? (target : UInt8) : Option TargetForm :=
  let n := target.toNat
  if n ≤ 0x01 then some (.fixed 1)
  else if 0x10 ≤ n ∧ n ≤ 0x12 then some (.fixed 2)
  else if 0x13 ≤ n ∧ n ≤ 0x15 then some (.fixed 0)
  else if n = 0x16 then some (.fixed 1)
  else if n = 0x17 then some (.fixed 2)
  else if n = 0x40 ∨ n = 0x41 then some .ranges
  else if 0x42 ≤ n ∧ n ≤ 0x46 then some (.fixed 2)
  else if 0x47 ≤ n ∧ n ≤ 0x4B then some (.fixed 3)
  else none

def readTarget (target : UInt8) : Reader AttributeError Bytes :=
  match targetForm? target with
  | none => throw (.unknownTarget target)
  | some (.fixed length) => Reader.take length
  | some .ranges => do
    let count ← Reader.word 2
    return Bytes.word 2 count ++ (← Reader.take (6 * count))

/-- The path is written whole behind half of its length in bytes. -/
def write (entry : TypeAnnotationUse) : Bytes :=
  entry.target :: (entry.info ++ (Bytes.word 1 (entry.path.length / 2) ++ entry.path ++
    entry.use.write))

def readNested (fuel : Nat) : Reader AttributeError TypeAnnotationUse := do
  let target ← Reader.u1
  let info ← readTarget target
  let path ← Reader.take (2 * (← Reader.word 1))
  return ⟨target, info, path, ← AnnotationUse.readNested fuel⟩

end TypeAnnotationUse

namespace AttributeBody

def write : AttributeBody → Bytes
  | code body => body.write
  | signature index => Bytes.u2 index
  | enclosingMethod owner method => Bytes.u2 owner ++ Bytes.optional method
  | innerClasses classes => Bytes.counted 2 InnerClass.write classes
  | localVariables entries | localVariableTypes entries => Bytes.counted 2 LocalVariable.write entries
  | record components => Bytes.counted 2 RecordComponent.write components
  | annotations entries => Bytes.counted 2 AnnotationUse.write entries
  | parameterAnnotations parameters =>
    Bytes.counted 1 (Bytes.counted 2 AnnotationUse.write) parameters
  | typeAnnotations entries => Bytes.counted 2 TypeAnnotationUse.write entries
  | annotationDefault value => value.write

/-- Reads a body of the given layout from bytes of which there are less than `fuel`. -/
def readNested (fuel : Nat) : AttributeKind → Reader AttributeError AttributeBody
  | .code => do return code (← Code.read)
  | .signature => do return signature (← Reader.u2)
  | .enclosingMethod => do return enclosingMethod (← Reader.u2) (← Reader.optional)
  | .innerClasses => do return innerClasses (← Reader.counted 2 InnerClass.read)
  | .localVariables => do return localVariables (← Reader.counted 2 LocalVariable.read)
  | .localVariableTypes => do return localVariableTypes (← Reader.counted 2 LocalVariable.read)
  | .record => do return record (← Reader.counted 2 RecordComponent.read)
  | .annotations => do return annotations (← Reader.counted 2 (AnnotationUse.readNested fuel))
  | .parameterAnnotations => do
    return parameterAnnotations (← Reader.counted 1 (Reader.counted 2 (AnnotationUse.readNested fuel)))
  | .typeAnnotations => do return typeAnnotations (← Reader.counted 2 (TypeAnnotationUse.readNested fuel))
  | .annotationDefault => do return annotationDefault (← ElementValue.readNested fuel)

/-- Reads a whole body. -/
def parse (kind : AttributeKind) (info : Bytes) : Except AttributeError AttributeBody :=
  match readNested (info.length + 1) kind info with
  | .error e => .error e
  | .ok (body, []) => .ok body
  | .ok (_, rest) => .error (.trailingBytes rest.length)

/-- Decodes the body of an attribute; `name` is for the message only. -/
def decode (kind : AttributeKind) (name : String) (info : Bytes) :
    Except ClassError AttributeBody :=
  (parse kind info).mapError (ClassError.malformedAttribute name)

end AttributeBody

end JarRename
