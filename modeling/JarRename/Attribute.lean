import JarRename.ClassError

/-!
# Attributes

An attribute is a name and a body of raw bytes. Bodies that mention names or types have a
structured form, `AttributeBody`, one constructor for each layout.
-/
namespace JarRename

/-- An attribute as it stands in a class file. -/
structure Attribute where
  name : PoolIndex
  info : Bytes
  deriving DecidableEq, Repr, Inhabited

/-- A range of bytecode with its handler. A catch type of zero catches everything. -/
structure ExceptionHandler where
  start : UInt16
  stop : UInt16
  handler : UInt16
  catchType : PoolIndex
  deriving DecidableEq, Repr, Inhabited

structure Code where
  maxStack : UInt16
  maxLocals : UInt16
  bytecode : Bytes
  handlers : List ExceptionHandler
  attributes : List Attribute
  deriving DecidableEq, Repr, Inhabited

/-- An entry of the table of nested classes. Local and anonymous classes have no outer class, and
anonymous classes have no simple name. -/
structure InnerClass where
  inner : PoolIndex
  outer : Option PoolIndex
  simpleName : Option PoolIndex
  flags : UInt16
  deriving DecidableEq, Repr, Inhabited

/-- A local variable with its range; `type` is a descriptor or a signature. -/
structure LocalVariable where
  start : UInt16
  length : UInt16
  name : PoolIndex
  type : PoolIndex
  slot : UInt16
  deriving DecidableEq, Repr, Inhabited

structure RecordComponent where
  name : PoolIndex
  descriptor : PoolIndex
  attributes : List Attribute
  deriving DecidableEq, Repr, Inhabited

/-- Value of an annotation element. -/
inductive ElementValue where
  | const (tag : UInt8) (value : PoolIndex)
  | enumConstant (type name : PoolIndex)
  /-- A class literal, given by a result descriptor. -/
  | classLiteral (descriptor : PoolIndex)
  | nested (type : PoolIndex) (elements : List (PoolIndex × ElementValue))
  | array (values : List ElementValue)
  deriving Repr, Inhabited, BEq

structure AnnotationUse where
  type : PoolIndex
  elements : List (PoolIndex × ElementValue)
  deriving Repr, Inhabited, BEq

/-- An annotation of a type inside a declaration or a method body. Target and path hold no names
and stay raw. -/
structure TypeAnnotationUse where
  target : UInt8
  info : Bytes
  path : Bytes
  use : AnnotationUse
  deriving Repr, Inhabited, BEq

/-- The layouts that have a structured form. -/
inductive AttributeKind where
  | code | signature | enclosingMethod | innerClasses | localVariables | localVariableTypes | record
  | annotations | parameterAnnotations | typeAnnotations | annotationDefault
  deriving DecidableEq, Repr, Inhabited

def AttributeKind.ofName? : String → Option AttributeKind
  | "Code" => some .code
  | "Signature" => some .signature
  | "EnclosingMethod" => some .enclosingMethod
  | "InnerClasses" => some .innerClasses
  | "LocalVariableTable" => some .localVariables
  | "LocalVariableTypeTable" => some .localVariableTypes
  | "Record" => some .record
  | "RuntimeVisibleAnnotations" | "RuntimeInvisibleAnnotations" => some .annotations
  | "RuntimeVisibleParameterAnnotations" | "RuntimeInvisibleParameterAnnotations" =>
    some .parameterAnnotations
  | "RuntimeVisibleTypeAnnotations" | "RuntimeInvisibleTypeAnnotations" => some .typeAnnotations
  | "AnnotationDefault" => some .annotationDefault
  | _ => none

inductive AttributeBody where
  | code (code : Code)
  | signature (index : PoolIndex)
  | enclosingMethod (owner : PoolIndex) (method : Option PoolIndex)
  | innerClasses (classes : List InnerClass)
  | localVariables (entries : List LocalVariable)
  | localVariableTypes (entries : List LocalVariable)
  | record (components : List RecordComponent)
  | annotations (annotations : List AnnotationUse)
  | parameterAnnotations (parameters : List (List AnnotationUse))
  | typeAnnotations (annotations : List TypeAnnotationUse)
  | annotationDefault (value : ElementValue)
  deriving Repr, Inhabited, BEq

def AttributeBody.kind : AttributeBody → AttributeKind
  | code _ => .code
  | signature _ => .signature
  | enclosingMethod _ _ => .enclosingMethod
  | innerClasses _ => .innerClasses
  | localVariables _ => .localVariables
  | localVariableTypes _ => .localVariableTypes
  | record _ => .record
  | annotations _ => .annotations
  | parameterAnnotations _ => .parameterAnnotations
  | typeAnnotations _ => .typeAnnotations
  | annotationDefault _ => .annotationDefault

end JarRename
