import JarRename.Attribute.Format
import JarRename.ConstantPool

/-!
# Class files

A class refers to its names through its constant pool. `ClassFile.write` and `ClassFile.parse` are
the two directions of the binary format.
-/
namespace JarRename

/-- Sets of access flags, one bit each. -/
abbrev AccessFlags := UInt16

namespace AccessFlags

/-- The bits that have a meaning for classes, fields, methods and nested classes. -/
def ofClasses : AccessFlags := 0xF631
def ofFields : AccessFlags := 0x50DF
def ofMethods : AccessFlags := 0x1DFF
def ofInnerClasses : AccessFlags := 0x761F

def isPrivate (flags : AccessFlags) : Bool := flags &&& 0x0002 != 0

def isStatic (flags : AccessFlags) : Bool := flags &&& 0x0008 != 0

end AccessFlags

structure Version where
  major : UInt16
  minor : UInt16
  deriving DecidableEq, Repr, Inhabited

namespace Version

def java8 : Version := ⟨52, 0⟩
def java11 : Version := ⟨55, 0⟩
def java17 : Version := ⟨61, 0⟩

end Version

/-- A field or a method. -/
structure Member where
  flags : AccessFlags
  name : PoolIndex
  descriptor : PoolIndex
  attributes : List Attribute
  deriving DecidableEq, Repr, Inhabited

structure ClassFile where
  version : Version
  pool : ConstantPool
  flags : AccessFlags
  thisClass : PoolIndex
  /-- Absent for the root of the hierarchy and for modules. -/
  superClass : Option PoolIndex
  interfaces : List PoolIndex
  fields : List Member
  methods : List Member
  attributes : List Attribute
  deriving Inhabited

/-- Changes to a class, which keep the class as it is when they fail. -/
abbrev ClassM := ExceptT ClassError (StateM ClassFile)

namespace ClassFile

/-- Runs a computation on the pool of the class. -/
def onPool {α : Type} (action : PoolM α) : ClassM α := fun file =>
  let pool := file.pool
  let file := { file with pool := ConstantPool.empty }
  let (result, pool) := action pool
  (result, { file with pool })

/-- A class without members and attributes. -/
def create (version : Version) (flags : AccessFlags) (name : String) (superName : Option String)
    (interfaceNames : List String) : Except ClassError ClassFile :=
  let indices : PoolM (PoolIndex × Option PoolIndex × List PoolIndex) := do
    let thisClass ← ConstantPool.getClass name
    let superClass ← superName.mapM ConstantPool.getClass
    return (thisClass, superClass, ← interfaceNames.mapM ConstantPool.getClass)
  match indices ConstantPool.empty with
  | (.error e, _) => .error e
  | (.ok (thisClass, superClass, interfaces), pool) =>
    .ok ⟨version, pool, flags, thisClass, superClass, interfaces, [], [], []⟩

/-- The member with its name and descriptor put into the pool. -/
def newMember (flags : AccessFlags) (name descriptor : String) : PoolM Member := do
  let name ← ConstantPool.getUtf8 name
  return ⟨flags, name, ← ConstantPool.getUtf8 descriptor, []⟩

def addField (flags : AccessFlags) (name descriptor : String) : ClassM Member := do
  let field ← onPool (newMember flags name descriptor)
  modify fun file => { file with fields := file.fields ++ [field] }
  return field

def addMethod (flags : AccessFlags) (name descriptor : String) : ClassM Member := do
  let method ← onPool (newMember flags name descriptor)
  modify fun file => { file with methods := file.methods ++ [method] }
  return method

/-- An attribute with its name put into the pool. -/
def newAttribute (name : String) (body : AttributeBody) : PoolM Attribute := do
  return ⟨← ConstantPool.getUtf8 name, body.write⟩

/-- What an attribute is added to; members are counted from zero. -/
inductive Place where
  | file
  | field (index : Nat)
  | method (index : Nat)

def attach (added : Attribute) (member : Member) : Member :=
  { member with attributes := member.attributes ++ [added] }

def addAttribute (place : Place) (name : String) (body : AttributeBody) : ClassM Attribute := do
  let added ← onPool (newAttribute name body)
  modify fun file =>
    match place with
    | .file => { file with attributes := file.attributes ++ [added] }
    | .field index => { file with fields := file.fields.modify index (attach added) }
    | .method index => { file with methods := file.methods.modify index (attach added) }
  return added

def name (file : ClassFile) : Except ClassError String := file.pool.className file.thisClass

def superName (file : ClassFile) : Except ClassError (Option String) :=
  file.superClass.mapM file.pool.className

def interfaceNames (file : ClassFile) : Except ClassError (List String) :=
  file.interfaces.mapM file.pool.className

end ClassFile

namespace Member

def write (member : Member) : Bytes :=
  Bytes.u2 member.flags ++ Bytes.u2 member.name ++ Bytes.u2 member.descriptor ++
    Bytes.counted 2 Attribute.write member.attributes

def read : Reader ClassError Member := do
  return ⟨← Reader.u2, ← Reader.u2, ← Reader.u2, ← Reader.counted 2 Attribute.read⟩

end Member

namespace ClassFile

/-- The number at the beginning of every class file. -/
def magic : UInt32 := 0xCAFEBABE

/-- The bytes after the constant pool. -/
def writeBody (file : ClassFile) : Bytes :=
  Bytes.u2 file.flags ++ Bytes.u2 file.thisClass ++ Bytes.optional file.superClass ++
    Bytes.counted 2 Bytes.u2 file.interfaces ++ Bytes.counted 2 Member.write file.fields ++
    Bytes.counted 2 Member.write file.methods ++ Bytes.counted 2 Attribute.write file.attributes

def write (file : ClassFile) : Except ClassError Bytes := do
  let pool ← file.pool.write
  return Bytes.u4 magic ++ Bytes.u2 file.version.minor ++ Bytes.u2 file.version.major ++ pool ++
    file.writeBody

def read : Reader ClassError ClassFile := do
  let found ← Reader.u4
  if found ≠ magic then throw (.badMagic found)
  let minor ← Reader.u2
  let major ← Reader.u2
  let pool ← ConstantPool.read
  let flags ← Reader.u2
  let thisClass ← Reader.u2
  let superClass ← Reader.optional
  let interfaces ← Reader.counted 2 Reader.u2
  let fields ← Reader.counted 2 Member.read
  let methods ← Reader.counted 2 Member.read
  let attributes ← Reader.counted 2 Attribute.read
  return ⟨⟨major, minor⟩, pool, flags, thisClass, superClass, interfaces, fields, methods, attributes⟩

/-- Reads a class file that takes up all of the bytes. -/
def parse (bytes : Bytes) : Except ClassError ClassFile :=
  match read bytes with
  | .error e => .error e
  | .ok (file, []) => .ok file
  | .ok (_, rest) => .error (.trailingBytes rest.length)

end ClassFile

end JarRename
