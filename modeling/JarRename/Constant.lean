import JarRename.ClassError
import JarRename.SlotVec
import JarRename.Text.ModifiedUtf8

/-!
# Constants of a class file

A constant refers to others by their index. `Constant.write` and `Constant.read` are the two
directions of the binary format.
-/
namespace JarRename

/-- What a method handle does with its member. -/
inductive HandleKind where
  | getField | getStatic | putField | putStatic
  | invokeVirtual | invokeStatic | invokeSpecial | newInvokeSpecial | invokeInterface
  deriving DecidableEq, Repr, Inhabited, Hashable

namespace HandleKind

def toByte : HandleKind → UInt8
  | getField => 1
  | getStatic => 2
  | putField => 3
  | putStatic => 4
  | invokeVirtual => 5
  | invokeStatic => 6
  | invokeSpecial => 7
  | newInvokeSpecial => 8
  | invokeInterface => 9

def all : List HandleKind :=
  [getField, getStatic, putField, putStatic, invokeVirtual, invokeStatic, invokeSpecial,
    newInvokeSpecial, invokeInterface]

def ofByte? (b : UInt8) : Option HandleKind := all.find? fun kind => kind.toByte == b

theorem ofByte?_toByte (kind : HandleKind) : ofByte? kind.toByte = some kind := by
  cases kind <;> rfl

theorem toByte_of_ofByte? {b : UInt8} {kind : HandleKind} (h : ofByte? b = some kind) :
    kind.toByte = b := by
  simpa using List.find?_some h

end HandleKind

inductive Constant where
  | utf8 (text : String)
  /-- Bytes that no text encodes, such as a string literal with half a surrogate pair. -/
  | rawUtf8 (bytes : Bytes)
  | integer (value : Int32)
  /-- A `float` as its bit pattern. -/
  | float (bits : UInt32)
  | long (value : Int64)
  /-- A `double` as its bit pattern. -/
  | double (bits : UInt64)
  | classRef (name : PoolIndex)
  | string (value : PoolIndex)
  | fieldRef (owner nameAndType : PoolIndex)
  | methodRef (owner nameAndType : PoolIndex) (isInterface : Bool)
  | nameAndType (name descriptor : PoolIndex)
  | methodHandle (kind : HandleKind) (member : PoolIndex)
  | methodType (descriptor : PoolIndex)
  | dynamic (bootstrap : UInt16) (nameAndType : PoolIndex)
  | invokeDynamic (bootstrap : UInt16) (nameAndType : PoolIndex)
  | module (name : PoolIndex)
  | package (name : PoolIndex)
  deriving DecidableEq, Repr, Inhabited, Hashable

namespace Constant

/-- A constant of eight bytes takes two slots. -/
instance : HasWidth Constant where
  width
    | long _ | double _ => 2
    | _ => 1

/-- Whether equal constants are looked for before one is added. -/
def isShared : Constant → Bool
  | utf8 _ | classRef _ | string _ | fieldRef _ _ | methodRef _ _ _ | nameAndType _ _ => true
  | _ => false

/-- The bytes of a text behind their length, which has to fit in two bytes. -/
def writeText (bytes : Bytes) : Except ClassError Bytes :=
  if bytes.length < 0x10000 then .ok (1 :: (Bytes.word 2 bytes.length ++ bytes))
  else .error (.unwritableText bytes.length)

def write : Constant → Except ClassError Bytes
  | utf8 text => writeText (Text.ModifiedUtf8.encode text.toList)
  | rawUtf8 bytes => writeText bytes
  | integer value => .ok (3 :: Bytes.u4 value.toUInt32)
  | float bits => .ok (4 :: Bytes.u4 bits)
  | long value => .ok (5 :: Bytes.u8 value.toUInt64)
  | double bits => .ok (6 :: Bytes.u8 bits)
  | classRef name => .ok (7 :: Bytes.u2 name)
  | string value => .ok (8 :: Bytes.u2 value)
  | fieldRef owner nat => .ok (9 :: (Bytes.u2 owner ++ Bytes.u2 nat))
  | methodRef owner nat false => .ok (10 :: (Bytes.u2 owner ++ Bytes.u2 nat))
  | methodRef owner nat true => .ok (11 :: (Bytes.u2 owner ++ Bytes.u2 nat))
  | nameAndType name descriptor => .ok (12 :: (Bytes.u2 name ++ Bytes.u2 descriptor))
  | methodHandle kind member => .ok (15 :: kind.toByte :: Bytes.u2 member)
  | methodType descriptor => .ok (16 :: Bytes.u2 descriptor)
  | dynamic bootstrap nat => .ok (17 :: (Bytes.u2 bootstrap ++ Bytes.u2 nat))
  | invokeDynamic bootstrap nat => .ok (18 :: (Bytes.u2 bootstrap ++ Bytes.u2 nat))
  | module name => .ok (19 :: Bytes.u2 name)
  | package name => .ok (20 :: Bytes.u2 name)

/-- A text constant, decoded where that is possible. -/
def ofTextBytes (bytes : Bytes) : Constant :=
  match Text.ModifiedUtf8.decode? bytes with
  | some cs => utf8 (String.ofList cs)
  | none => rawUtf8 bytes

/-- Reads the constant that stands at `index`, which only error messages show. -/
def read (index : PoolIndex) : Reader ClassError Constant := do
  let tag ← Reader.u1
  match tag.toNat with
  | 1 => return ofTextBytes (← Reader.take (← Reader.word 2))
  | 3 => return integer (← Reader.u4).toInt32
  | 4 => return float (← Reader.u4)
  | 5 => return long (← Reader.u8).toInt64
  | 6 => return double (← Reader.u8)
  | 7 => return classRef (← Reader.u2)
  | 8 => return string (← Reader.u2)
  | 9 => return fieldRef (← Reader.u2) (← Reader.u2)
  | 10 => return methodRef (← Reader.u2) (← Reader.u2) false
  | 11 => return methodRef (← Reader.u2) (← Reader.u2) true
  | 12 => return nameAndType (← Reader.u2) (← Reader.u2)
  | 15 =>
    let byte ← Reader.u1
    match HandleKind.ofByte? byte with
    | some kind => return methodHandle kind (← Reader.u2)
    | none => throw (.unknownTag index byte)
  | 16 => return methodType (← Reader.u2)
  | 17 => return dynamic (← Reader.u2) (← Reader.u2)
  | 18 => return invokeDynamic (← Reader.u2) (← Reader.u2)
  | 19 => return module (← Reader.u2)
  | 20 => return package (← Reader.u2)
  | _ => throw (.unknownTag index tag)

end Constant

end JarRename
