import Std.Data.HashMap
import JarRename.Constant

/-!
# Constant pools

A pool can be extended, and a constant can be replaced by one of the same width, so an index into
the pool stays valid. `share` finds an equal constant where there is one and adds it otherwise;
`known` holds for each shared constant the index at which it is found.

An operation that fails may have changed the pool, so operations return the pool also then.
-/
namespace JarRename

structure ConstantPool where
  slots : SlotVec Constant
  known : Std.HashMap Constant PoolIndex
  deriving Inhabited

/-- Computations on a pool, which keep the pool when they fail. -/
abbrev PoolM := ExceptT ClassError (StateM ConstantPool)

namespace ConstantPool

def empty : ConstantPool := ⟨SlotVec.emptyAt 1, ∅⟩

/-- Number of slots, the unused slot zero included. -/
def slotCount (pool : ConstantPool) : UInt16 := UInt16.ofNat pool.slots.next

/-- The constants with their indices, in order. -/
def toList (pool : ConstantPool) : List (PoolIndex × Constant) :=
  pool.slots.toList.map fun (address, constant) => (UInt16.ofNat address, constant)

def get (pool : ConstantPool) (index : PoolIndex) : Except ClassError Constant :=
  match pool.slots.get index.toNat with
  | .ok (_, constant) => .ok constant
  | .error _ => .error (.badIndex index .constant)

/-- The most slots a pool has. -/
def maxSlots : Nat := 0xFFFF

/-- The most bytes a text has. -/
def maxTextLength : Nat := 0xFFFF

/-- Why a constant cannot be added at the end. The length of a decoded text is checked, the length
of a raw one is not. -/
def pushError? (pool : ConstantPool) (constant : Constant) : Option ClassError :=
  if maxSlots < pool.slots.next + width constant then some (.poolOverflow pool.slots.next)
  else match constant with
    | .utf8 text =>
      let length := Text.ModifiedUtf8.length text.toList
      if maxTextLength < length then some (.textTooLong length) else none
    | _ => none

/-- Adds a constant at the end, also where there is an equal one. -/
def push (constant : Constant) : PoolM PoolIndex := fun pool =>
  match pool.pushError? constant with
  | some e => (.error e, pool)
  | none =>
    let index := pool.slotCount
    let ⟨slots, known⟩ := pool
    let known := if constant.isShared then known.insertIfNew constant index else known
    (.ok index, ⟨slots.push constant, known⟩)

/-- The index of a shared constant, which is added if it is not there. -/
def share (constant : Constant) : PoolM PoolIndex := fun pool =>
  match pool.known[constant]? with
  | some index => (.ok index, pool)
  | none => push constant pool

def getUtf8 (text : String) : PoolM PoolIndex := share (.utf8 text)

def getClass (name : String) : PoolM PoolIndex := do share (.classRef (← getUtf8 name))

def getString (value : String) : PoolM PoolIndex := do share (.string (← getUtf8 value))

def getNameAndType (name descriptor : PoolIndex) : PoolM PoolIndex :=
  share (.nameAndType name descriptor)

/-- The indices of the owner and of the name and type of a member. -/
def getMember (owner name descriptor : String) : PoolM (PoolIndex × PoolIndex) := do
  let owner ← getClass owner
  let name ← getUtf8 name
  let descriptor ← getUtf8 descriptor
  return (owner, ← getNameAndType name descriptor)

def getFieldRef (owner name descriptor : String) : PoolM PoolIndex := do
  let (owner, nat) ← getMember owner name descriptor
  share (.fieldRef owner nat)

def getMethodRef (owner name descriptor : String) (isInterface : Bool) : PoolM PoolIndex := do
  let (owner, nat) ← getMember owner name descriptor
  share (.methodRef owner nat isInterface)

/-- Texts, names and types are shared by their contents and never replaced. -/
def isFixed : Constant → Bool
  | .utf8 _ | .rawUtf8 _ | .nameAndType _ _ => true
  | _ => false

/-- Whether a constant is found again after it has replaced another one. -/
def isFoundAfterSet : Constant → Bool
  | .classRef _ | .string _ => true
  | _ => false

/-- What is known after the constant `old` at `index` has made way for `new`. -/
def relearn (known : Std.HashMap Constant PoolIndex) (index : PoolIndex) (old new : Constant) :
    Std.HashMap Constant PoolIndex :=
  let known := if known[old]? = some index then known.erase old else known
  if isFoundAfterSet new then known.insertIfNew new index else known

/-- Replaces a constant. What is known is updated before the widths are compared. -/
def set (index : PoolIndex) (constant : Constant) : PoolM Unit := fun pool =>
  match pool.get index with
  | .error e => (.error e, pool)
  | .ok old =>
    if isFixed old then (.error (.badIndex index .replaceable), pool)
    else
      let ⟨slots, known⟩ := pool
      let known := relearn known index old constant
      match slots.set index.toNat constant with
      | (.ok _, slots) => (.ok (), ⟨slots, known⟩)
      | (.error _, slots) => (.error (.badIndex index .replaceable), ⟨slots, known⟩)

def text (pool : ConstantPool) (index : PoolIndex) : Except ClassError String :=
  match pool.get index with
  | .ok (.utf8 text) => .ok text
  | .ok (.rawUtf8 _) => .error (.undecodedText index)
  | _ => .error (.badIndex index .utf8)

/-- The name of a class constant, which may be the descriptor of an array type. -/
def className (pool : ConstantPool) (index : PoolIndex) : Except ClassError String := do
  match ← pool.get index with
  | .classRef name => pool.text name
  | _ => throw (.badIndex index .classRef)

def nameAndDescriptor (pool : ConstantPool) (index : PoolIndex) :
    Except ClassError (String × String) := do
  match ← pool.get index with
  | .nameAndType name descriptor => return (← pool.text name, ← pool.text descriptor)
  | _ => throw (.badIndex index .nameAndType)

/-- The bytes of constants; `seen` holds what has been written so far, in reverse. -/
def writeAll (seen : Bytes) : List Constant → Except ClassError Bytes
  | [] => .ok seen.reverse
  | constant :: rest =>
    match constant.write with
    | .error e => .error e
    | .ok bytes => writeAll (bytes.reverseAux seen) rest

/-- The bytes of a pool: its number of slots, then its constants. -/
def write (pool : ConstantPool) : Except ClassError Bytes := do
  return Bytes.u2 pool.slotCount ++ (← writeAll [] (pool.slots.toList.map (·.2)))

/-- Reads constants until the pool has `count` slots. The fuel bounds their number. -/
def readUpTo (count : UInt16) : (fuel : Nat) → (pool : ConstantPool) → Bytes →
    Except ClassError (ConstantPool × Bytes)
  | 0, pool, bytes => .ok (pool, bytes)
  | fuel + 1, pool, bytes =>
    if pool.slotCount < count then
      match Constant.read pool.slotCount bytes with
      | .error e => .error e
      | .ok (constant, rest) =>
        match push constant pool with
        | (.error e, _) => .error e
        | (.ok _, pool) => readUpTo count fuel pool rest
    else .ok (pool, bytes)

def read : Reader ClassError ConstantPool := do
  let count ← Reader.u2
  let pool ← readUpTo count count.toNat empty
  if pool.slotCount = count then return pool
  else throw (.badIndex count .poolEnd)

end ConstantPool

end JarRename
