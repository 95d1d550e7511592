import JarRename.Remapper

/-!
# Renaming texts in a constant pool

Text constants and names with types may be shared with things that have to stay as they are, so
they are never changed. A place that mentions a renamed symbol is pointed at a constant with the
new text instead, which is added where there is none.
-/
namespace JarRename.Renaming

/-- Reads from the pool. -/
def look {α : Type} (read : ConstantPool → Except ClassError α) : PoolM α := fun pool =>
  (read pool, pool)

/-- What a text constant holds. -/
inductive TextKind where
  | fieldDescriptor
  | methodDescriptor
  /-- A field descriptor, or `V`. -/
  | resultDescriptor
  | signature
  deriving DecidableEq, Repr

def mapText (r : Remapper) (kind : TextKind) (text : String) : Except ClassError String :=
  match kind with
  | .fieldDescriptor => r.mapFieldDescriptor text
  | .methodDescriptor => r.mapMethodDescriptor text
  | .resultDescriptor => if text = "V" then .ok text else r.mapFieldDescriptor text
  | .signature => r.mapSignature text

/-- The index of a text: the old one when the text stays, otherwise one with the new text. -/
def replaceText (index : PoolIndex) (old new : String) : PoolM PoolIndex :=
  if new = old then return index else ConstantPool.getUtf8 new

/-- The constant to use instead of the text at `index`. -/
def renameText (r : Remapper) (kind : TextKind) (index : PoolIndex) : PoolM PoolIndex := do
  let old ← look (·.text index)
  replaceText index old (← mapText r kind old)

/-- The two texts of a name and type. -/
def nameAndTypeParts (pool : ConstantPool) (index : PoolIndex) :
    Except ClassError (PoolIndex × PoolIndex) := do
  match ← pool.get index with
  | .nameAndType name descriptor => return (name, descriptor)
  | _ => throw (.badIndex index .nameAndType)

def mapMemberName (r : Remapper) (kind : MemberKind) (owner name descriptor : String) :
    Except ClassError String :=
  match kind with
  | .field => r.mapField owner name descriptor
  | .method => r.mapMethod owner name descriptor

def descriptorKind : MemberKind → TextKind
  | .field => .fieldDescriptor
  | .method => .methodDescriptor

/-- The name and type to use for a member that is reached through `owner`. -/
def renameMember (r : Remapper) (kind : MemberKind) (owner : String) (index : PoolIndex) :
    PoolM PoolIndex := do
  let (name, descriptor) ← look (·.nameAndDescriptor index)
  let newName ← mapMemberName r kind owner name descriptor
  let newDescriptor ← mapText r (descriptorKind kind) descriptor
  if newName = name ∧ newDescriptor = descriptor then return index
  else
    let (nameIndex, descriptorIndex) ← look (nameAndTypeParts · index)
    let nameIndex ← replaceText nameIndex name newName
    let descriptorIndex ← replaceText descriptorIndex descriptor newDescriptor
    ConstantPool.getNameAndType nameIndex descriptorIndex

/-- The name and type to use for a dynamic constant, whose name is no symbol. -/
def renameDynamic (r : Remapper) (kind : TextKind) (index : PoolIndex) : PoolM PoolIndex := do
  let (name, descriptor) ← look (nameAndTypeParts · index)
  let newDescriptor ← renameText r kind descriptor
  if newDescriptor = descriptor then return index
  else ConstantPool.getNameAndType name newDescriptor

end JarRename.Renaming
