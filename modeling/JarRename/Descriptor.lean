import JarRename.Name

/-!
# Types of fields and methods

The types that descriptors spell, with the text of each. They are generic in what stands for a
class, so that `map` replaces every class and nothing else.
-/
namespace JarRename

/-- A primitive type. -/
inductive BaseType where
  | byte | char | double | float | int | long | short | boolean
  deriving DecidableEq, Repr, Inhabited

namespace BaseType

def letter : BaseType → Char
  | byte => 'B'
  | char => 'C'
  | double => 'D'
  | float => 'F'
  | int => 'I'
  | long => 'J'
  | short => 'S'
  | boolean => 'Z'

def ofLetter? : Char → Option BaseType
  | 'B' => some byte
  | 'C' => some char
  | 'D' => some double
  | 'F' => some float
  | 'I' => some int
  | 'J' => some long
  | 'S' => some short
  | 'Z' => some boolean
  | _ => none

/-- The keyword that names the type in source code. -/
def keyword : BaseType → String
  | byte => "byte"
  | char => "char"
  | double => "double"
  | float => "float"
  | int => "int"
  | long => "long"
  | short => "short"
  | boolean => "boolean"

def all : List BaseType := [byte, char, double, float, int, long, short, boolean]

def ofKeyword? (word : List Char) : Option BaseType :=
  all.find? fun type => type.keyword.toList == word

@[simp] theorem ofLetter?_letter (type : BaseType) : ofLetter? type.letter = some type := by
  cases type <;> rfl

theorem letter_of_ofLetter? {c : Char} {type : BaseType} (h : ofLetter? c = some type) :
    type.letter = c := by
  unfold ofLetter? at h
  split at h <;> simp_all [letter] <;> subst h <;> rfl

end BaseType

/-- A class or an array. -/
inductive RefType (Class : Type) where
  /-- A class under `dims` array dimensions. -/
  | object (dims : Nat) (name : Class)
  /-- A primitive type under one array dimension and `extra` more. -/
  | primitiveArray (extra : Nat) (element : BaseType)
  deriving DecidableEq, Repr

/-- Type of a field, a parameter or a result. -/
inductive FieldType (Class : Type) where
  | base (type : BaseType)
  | ref (type : RefType Class)
  deriving DecidableEq, Repr

/-- Type of a method; no result is `void`. -/
structure MethodType (Class : Type) where
  parameters : List (FieldType Class)
  result : Option (FieldType Class)
  deriving DecidableEq, Repr

variable {α β : Type}

namespace RefType

def map (f : α → β) : RefType α → RefType β
  | object dims name => object dims (f name)
  | primitiveArray extra element => primitiveArray extra element

/-- The letters of the type, with `spell` giving the text of a class. -/
def render (spell : α → List Char) : RefType α → List Char
  | object dims name => List.replicate dims '[' ++ 'L' :: (spell name ++ [';'])
  | primitiveArray extra element => List.replicate (extra + 1) '[' ++ [element.letter]

end RefType

namespace FieldType

def object (name : α) : FieldType α := ref (.object 0 name)

def map (f : α → β) : FieldType α → FieldType β
  | base type => base type
  | ref type => ref (type.map f)

def render (spell : α → List Char) : FieldType α → List Char
  | base type => [type.letter]
  | ref type => type.render spell

/-- The type under one more array dimension. -/
def array : FieldType α → FieldType α
  | base type => ref (.primitiveArray 0 type)
  | ref (.object dims name) => ref (.object (dims + 1) name)
  | ref (.primitiveArray extra element) => ref (.primitiveArray (extra + 1) element)

/-- The type under `n` more array dimensions. -/
def arrays (n : Nat) (type : FieldType α) : FieldType α := n.repeat array type

end FieldType

namespace MethodType

def map (f : α → β) (type : MethodType α) : MethodType β :=
  ⟨type.parameters.map (FieldType.map f), type.result.map (FieldType.map f)⟩

def renderResult (spell : α → List Char) : Option (FieldType α) → List Char
  | none => ['V']
  | some type => type.render spell

def render (spell : α → List Char) (type : MethodType α) : List Char :=
  '(' :: (type.parameters.flatMap (FieldType.render spell) ++
    ')' :: renderResult spell type.result)

end MethodType

/-- The text of a class name inside a descriptor. -/
def BinaryName.spell (name : BinaryName) : List Char := name.text.toList

namespace RefType

def text (type : RefType BinaryName) : String := String.ofList (type.render BinaryName.spell)

end RefType

namespace FieldType

def text (type : FieldType BinaryName) : String := String.ofList (type.render BinaryName.spell)

end FieldType

namespace MethodType

def text (type : MethodType BinaryName) : String := String.ofList (type.render BinaryName.spell)

end MethodType

end JarRename
