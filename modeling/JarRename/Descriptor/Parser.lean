import JarRename.Descriptor

/-!
# Reading descriptors

Each reader takes what it needs off the front of a text and returns the rest; `parse` accepts a
text that is used up. `parse` and `render` undo each other.
-/
namespace JarRename

/-- Why a text is not a descriptor. -/
inductive DescriptorError where
  | leftover (c : Char)
  | badBaseType (c : Char)
  | missingBaseType
  | classExpected
  | unterminatedClass (name : String)
  | badClassName (cause : NameError)
  | badReference (c : Char)
  | missingType
  | methodExpected
  deriving DecidableEq, Repr, Inhabited

namespace DescriptorError

def message : DescriptorError → String
  | leftover c => s!"Unexpected leftover input '{c}'"
  | badBaseType c => s!"Invalid base type character '{c}'"
  | missingBaseType => "Missing base type character"
  | classExpected => "Expected object type to start with \x60L\x60"
  | unterminatedClass name => s!"Missing terminator for 'L{name}'"
  | badClassName cause => cause.message
  | badReference c => s!"Invalid reference type character '{c}'"
  | missingType => "Missing field type"
  | methodExpected => "Expected '(' for method"

/-- Whether the text ended too early, rather than holding something wrong. -/
def isUnexpectedEnd : DescriptorError → Bool
  | missingBaseType | unterminatedClass _ | missingType => true
  | _ => false

end DescriptorError

namespace Descriptor

/-- Takes a value off the front of a text. -/
abbrev TextReader (α : Type) := List Char → Except DescriptorError (α × List Char)

/-- Runs a reader that has to use up the text. -/
def whole {α : Type} (reader : TextReader α) (text : String) : Except DescriptorError α :=
  match reader text.toList with
  | .error e => .error e
  | .ok (value, []) => .ok value
  | .ok (_, c :: _) => .error (.leftover c)

end Descriptor

open Descriptor

def BaseType.read : TextReader BaseType
  | [] => .error .missingBaseType
  | c :: cs =>
    match BaseType.ofLetter? c with
    | some type => .ok (type, cs)
    | none => .error (.badBaseType c)

/-- Reads `L`, a class name and `;`. -/
def BinaryName.read : TextReader BinaryName
  | 'L' :: cs =>
    match Text.cut? ';' cs with
    | none => .error (.unterminatedClass (String.ofList cs))
    | some (name, rest) =>
      match BinaryName.ofString (String.ofList name) with
      | .ok name => .ok (name, rest)
      | .error e => .error (.badClassName e)
  | _ => .error .classExpected

/-- Reads an array type whose first dimension and `extra` more have been read. -/
def RefType.readArray (extra : Nat) : TextReader (RefType BinaryName)
  | '[' :: cs => RefType.readArray (extra + 1) cs
  | 'L' :: cs => (BinaryName.read ('L' :: cs)).map fun (name, rest) => (.object (extra + 1) name, rest)
  | cs => (BaseType.read cs).map fun (element, rest) => (.primitiveArray extra element, rest)

def RefType.read : TextReader (RefType BinaryName)
  | [] => .error .missingType
  | 'L' :: cs => (BinaryName.read ('L' :: cs)).map fun (name, rest) => (.object 0 name, rest)
  | '[' :: cs => RefType.readArray 0 cs
  | c :: _ => .error (.badReference c)

def FieldType.read : TextReader (FieldType BinaryName)
  | [] => .error .missingType
  | c :: cs =>
    match BaseType.ofLetter? c with
    | some type => .ok (.base type, cs)
    | none => (RefType.read (c :: cs)).map fun (type, rest) => (.ref type, rest)

theorem BaseType.length_lt_of_read {cs rest : List Char} {type : BaseType}
    (h : BaseType.read cs = .ok (type, rest)) : rest.length < cs.length := by
  unfold BaseType.read at h
  split at h
  · simp at h
  · split at h <;> simp_all

theorem BinaryName.length_lt_of_read {cs rest : List Char} {name : BinaryName}
    (h : BinaryName.read cs = .ok (name, rest)) : rest.length < cs.length := by
  unfold BinaryName.read at h
  split at h
  · split at h
    · simp at h
    · rename_i cut
      have := (Text.eq_append_of_cut? cut).1
      split at h
      · simp only [Except.ok.injEq, Prod.mk.injEq] at h
        obtain ⟨-, rfl⟩ := h
        subst this
        simp
        omega
      · simp at h
  · simp at h

theorem RefType.length_lt_of_readArray {extra : Nat} {cs rest : List Char}
    {type : RefType BinaryName} (h : RefType.readArray extra cs = .ok (type, rest)) :
    rest.length < cs.length := by
  fun_induction RefType.readArray extra cs with
  | case1 extra cs ih => exact Nat.lt_succ_of_lt (ih h)
  | case2 extra cs =>
    cases hr : BinaryName.read ('L' :: cs) with
    | error e => simp [hr, Except.map] at h
    | ok p =>
      obtain ⟨x, r⟩ := p
      have := BinaryName.length_lt_of_read hr
      simp only [hr, Except.map, Except.ok.injEq, Prod.mk.injEq] at h
      rw [← h.2]
      exact this
  | case3 extra cs =>
    cases hr : BaseType.read cs with
    | error e => simp [hr, Except.map] at h
    | ok p =>
      obtain ⟨x, r⟩ := p
      have := BaseType.length_lt_of_read hr
      simp only [hr, Except.map, Except.ok.injEq, Prod.mk.injEq] at h
      rw [← h.2]
      exact this

theorem RefType.length_lt_of_read {cs rest : List Char} {type : RefType BinaryName}
    (h : RefType.read cs = .ok (type, rest)) : rest.length < cs.length := by
  unfold RefType.read at h
  split at h
  · simp at h
  · rename_i cs
    cases hr : BinaryName.read ('L' :: cs) with
    | error e => simp [hr, Except.map] at h
    | ok p =>
      obtain ⟨x, r⟩ := p
      have := BinaryName.length_lt_of_read hr
      simp only [hr, Except.map, Except.ok.injEq, Prod.mk.injEq] at h
      rw [← h.2]
      exact this
  · exact Nat.lt_succ_of_lt (RefType.length_lt_of_readArray h)
  · simp at h

theorem FieldType.length_lt_of_read {cs rest : List Char} {type : FieldType BinaryName}
    (h : FieldType.read cs = .ok (type, rest)) : rest.length < cs.length := by
  unfold FieldType.read at h
  split at h
  · simp at h
  · rename_i c cs
    split at h
    · simp_all
    · cases hr : RefType.read (c :: cs) with
      | error e => simp [hr, Except.map] at h
      | ok p =>
        obtain ⟨x, r⟩ := p
        have := RefType.length_lt_of_read hr
        simp only [hr, Except.map, Except.ok.injEq, Prod.mk.injEq] at h
        rw [← h.2]
        exact this

namespace MethodType

/-- Reads types up to the closing parenthesis, which it takes too; `seen` holds the types read so
far, last one first. -/
def readParameters (seen : List (FieldType BinaryName)) (cs : List Char) :
    Except DescriptorError (List (FieldType BinaryName) × List Char) :=
  match cs with
  | ')' :: rest => .ok (seen.reverse, rest)
  | cs =>
    match _h : FieldType.read cs with
    | .error e => .error e
    | .ok (type, rest) => readParameters (type :: seen) rest
termination_by cs.length
decreasing_by exact FieldType.length_lt_of_read _h

def readResult : TextReader (Option (FieldType BinaryName))
  | 'V' :: rest => .ok (none, rest)
  | cs => (FieldType.read cs).map fun (type, rest) => (some type, rest)

def read : TextReader (MethodType BinaryName)
  | '(' :: cs =>
    match readParameters [] cs with
    | .error e => .error e
    | .ok (parameters, rest) =>
      (readResult rest).map fun (result, rest) => (⟨parameters, result⟩, rest)
  | _ => .error .methodExpected

end MethodType

def BaseType.parse (text : String) : Except DescriptorError BaseType := whole BaseType.read text

/-- Parses a class alone, `L…;`. -/
def BinaryName.parse (text : String) : Except DescriptorError BinaryName := whole BinaryName.read text

def RefType.parse (text : String) : Except DescriptorError (RefType BinaryName) :=
  whole RefType.read text

def FieldType.parse (text : String) : Except DescriptorError (FieldType BinaryName) :=
  whole FieldType.read text

def MethodType.parse (text : String) : Except DescriptorError (MethodType BinaryName) :=
  whole MethodType.read text

end JarRename
