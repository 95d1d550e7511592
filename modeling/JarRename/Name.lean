import JarRename.Text.Cut

/-!
# Names of classes and members

A field or method has an unqualified name, a class or interface a binary name: unqualified names
joined by slashes. Both types carry the proof that their text is well formed.
-/
namespace JarRename

open Text

/-- Why a text is not a name. -/
inductive NameError where
  | illegalCharacter (part : String)
  | emptyPart
  | emptyBinary
  deriving DecidableEq, Repr, Inhabited

def NameError.message : NameError → String
  | .illegalCharacter part => s!"Unqualified name '{part}' contains an illegal character"
  | .emptyPart => "Unqualified name '' is empty"
  | .emptyBinary => "Binary name '' is empty"

namespace Name

/-- The marks that separate names from what surrounds them. -/
def isMark (c : Char) : Bool := c == '.' || c == ';' || c == '[' || c == '/'

/-- The first reason why `cs` is not an unqualified name: a mark counts before emptiness. -/
def partError? (cs : List Char) : Option NameError :=
  if cs.any isMark then some (.illegalCharacter (String.ofList cs))
  else if cs.isEmpty then some .emptyPart
  else none

/-- The first reason why `cs` is not a binary name, parts from left to right. -/
def binaryError? (cs : List Char) : Option NameError :=
  if cs.isEmpty then some .emptyBinary
  else (splitOn '/' cs).findSome? partError?

theorem partError?_eq_none_iff {cs : List Char} :
    partError? cs = none ↔ cs ≠ [] ∧ ∀ c ∈ cs, isMark c = false := by
  unfold partError?
  split
  · simp_all
  · split <;> simp_all

theorem binaryError?_eq_none_iff {cs : List Char} :
    binaryError? cs = none ↔ cs ≠ [] ∧ ∀ part ∈ splitOn '/' cs, partError? part = none := by
  unfold binaryError?
  split <;> simp_all [List.findSome?_eq_none_iff]

end Name

/-- Name of a field or method. -/
structure UnqualifiedName where
  text : String
  valid : Name.partError? text.toList = none
  deriving DecidableEq

/-- Name of a class or interface, its package parts separated by slashes. -/
structure BinaryName where
  text : String
  valid : Name.binaryError? text.toList = none
  deriving DecidableEq

namespace UnqualifiedName

instance : Hashable UnqualifiedName := ⟨fun name => hash name.text⟩

instance : Repr UnqualifiedName := ⟨fun name n => reprPrec name.text n⟩

instance : Inhabited UnqualifiedName := ⟨"x", by decide +kernel⟩

def ofString (text : String) : Except NameError UnqualifiedName :=
  match h : Name.partError? text.toList with
  | none => .ok ⟨text, h⟩
  | some e => .error e

def ofString? (text : String) : Option UnqualifiedName := (ofString text).toOption

/-- Constructors and class initializers, which no mapping may rename. -/
def isInitializer (name : UnqualifiedName) : Bool := name.text == "<init>" || name.text == "<clinit>"

theorem ofString_text (name : UnqualifiedName) : ofString name.text = .ok name := by
  unfold ofString
  split
  · rfl
  · simp_all [name.valid]

theorem text_of_ofString {text : String} {name : UnqualifiedName} (h : ofString text = .ok name) :
    name.text = text := by
  unfold ofString at h
  split at h <;> simp_all
  rw [← h]

@[simp] theorem ofString?_text (name : UnqualifiedName) : ofString? name.text = some name := by
  simp [ofString?, ofString_text, Except.toOption]

theorem text_of_ofString? {text : String} {name : UnqualifiedName} (h : ofString? text = some name) :
    name.text = text := by
  unfold ofString? at h
  cases hs : ofString text with
  | error e => simp [hs, Except.toOption] at h
  | ok found =>
    simp only [hs, Except.toOption, Option.some.injEq] at h
    exact h ▸ text_of_ofString hs

theorem text_injective : Function.Injective text := by
  intro name other h
  have hsome := ofString?_text name
  rw [h, ofString?_text] at hsome
  exact (Option.some.inj hsome).symm

end UnqualifiedName

namespace BinaryName

instance : Hashable BinaryName := ⟨fun name => hash name.text⟩

instance : Repr BinaryName := ⟨fun name n => reprPrec name.text n⟩

instance : Inhabited BinaryName := ⟨"x", by decide +kernel⟩

def ofString (text : String) : Except NameError BinaryName :=
  match h : Name.binaryError? text.toList with
  | none => .ok ⟨text, h⟩
  | some e => .error e

def ofString? (text : String) : Option BinaryName := (ofString text).toOption

/-- The root of every class hierarchy. -/
def object : BinaryName := ⟨"java/lang/Object", by decide +kernel⟩

theorem ofString_text (name : BinaryName) : ofString name.text = .ok name := by
  unfold ofString
  split
  · rfl
  · simp_all [name.valid]

theorem text_of_ofString {text : String} {name : BinaryName} (h : ofString text = .ok name) :
    name.text = text := by
  unfold ofString at h
  split at h <;> simp_all
  rw [← h]

@[simp] theorem ofString?_text (name : BinaryName) : ofString? name.text = some name := by
  simp [ofString?, ofString_text, Except.toOption]

theorem text_of_ofString? {text : String} {name : BinaryName} (h : ofString? text = some name) :
    name.text = text := by
  unfold ofString? at h
  cases hs : ofString text with
  | error e => simp [hs, Except.toOption] at h
  | ok found =>
    simp only [hs, Except.toOption, Option.some.injEq] at h
    exact h ▸ text_of_ofString hs

theorem text_injective : Function.Injective text := by
  intro name other h
  have hsome := ofString?_text name
  rw [h, ofString?_text] at hsome
  exact (Option.some.inj hsome).symm

end BinaryName

/-- What follows the last `$` of a class name without its package, less the digits that a local
class carries in front of its name. Without a `$` it is the whole class name, and a class named by
digits alone keeps them. -/
def nestedPart (className : List Char) : List Char :=
  match cutLast? '$' className with
  | none => className
  | some (_, nested) =>
    match nested.dropWhile Char.isDigit with
    | [] => nested
    | named => named

/-- The name of a nested class as its source spells it. Below `outer` it is what follows the outer
name and a `$`; otherwise it is read off the inner name alone. -/
def simpleName (inner : String) (outer : Option String) : String :=
  let below := match outer with
    | none => none
    | some outer =>
      match dropPrefix? outer.toList inner.toList with
      | some ('$' :: nested) => if nested.isEmpty then none else some nested
      | _ => none
  match below with
  | some nested => String.ofList nested
  | none =>
    let className := match cutLast? '/' inner.toList with
      | some (_, className) => className
      | none => inner.toList
    String.ofList (nestedPart className)

end JarRename
