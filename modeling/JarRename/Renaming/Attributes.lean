import JarRename.Renaming.Text

/-!
# Renaming attributes

Attributes with symbols are decoded, changed and encoded again; all others stay as they are.
-/
namespace JarRename.Renaming

/-- What the attributes of a class are renamed by. -/
structure Context where
  remapper : Remapper
  /-- Old name of the class. -/
  className : String
  /-- Old names of the class constants that have been renamed. -/
  oldNames : Std.HashMap PoolIndex String

namespace Context

/-- The name that a class constant had before it was renamed. -/
def oldClassName (ctx : Context) (index : PoolIndex) : PoolM String :=
  match ctx.oldNames[index]? with
  | some name => return name
  | none => look (·.className index)

def text (ctx : Context) (kind : TextKind) (index : PoolIndex) : PoolM PoolIndex :=
  renameText ctx.remapper kind index

/-- The name to use for a field, given by its two texts, that `owner` declares. -/
def fieldName (ctx : Context) (owner : String) (name : PoolIndex) (nameText descriptor : String) :
    PoolM PoolIndex := do
  replaceText name nameText (← ctx.remapper.mapField owner nameText descriptor)

end Context

/-- The class name inside the descriptor of a class. -/
def descriptorClass? (descriptor : String) : Option String := do
  let cs ← Text.dropPrefix? ['L'] descriptor.toList
  return String.ofList (← Text.dropSuffix? [';'] cs)

/-- Constants of an enumeration are fields of its class. -/
def renameEnumConstant (ctx : Context) (type name : PoolIndex) : PoolM ElementValue := do
  let descriptor ← look (·.text type)
  let nameText ← look (·.text name)
  let name ← match descriptorClass? descriptor with
    | some owner => ctx.fieldName owner name nameText descriptor
    | none => pure name
  return .enumConstant (← ctx.text .fieldDescriptor type) name

def renameValue (ctx : Context) (value : ElementValue) : PoolM ElementValue := do
  match value with
  | .const tag value => return .const tag value
  | .enumConstant type name => renameEnumConstant ctx type name
  | .classLiteral descriptor => return .classLiteral (← ctx.text .resultDescriptor descriptor)
  | .nested type elements =>
    let type ← ctx.text .fieldDescriptor type
    return .nested type (← elements.attach.mapM fun ⟨(name, value), _h⟩ => do
      return (name, ← renameValue ctx value))
  | .array values => return .array (← values.attach.mapM fun ⟨value, _h⟩ => renameValue ctx value)
termination_by value
decreasing_by
  · have := List.sizeOf_lt_of_mem _h
    simp at this ⊢
    omega
  · have := List.sizeOf_lt_of_mem _h
    simp
    omega

/-- Element names stay: they are methods that no mapping is looked up for. -/
def renameUse (ctx : Context) (entry : AnnotationUse) : PoolM AnnotationUse := do
  let type ← ctx.text .fieldDescriptor entry.type
  return ⟨type, ← entry.elements.mapM fun (name, value) => do return (name, ← renameValue ctx value)⟩

/-- Reads the simple name of a nested class off its new name, if that has changed. A class without
a simple name keeps having none. -/
def renameInnerClass (ctx : Context) (entry : InnerClass) : PoolM InnerClass := do
  match entry.simpleName with
  | none => return entry
  | some name =>
    if ctx.oldNames.contains entry.inner then
      let inner ← look (·.className entry.inner)
      let outer ← entry.outer.mapM fun outer => look (·.className outer)
      let old ← look (·.text name)
      return { entry with simpleName := some (← replaceText name old (simpleName inner outer)) }
    else return entry

def renameComponent (ctx : Context) (nested : Attribute → PoolM Attribute)
    (entry : RecordComponent) : PoolM RecordComponent := do
  let nameText ← look (·.text entry.name)
  let descriptorText ← look (·.text entry.descriptor)
  let name ← ctx.fieldName ctx.className entry.name nameText descriptorText
  let descriptor ← ctx.text .fieldDescriptor entry.descriptor
  return ⟨name, descriptor, ← entry.attributes.mapM nested⟩

/-- Renames a body, with `nested` renaming the attributes inside it. -/
def renameBody (ctx : Context) (nested : Attribute → PoolM Attribute) :
    AttributeBody → PoolM AttributeBody
  | .code body => return .code { body with attributes := ← body.attributes.mapM nested }
  | .signature index => return .signature (← ctx.text .signature index)
  | .enclosingMethod owner none => return .enclosingMethod owner none
  | .enclosingMethod owner (some method) => do
    let ownerName ← ctx.oldClassName owner
    return .enclosingMethod owner (some (← renameMember ctx.remapper .method ownerName method))
  | .innerClasses classes => return .innerClasses (← classes.mapM (renameInnerClass ctx))
  | .localVariables entries =>
    return .localVariables (← entries.mapM fun entry => do
      return { entry with type := ← ctx.text .fieldDescriptor entry.type })
  | .localVariableTypes entries =>
    return .localVariableTypes (← entries.mapM fun entry => do
      return { entry with type := ← ctx.text .signature entry.type })
  | .record components => return .record (← components.mapM (renameComponent ctx nested))
  | .annotations entries => return .annotations (← entries.mapM (renameUse ctx))
  | .parameterAnnotations parameters =>
    return .parameterAnnotations (← parameters.mapM fun entries =>
      entries.mapM (renameUse ctx))
  | .typeAnnotations entries =>
    return .typeAnnotations (← entries.mapM fun entry => do
      return { entry with use := ← renameUse ctx entry.use })
  | .annotationDefault value => return .annotationDefault (← renameValue ctx value)

/-- Renames an attribute. An attribute inside a body is shorter than the body, so the fuel bounds
the depth of nesting. -/
def renameNested (ctx : Context) : (fuel : Nat) → Attribute → PoolM Attribute
  | 0, entry => return entry
  | fuel + 1, entry => do
    let name ← look (·.text entry.name)
    match AttributeKind.ofName? name with
    | none => return entry
    | some kind =>
      let body ← AttributeBody.decode kind name entry.info
      return ⟨entry.name, (← renameBody ctx (renameNested ctx fuel) body).write⟩

def renameAttribute (ctx : Context) (entry : Attribute) : PoolM Attribute :=
  renameNested ctx (entry.info.length + 1) entry

end JarRename.Renaming
