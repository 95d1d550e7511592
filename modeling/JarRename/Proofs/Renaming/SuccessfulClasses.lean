import Mathlib
import JarRename.Proofs.Renaming.Attributes
import JarRename.Proofs.Renaming.Success
import JarRename.Renaming.Class

/-!
# When a class can be renamed

A class is renamed if all its parts are ready for it: every symbol is well-formed, every attribute
of a known name can be decoded, however deep it stands, and the pool has room for all that is added.
The predicates that end in `Ready` say so for each part, with the number of constants that it may
add.
-/
namespace JarRename.Renaming

open ConstantPool Stateful

section Attributes

section Relations

variable (r : Remapper) (base : ConstantPool)

/-- The value of an annotation element can be renamed, at the cost of so many constants. -/
inductive ValueReady : ElementValue → Nat → Prop
  | const {tag : UInt8} {index : PoolIndex} : ValueReady (.const tag index) 0
  | enumConstant {type name : PoolIndex} {nameText descriptor : String}
      (typed : base.text type = .ok descriptor) (named : base.text name = .ok nameText)
      (spelled : Spelled r .field nameText descriptor) : ValueReady (.enumConstant type name) 2
  | classLiteral {index : PoolIndex} (ready : TextReady r .resultDescriptor base index) :
      ValueReady (.classLiteral index) 1
  | nested {type : PoolIndex} {elements : List (PoolIndex × ElementValue)} {costs : List Nat}
      (typed : TextReady r .fieldDescriptor base type)
      (values : List.Forall₂ ValueReady (elements.map (·.2)) costs) :
      ValueReady (.nested type elements) (1 + costs.sum)
  | array {values : List ElementValue} {costs : List Nat}
      (ready : List.Forall₂ ValueReady values costs) : ValueReady (.array values) costs.sum

inductive UseReady : AnnotationUse → Nat → Prop
  | mk {type : PoolIndex} {elements : List (PoolIndex × ElementValue)} {costs : List Nat}
      (typed : TextReady r .fieldDescriptor base type)
      (values : List.Forall₂ (ValueReady r base) (elements.map (·.2)) costs) :
      UseReady ⟨type, elements⟩ (1 + costs.sum)

/-- The names that a simple name is read off are there. -/
structure InnerReady (entry : InnerClass) : Prop where
  inner : ∃ name, base.className entry.inner = .ok name ∧ Short name
  outer : ∀ i, entry.outer = some i → ∃ name, base.className i = .ok name
  simpleName : ∀ i, entry.simpleName = some i → ∃ text, base.text i = .ok text

inductive ComponentReady (nested : Attribute → Nat → Prop) : RecordComponent → Nat → Prop
  | mk {name descriptor : PoolIndex} {attributes : List Attribute}
      {nameText descriptorText : String} {costs : List Nat}
      (named : base.text name = .ok nameText) (typed : base.text descriptor = .ok descriptorText)
      (spelled : Spelled r .field nameText descriptorText)
      (inner : List.Forall₂ nested attributes costs) :
      ComponentReady nested ⟨name, descriptor, attributes⟩ (2 + costs.sum)

/-- A decoded body can be renamed, with `nested` for the attributes inside it. -/
inductive BodyReady (nested : Attribute → Nat → Prop) : AttributeBody → Nat → Prop
  | code {body : Code} {costs : List Nat} (inner : List.Forall₂ nested body.attributes costs) :
      BodyReady nested (.code body) costs.sum
  | signature {index : PoolIndex} (ready : TextReady r .signature base index) :
      BodyReady nested (.signature index) 1
  | enclosingClass {owner : PoolIndex} : BodyReady nested (.enclosingMethod owner none) 0
  | enclosingMethod {owner index : PoolIndex} (named : ∃ name, base.className owner = .ok name)
      (ready : MemberReady r .method base index) :
      BodyReady nested (.enclosingMethod owner (some index)) 3
  | innerClasses {classes : List InnerClass} (ready : ∀ entry ∈ classes, InnerReady base entry) :
      BodyReady nested (.innerClasses classes) (classes.length * 1)
  | localVariables {entries : List LocalVariable}
      (ready : ∀ entry ∈ entries, TextReady r .fieldDescriptor base entry.type) :
      BodyReady nested (.localVariables entries) (entries.length * 1)
  | localVariableTypes {entries : List LocalVariable}
      (ready : ∀ entry ∈ entries, TextReady r .signature base entry.type) :
      BodyReady nested (.localVariableTypes entries) (entries.length * 1)
  | record {components : List RecordComponent} {costs : List Nat}
      (ready : List.Forall₂ (ComponentReady r base nested) components costs) :
      BodyReady nested (.record components) costs.sum
  | annotations {entries : List AnnotationUse} {costs : List Nat}
      (ready : List.Forall₂ (UseReady r base) entries costs) :
      BodyReady nested (.annotations entries) costs.sum
  | parameterAnnotations {parameters : List (List AnnotationUse)} {costs : List (List Nat)}
      (ready : List.Forall₂ (List.Forall₂ (UseReady r base)) parameters costs) :
      BodyReady nested (.parameterAnnotations parameters) (costs.map List.sum).sum
  | typeAnnotations {entries : List TypeAnnotationUse} {costs : List Nat}
      (ready : List.Forall₂ (fun entry cost => UseReady r base entry.use cost) entries costs) :
      BodyReady nested (.typeAnnotations entries) costs.sum
  | annotationDefault {value : ElementValue} {cost : Nat} (ready : ValueReady r base value cost) :
      BodyReady nested (.annotationDefault value) cost

/-- An attribute can be renamed: its body can be decoded, unless it has an unknown name. -/
inductive AttributeReady : Attribute → Nat → Prop
  | unknown {entry : Attribute} {name : String} (text : base.text entry.name = .ok name)
      (kind : AttributeKind.ofName? name = none) : AttributeReady entry 0
  | decoded {entry : Attribute} {name : String} {kind : AttributeKind} {body : AttributeBody}
      {cost : Nat} (text : base.text entry.name = .ok name)
      (known : AttributeKind.ofName? name = some kind)
      (decodes : AttributeBody.decode kind name entry.info = .ok body)
      (ready : BodyReady r base AttributeReady body cost) : AttributeReady entry cost

end Relations

variable {ctx : Context} {base : ConstantPool} (hb : ctx.remapper.mappings.Brief)
include hb

theorem succeeds_fieldName (owner : String) (name : PoolIndex) {nameText descriptor : String}
    (h : Spelled ctx.remapper .field nameText descriptor) :
    Succeeds base 1 (ctx.fieldName owner name nameText descriptor) := by
  obtain ⟨key, -, rfl, rfl, -, -⟩ := h
  obtain ⟨mapped, hm, hfits⟩ := exists_mapMemberName hb .field owner key
  exact succeeds_lift_bind hm (succeeds_replaceText hfits)

omit hb in
theorem textReady_of_spelled {r : Remapper} {kind : MemberKind} {index : PoolIndex}
    {nameText descriptor : String} (h : Spelled r kind nameText descriptor)
    (ht : base.text index = .ok descriptor) : TextReady r (descriptorKind kind) base index := by
  obtain ⟨key, mapped, -, -, hm, hfits⟩ := h
  exact ⟨descriptor, mapped, ht, hm, hfits⟩

theorem succeeds_renameEnumConstant {type name : PoolIndex} {nameText descriptor : String}
    (typed : base.text type = .ok descriptor) (named : base.text name = .ok nameText)
    (spelled : Spelled ctx.remapper .field nameText descriptor) :
    Succeeds base 2 (renameEnumConstant ctx type name) := by
  have htype : Succeeds base 1 (ctx.text .fieldDescriptor type) :=
    succeeds_renameText (textReady_of_spelled spelled typed)
  refine succeeds_look_bind fun pool hf => ⟨descriptor, hf.text typed, ?_⟩
  refine succeeds_look_bind fun pool hf => ⟨nameText, hf.text named, ?_⟩
  cases descriptorClass? descriptor with
  | none => exact (htype.map fun i => ElementValue.enumConstant i name).mono (by omega)
  | some owner =>
    exact (succeeds_fieldName hb owner name spelled).bind fun j =>
      htype.map fun i => ElementValue.enumConstant i j

omit hb in
theorem succeeds_elements {elements : List (PoolIndex × ElementValue)} {costs : List Nat}
    (h : List.Forall₂ (fun element cost => Succeeds base cost (renameValue ctx element.2)) elements
      costs) :
    Succeeds base costs.sum (elements.mapM fun element => do
      return (element.1, ← renameValue ctx element.2)) :=
  succeeds_mapM (h.imp fun element _ he => he.map (element.1, ·))

theorem succeeds_renameValue {value : ElementValue} {cost : Nat}
    (h : ValueReady ctx.remapper base value cost) : Succeeds base cost (renameValue ctx value) := by
  induction value using renameValue.induct generalizing cost with
  | case1 tag index =>
    cases h
    rw [renameValue]
    exact succeeds_pure _
  | case2 type name =>
    cases h with
    | enumConstant typed named spelled =>
      rw [renameValue]
      exact succeeds_renameEnumConstant hb typed named spelled
  | case3 descriptor =>
    cases h with
    | classLiteral ready =>
      rw [renameValue]
      exact (succeeds_renameText ready).map ElementValue.classLiteral
  | case4 type elements ih =>
    cases h with
    | nested typed values =>
      rw [renameValue_nested]
      rw [List.forall₂_map_left_iff] at values
      refine (succeeds_renameText typed).bind fun type' => ?_
      refine (succeeds_elements ?_).map (ElementValue.nested type')
      exact (Fallible.forall₂_mem values).imp fun element cost he =>
        ih element.1 element.2 he.1 he.2
  | case5 values ih =>
    cases h with
    | array ready =>
      rw [renameValue_array]
      refine (succeeds_mapM ?_).map ElementValue.array
      exact (Fallible.forall₂_mem ready).imp fun value cost hv => ih value hv.1 hv.2

theorem succeeds_renameUse {entry : AnnotationUse} {cost : Nat}
    (h : UseReady ctx.remapper base entry cost) : Succeeds base cost (renameUse ctx entry) := by
  cases h with
  | @mk type elements costs typed values =>
    rw [List.forall₂_map_left_iff] at values
    have helements := succeeds_elements (values.imp fun element cost hv =>
      succeeds_renameValue hb hv)
    exact (succeeds_renameText typed).bind fun type' => helements.map (AnnotationUse.mk type')

omit hb in
theorem succeeds_lookOption_bind {α : Type} {index : Option PoolIndex} {cost : Nat}
    {next : Option String → PoolM α}
    (h : ∀ i, index = some i → ∃ name, base.className i = .ok name)
    (hn : ∀ names, Succeeds base cost (next names)) :
    Succeeds base cost (index.mapM (fun i => look (·.className i)) >>= next) := by
  cases index with
  | none => exact hn none
  | some i =>
    rw [Option.mapM_some, map_eq_pure_bind, bind_assoc]
    refine succeeds_className_bind (h i rfl) fun name => ?_
    rw [pure_bind]
    exact hn (some name)

omit hb in
theorem succeeds_renameInnerClass {entry : InnerClass} (h : InnerReady base entry) :
    Succeeds base 1 (renameInnerClass ctx entry) := by
  unfold renameInnerClass
  cases hi : entry.simpleName with
  | none => exact (succeeds_pure entry).mono (by omega)
  | some i =>
    dsimp only
    split
    · obtain ⟨name, hname, hshort⟩ := h.inner
      obtain ⟨text, ht⟩ := h.simpleName i hi
      refine succeeds_look_bind fun pool hf => ?_
      obtain ⟨inner, hinner, hfits⟩ := hf.named entry.inner name hname
      refine ⟨inner, hinner, succeeds_lookOption_bind h.outer fun outer => ?_⟩
      refine succeeds_look_bind fun pool hf => ⟨text, hf.text ht, ?_⟩
      have hinnerShort : Short inner := hfits.elim (fun he => he ▸ hshort) id
      have hsimple := hinnerShort.of_isSuffix (isSuffix_simpleName inner outer)
      exact (succeeds_replaceText (.inr hsimple)).map fun j => { entry with simpleName := some j }
    · exact (succeeds_pure entry).mono (by omega)

omit hb in
theorem succeeds_variables {kind : TextKind} {entries : List LocalVariable}
    (h : ∀ entry ∈ entries, TextReady ctx.remapper kind base entry.type) :
    Succeeds base (entries.length * 1)
      (entries.mapM fun entry => do return { entry with type := ← ctx.text kind entry.type }) :=
  succeeds_mapM_of_forall fun entry he => by
    have htype : Succeeds base 1 (ctx.text kind entry.type) := succeeds_renameText (h entry he)
    exact htype.map fun type => { entry with type := type }

variable {nested : Attribute → PoolM Attribute} {ready : Attribute → Nat → Prop}

theorem succeeds_renameComponent {entry : RecordComponent} {cost : Nat}
    (h : ComponentReady ctx.remapper base ready entry cost)
    (hi : ∀ a ∈ entry.attributes, ∀ cost, ready a cost → Succeeds base cost (nested a)) :
    Succeeds base cost (renameComponent ctx nested entry) := by
  cases h with
  | @mk name descriptor attributes nameText descriptorText costs named typed spelled inner =>
    have htype : Succeeds base 1 (ctx.text .fieldDescriptor descriptor) :=
      succeeds_renameText (textReady_of_spelled spelled typed)
    have hinner : Succeeds base costs.sum (attributes.mapM nested) :=
      succeeds_mapM ((Fallible.forall₂_mem inner).imp fun a cost ha => hi a ha.1 cost ha.2)
    refine succeeds_look_bind fun pool hf => ⟨nameText, hf.text named, ?_⟩
    refine succeeds_look_bind fun pool hf => ⟨descriptorText, hf.text typed, ?_⟩
    rw [Nat.add_assoc 1 1 costs.sum]
    exact (succeeds_fieldName hb ctx.className name spelled).bind fun i =>
      htype.bind fun j => hinner.map (RecordComponent.mk i j)

omit hb in
theorem succeeds_oldClassName_bind {α : Type} {index : PoolIndex} {cost : Nat}
    {next : String → PoolM α} (h : ∃ name, base.className index = .ok name)
    (hn : ∀ name, Succeeds base cost (next name)) :
    Succeeds base cost (ctx.oldClassName index >>= next) := by
  unfold Context.oldClassName
  cases ctx.oldNames[index]? with
  | none => exact succeeds_className_bind h hn
  | some name => exact hn name

theorem succeeds_renameBody {body : AttributeBody} {cost : Nat}
    (h : BodyReady ctx.remapper base ready body cost)
    (hi : ∀ a ∈ innerAttributes body, ∀ cost, ready a cost → Succeeds base cost (nested a)) :
    Succeeds base cost (renameBody ctx nested body) := by
  cases h with
  | @code body costs inner =>
    refine (succeeds_mapM ?_).map fun attributes =>
      AttributeBody.code { body with attributes := attributes }
    exact (Fallible.forall₂_mem inner).imp fun a cost ha => hi a ha.1 cost ha.2
  | signature ready => exact (succeeds_renameText ready).map AttributeBody.signature
  | enclosingClass => exact succeeds_pure _
  | @enclosingMethod owner index named ready =>
    exact succeeds_oldClassName_bind named fun name =>
      (succeeds_renameMember hb name ready).map fun i =>
        AttributeBody.enclosingMethod owner (some i)
  | innerClasses ready =>
    exact (succeeds_mapM_of_forall fun entry he =>
      succeeds_renameInnerClass (ready entry he)).map AttributeBody.innerClasses
  | localVariables ready => exact (succeeds_variables ready).map AttributeBody.localVariables
  | localVariableTypes ready =>
    exact (succeeds_variables ready).map AttributeBody.localVariableTypes
  | record ready =>
    refine (succeeds_mapM ?_).map AttributeBody.record
    refine (Fallible.forall₂_mem ready).imp fun entry cost he => ?_
    exact succeeds_renameComponent hb he.2 fun a ha =>
      hi a (List.mem_flatMap.2 ⟨entry, he.1, ha⟩)
  | annotations ready =>
    exact (succeeds_mapM (ready.imp fun _ _ hu => succeeds_renameUse hb hu)).map
      AttributeBody.annotations
  | parameterAnnotations ready =>
    refine (succeeds_mapM ?_).map AttributeBody.parameterAnnotations
    rw [List.forall₂_map_right_iff]
    exact ready.imp fun _ _ hall =>
      succeeds_mapM (hall.imp fun _ _ hu => succeeds_renameUse hb hu)
  | typeAnnotations ready =>
    refine (succeeds_mapM ?_).map AttributeBody.typeAnnotations
    exact ready.imp fun entry _ hu => (succeeds_renameUse hb hu).map fun use => { entry with use }
  | annotationDefault ready =>
    exact (succeeds_renameValue hb ready).map AttributeBody.annotationDefault

theorem succeeds_renameNested {fuel : Nat} {entry : Attribute} {cost : Nat}
    (hf : entry.info.length < fuel) (h : AttributeReady ctx.remapper base entry cost) :
    Succeeds base cost (renameNested ctx fuel entry) := by
  induction fuel generalizing entry cost with
  | zero => omega
  | succ fuel ih =>
    cases h with
    | @unknown _ name text kind =>
      refine succeeds_look_bind fun pool hp => ⟨name, hp.text text, ?_⟩
      rw [kind]
      exact succeeds_pure entry
    | @decoded _ name kind body _ text known decodes ready =>
      refine succeeds_look_bind fun pool hp => ⟨name, hp.text text, ?_⟩
      rw [known]
      refine succeeds_lift_bind decodes ?_
      refine (succeeds_renameBody hb ready fun a ha cost hr => ?_).map fun body =>
        Attribute.mk entry.name body.write
      have hl := length_lt_of_decode decodes ha
      exact ih (by omega) hr

theorem succeeds_attributes {attributes : List Attribute} {costs : List Nat}
    (h : List.Forall₂ (AttributeReady ctx.remapper base) attributes costs) :
    Succeeds base costs.sum (attributes.mapM (renameAttribute ctx)) :=
  succeeds_mapM (h.imp fun _ _ ha => succeeds_renameNested hb (Nat.lt_succ_self _) ha)

end Attributes

section Classes

variable {r : Remapper}

/-- The declaration of a field or method can be renamed. -/
inductive DeclarationReady (r : Remapper) (kind : MemberKind) (base : ConstantPool) :
    Member → Nat → Prop
  | mk {flags : AccessFlags} {name descriptor : PoolIndex} {attributes : List Attribute}
      {nameText descriptorText : String} {costs : List Nat}
      (named : base.text name = .ok nameText) (typed : base.text descriptor = .ok descriptorText)
      (spelled : Spelled r kind nameText descriptorText)
      (inner : List.Forall₂ (AttributeReady r base) attributes costs) :
      DeclarationReady r kind base ⟨flags, name, descriptor, attributes⟩ (2 + costs.sum)

/-- All parts of a class can be renamed at the given costs, and its pool has room for them. -/
structure ClassReady (r : Remapper) (file : ClassFile)
    (fieldCosts methodCosts attributeCosts : List Nat) : Prop where
  name : ∃ name, file.name = .ok name
  constants : ∀ entry ∈ file.pool.toList, ConstantReady r file.pool entry.2
  fields : List.Forall₂ (DeclarationReady r .field file.pool) file.fields fieldCosts
  methods : List.Forall₂ (DeclarationReady r .method file.pool) file.methods methodCosts
  attributes : List.Forall₂ (AttributeReady r file.pool) file.attributes attributeCosts
  room : file.pool.slots.next + 3 * file.pool.toList.length +
    (fieldCosts.sum + (methodCosts.sum + attributeCosts.sum)) ≤ maxSlots

theorem succeeds_renameMemberDeclaration {ctx : Context} {base : ConstantPool}
    (hb : ctx.remapper.mappings.Brief) {kind : MemberKind} {member : Member} {cost : Nat}
    (h : DeclarationReady ctx.remapper kind base member cost) :
    Succeeds base cost (renameMemberDeclaration ctx kind member) := by
  cases h with
  | @mk flags name descriptor attributes nameText descriptorText costs named typed spelled inner =>
    have htype : Succeeds base 1 (ctx.text (descriptorKind kind) descriptor) :=
      succeeds_renameText (textReady_of_spelled spelled typed)
    obtain ⟨key, -, rfl, rfl, -, -⟩ := spelled
    obtain ⟨newName, hname, hfits⟩ := exists_mapMemberName hb kind ctx.className key
    refine succeeds_look_bind fun pool hf => ⟨_, hf.text named, ?_⟩
    refine succeeds_look_bind fun pool hf => ⟨_, hf.text typed, ?_⟩
    refine succeeds_lift_bind hname ?_
    rw [Nat.add_assoc 1 1 costs.sum]
    exact (succeeds_replaceText hfits).bind fun i => htype.bind fun j =>
      (succeeds_attributes hb inner).map (Member.mk flags i j)

/-- A class that is ready is renamed. -/
theorem renameClass_succeeds {file : ClassFile} {fieldCosts methodCosts attributeCosts : List Nat}
    (hb : r.mappings.Brief) (hs : file.pool.Sound)
    (h : ClassReady r file fieldCosts methodCosts attributeCosts) :
    ∃ mapped renamed, r.renameClass file = .ok (mapped, renamed) := by
  obtain ⟨name, hname⟩ := h.name
  have hroom := h.room
  obtain ⟨names, mid, hconstants, hms, hcontinues, hle⟩ :=
    renameConstants_succeeds hb hs h.constants (by omega)
  have hfields := succeeds_mapM (h.fields.imp fun _ _ hm =>
    @succeeds_renameMemberDeclaration ⟨r, name, names⟩ file.pool hb .field _ _ hm)
  have hmethods := succeeds_mapM (h.methods.imp fun _ _ hm =>
    @succeeds_renameMemberDeclaration ⟨r, name, names⟩ file.pool hb .method _ _ hm)
  have hattributes := @succeeds_attributes ⟨r, name, names⟩ file.pool hb _ _ h.attributes
  have hparts := hfields.bind fun fields => hmethods.bind fun methods =>
    hattributes.map fun attributes => (fields, methods, attributes)
  obtain ⟨⟨fields, methods, attributes⟩, after, hrun, -, hgrows, -⟩ :=
    hparts mid hms hcontinues (by omega)
  obtain ⟨mapped, hmapped, -⟩ :=
    (hcontinues.of_grows hms.laid hgrows).named file.thisClass name hname
  have hall : renameParts r name file.fields file.methods file.attributes file.pool =
      (.ok (fields, methods, attributes), after) :=
    bind_ok_iff.2 ⟨names, mid, hconstants, hrun⟩
  refine ⟨mapped, { file with pool := after, fields, methods, attributes }, ?_⟩
  refine Fallible.bind_ok_iff.2 ⟨name, hname, ?_⟩
  rw [hall]
  exact Fallible.bind_ok_iff.2 ⟨mapped, hmapped, rfl⟩

end Classes

end JarRename.Renaming
